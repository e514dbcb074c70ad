import UnsoloKey.PresenceRounds
import Mathlib.Tactic

/-!
# The loop of the touch wait

`fido2_wait_for_user_presence` takes a baseline from sixteen readings of the pad and then
reads it once in every round, until three readings in a row are low enough, a
cancellation has been seen, or 301 rounds are over.  A round ends with
`Process_OOB_Commands`, which may set `cancel_requested`.
-/

namespace UnsoloKey

/-- The globals of the wait. -/
structure TouchGlobals where
  cancelRequested : Bool
  touchAdcInitDone : Bool
  touchBaseline : UInt32
  gAdcEntropy : UInt32

/-- `base_sum` over the readings from `start` on. -/
def baseSum (adc : ℕ → UInt32) (start : ℕ) : UInt32 :=
  (List.range 16).foldl (fun (sum : UInt32) i => sum + adc (start + i)) 0

/-- `init_touch_adc`: eight readings are discarded and sixteen make a baseline. -/
def initTouchAdc (g : TouchGlobals) (adc : ℕ → UInt32) : TouchGlobals :=
  if g.touchAdcInitDone then g
  else { g with touchBaseline := baseSum adc 8 / 16, touchAdcInitDone := true }

/-- The readings taken by `init_touch_adc`. -/
def initReads (g : TouchGlobals) : ℕ := if g.touchAdcInitDone then 0 else 24

def stirEntropy (entropy : UInt32) (adc : ℕ → UInt32) (start : ℕ) : UInt32 :=
  (List.range 8).foldl
    (fun e i => e ^^^ (adc (start + i) + 0x9E3779B9 + (e <<< (3 : UInt32)))) entropy

/-- The variables of the loop, with the keepalives sent so far. -/
structure PresenceLoop where
  loops : UInt32
  confirm : UInt8
  cancelRequested : Bool
  keepalives : List UInt8

inductive PollResult where
  | again (w : PresenceLoop)
  | ends (status : UInt8) (w : PresenceLoop)

namespace PresenceLoop

def sendKeepalive (w : PresenceLoop) (status : UInt8) : PresenceLoop :=
  { w with keepalives := w.keepalives ++ [status] }

/-- The round after the reading; `seen` tells whether `Process_OOB_Commands` sets
`cancel_requested`. -/
def finishPoll (w : PresenceLoop) (seen : Bool) : PollResult :=
  let w := { w with cancelRequested := w.cancelRequested || seen }
  if w.cancelRequested then .ends 0x2D w
  else
    let w := { w with loops := w.loops + 1 }
    let w := if w.loops % 4 = 0 then w.sendKeepalive 2 else w
    if w.loops > 300 then .ends 0x2F w else .again w

def poll (base val : UInt32) (seen : Bool) (w : PresenceLoop) : PollResult :=
  let delta := base / 4
  if base > 64 ∧ val < base - delta then
    let w := { w with confirm := w.confirm + 1 }
    if w.confirm ≥ 3 then .ends 0x00 (w.sendKeepalive 1)
    else w.finishPoll seen
  else { w with confirm := 0 }.finishPoll seen

/-- The loop from round `k` on: the status, the number of rounds, and the variables at the
end. -/
def run (base : UInt32) (vals : ℕ → UInt32) (seen : ℕ → Bool) :
    ℕ → ℕ → PresenceLoop → Option (UInt8 × ℕ × PresenceLoop)
  | 0, _, _ => none
  | fuel + 1, k, w =>
      match poll base (vals k) (seen k) w with
      | .ends status w => some (status, k + 1, w)
      | .again w => run base vals seen fuel (k + 1) w

end PresenceLoop

structure PresenceResult where
  status : UInt8
  polls : ℕ
  globals : TouchGlobals
  keepalives : List UInt8

/-- The readings `adc` come in the order in which they are taken. -/
def fido2WaitForUserPresence (fuel : ℕ) (g : TouchGlobals) (adc : ℕ → UInt32)
    (seen : ℕ → Bool) : Option PresenceResult :=
  let g := { g with cancelRequested := false }
  let start := initReads g
  let g := initTouchAdc g adc
  let base := baseSum adc start / 16
  let g := { g with
    touchBaseline := base
    gAdcEntropy := stirEntropy g.gAdcEntropy adc (start + 16) }
  let w : PresenceLoop := ⟨0, 0, g.cancelRequested, [2]⟩
  (PresenceLoop.run base (fun k => adc (start + 24 + k)) seen fuel 0 w).map fun r =>
    ⟨r.1, r.2.1, { g with cancelRequested := r.2.2.cancelRequested }, r.2.2.keepalives⟩

/-- The subtraction in the test does not wrap. -/
theorem sub_delta_toNat (base : UInt32) :
    (base - base / 4).toNat = base.toNat - base.toNat / 4 := by
  rw [UInt32.toNat_sub_of_le, UInt32.toNat_div]
  · rfl
  · rw [UInt32.le_iff_toNat_le, UInt32.toNat_div]
    exact Nat.div_le_self _ _

theorem dips_iff {base val : UInt32} :
    (base > 64 ∧ val < base - base / 4) ↔ Dips base.toNat val.toNat := by
  rw [gt_iff_lt, UInt32.lt_iff_toNat_lt, UInt32.lt_iff_toNat_lt, sub_delta_toNat]
  rfl

/-! ## One round -/

/-- The variables at the beginning of round `k`. -/
structure AtRound (base : ℕ) (vals : ℕ → ℕ) (k : ℕ) (w : PresenceLoop) : Prop where
  loops : w.loops.toNat = k
  confirm : w.confirm.toNat = dipsBefore base vals k
  cancelRequested : w.cancelRequested = false

/-- The variables in round `k` behind the reading, if the loop goes on. -/
structure AfterReading (base : ℕ) (vals : ℕ → ℕ) (k : ℕ) (w : PresenceLoop) : Prop where
  loops : w.loops.toNat = k
  confirm : w.confirm.toNat = dipsBefore base vals (k + 1)
  cancelRequested : w.cancelRequested = false

/-- A keepalive changes none of the variables. -/
theorem sendKeepalive_frame (due : Prop) [Decidable due] (w : PresenceLoop) (status : UInt8) :
    ∃ v : PresenceLoop, (if due then w.sendKeepalive status else w) = v ∧
      v.loops = w.loops ∧ v.confirm = w.confirm ∧ v.cancelRequested = w.cancelRequested := by
  split_ifs
  · exact ⟨_, rfl, rfl, rfl, rfl⟩
  · exact ⟨_, rfl, rfl, rfl, rfl⟩

section

variable {base : ℕ} {vals : ℕ → ℕ} {seen : ℕ → Bool} {k : ℕ} {w : PresenceLoop}

/-- The end of a round: it is the last one, or the next one begins. -/
theorem finishPoll_cases (h : AfterReading base vals k w) (hk : k ≤ 300)
    (hless : dipsBefore base vals (k + 1) < 3) :
    (∃ w', EndsAt base vals seen k ∧
      w.finishPoll (seen k) = .ends (statusAt base vals seen k) w') ∨
    ∃ w', ¬ EndsAt base vals seen k ∧ w.finishPoll (seen k) = .again w' ∧
      AtRound base vals (k + 1) w' := by
  have hstatus : statusAt base vals seen k = if seen k then 0x2D else 0x2F :=
    if_neg (by omega)
  rw [hstatus]
  unfold PresenceLoop.finishPoll
  simp only [h.cancelRequested, Bool.false_or]
  cases hseen : seen k with
  | true => exact .inl ⟨_, .inr (.inl hseen), rfl⟩
  | false =>
      simp only [Bool.false_eq_true, if_false]
      obtain ⟨v, hv, hloops, hconfirm, hcancel⟩ := sendKeepalive_frame
        ((w.loops + 1) % 4 = 0) ⟨w.loops + 1, w.confirm, false, w.keepalives⟩ 2
      rw [hv]
      have hnext : v.loops.toNat = k + 1 := by
        rw [hloops, UInt32.toNat_add, h.loops]
        change (k + 1) % 2 ^ 32 = k + 1
        omega
      have h300 : (300 : UInt32).toNat = 300 := rfl
      by_cases hlast : k = 300
      · refine .inl ⟨v, .inr (.inr hlast.ge), if_pos ?_⟩
        rw [gt_iff_lt, UInt32.lt_iff_toNat_lt, hnext]
        omega
      · refine .inr ⟨v, ?_, if_neg ?_, hnext, ?_, hcancel⟩
        · rintro (hthree | hcancelled | hlate)
          · omega
          · rw [hseen] at hcancelled
            cases hcancelled
          · omega
        · rw [gt_iff_lt, UInt32.lt_iff_toNat_lt, hnext]
          omega
        · rw [hconfirm]
          exact h.confirm

end

section

variable {base : UInt32} {vals : ℕ → UInt32} {k : ℕ} {w : PresenceLoop}

/-- One round: it is the last one, or the next one begins. -/
theorem poll_cases (seen : ℕ → Bool) (h : AtRound base.toNat (UInt32.toNat ∘ vals) k w)
    (hk : k ≤ 300)
    (hconfirm : dipsBefore base.toNat (UInt32.toNat ∘ vals) k < 3) :
    (∃ w', EndsAt base.toNat (UInt32.toNat ∘ vals) seen k ∧ w.poll base (vals k) (seen k) =
      .ends (statusAt base.toNat (UInt32.toNat ∘ vals) seen k) w') ∨
    ∃ w', ¬ EndsAt base.toNat (UInt32.toNat ∘ vals) seen k ∧
      w.poll base (vals k) (seen k) = .again w' ∧
      AtRound base.toNat (UInt32.toNat ∘ vals) (k + 1) w' := by
  unfold PresenceLoop.poll
  simp only [dips_iff]
  by_cases hdips : Dips base.toNat (vals k).toNat
  · rw [if_pos hdips]
    have hnext : dipsBefore base.toNat (UInt32.toNat ∘ vals) (k + 1) =
        dipsBefore base.toNat (UInt32.toNat ∘ vals) k + 1 := if_pos hdips
    have hcount : (w.confirm + 1).toNat =
        dipsBefore base.toNat (UInt32.toNat ∘ vals) (k + 1) := by
      rw [UInt8.toNat_add, h.confirm, hnext]
      change (_ + 1) % 256 = _
      omega
    have h3 : (3 : UInt8).toNat = 3 := rfl
    by_cases hthree : 3 ≤ dipsBefore base.toNat (UInt32.toNat ∘ vals) (k + 1)
    · have htouched : w.confirm + 1 ≥ 3 := by
        rw [ge_iff_le, UInt8.le_iff_toNat_le, hcount]
        omega
      rw [if_pos htouched, statusAt, if_pos hthree]
      exact .inl ⟨_, .inl hthree, rfl⟩
    · have htouched : ¬ w.confirm + 1 ≥ 3 := by
        rw [ge_iff_le, UInt8.le_iff_toNat_le, hcount]
        omega
      rw [if_neg htouched]
      exact finishPoll_cases ⟨h.loops, hcount, h.cancelRequested⟩ hk (by omega)
  · rw [if_neg hdips]
    have hnext : dipsBefore base.toNat (UInt32.toNat ∘ vals) (k + 1) = 0 := if_neg hdips
    exact finishPoll_cases ⟨h.loops, hnext.symm, h.cancelRequested⟩ hk (by omega)

/-- The loop ends in the first round which ends it. -/
theorem run_eq {seen : ℕ → Bool} (n : ℕ) (h : AtRound base.toNat (UInt32.toNat ∘ vals) k w)
    (hends : EndsAt base.toNat (UInt32.toNat ∘ vals) seen (k + n))
    (hfirst : ∀ j < k + n, ¬ EndsAt base.toNat (UInt32.toNat ∘ vals) seen j) :
    ∃ w', ∀ fuel, n < fuel → PresenceLoop.run base vals seen fuel k w =
      some (statusAt base.toNat (UInt32.toNat ∘ vals) seen (k + n), k + n + 1, w') := by
  induction n generalizing k w with
  | zero =>
      rcases poll_cases seen h (round_le hfirst) (dipsBefore_lt hfirst) with
        ⟨w', -, hpoll⟩ | ⟨w', hgo, -, -⟩
      · refine ⟨w', fun fuel hfuel => ?_⟩
        obtain ⟨fuel, rfl⟩ : ∃ m, fuel = m + 1 := ⟨fuel - 1, by omega⟩
        rw [PresenceLoop.run, hpoll]
        rfl
      · exact absurd hends hgo
  | succ n ih =>
      have hbefore : ∀ j < k, ¬ EndsAt base.toNat (UInt32.toNat ∘ vals) seen j :=
        fun j hj => hfirst j (by omega)
      rcases poll_cases seen h (round_le hbefore) (dipsBefore_lt hbefore) with
        ⟨w', hstop, -⟩ | ⟨w', -, hpoll, hw'⟩
      · exact absurd hstop (hfirst k (by omega))
      · have hsum : k + 1 + n = k + (n + 1) := by omega
        rw [← hsum] at hends hfirst ⊢
        obtain ⟨w'', hrun⟩ := ih hw' hends hfirst
        refine ⟨w'', fun fuel hfuel => ?_⟩
        obtain ⟨fuel, rfl⟩ : ∃ m, fuel = m + 1 := ⟨fuel - 1, by omega⟩
        rw [PresenceLoop.run, hpoll]
        exact hrun fuel (by omega)

end

/-- The loop ends, and the first round which ends it decides. -/
theorem run_decided (base : UInt32) (vals : ℕ → UInt32) (seen : ℕ → Bool) :
    ∃ status polls w, (∀ fuel, polls ≤ fuel →
      PresenceLoop.run base vals seen fuel 0 ⟨0, 0, false, [2]⟩ = some (status, polls, w)) ∧
        Decided base.toNat (UInt32.toNat ∘ vals) seen status polls := by
  obtain ⟨k, hends, hfirst⟩ := exists_endsAt base.toNat (UInt32.toNat ∘ vals) seen
  have hstart : AtRound base.toNat (UInt32.toNat ∘ vals) 0 ⟨0, 0, false, [2]⟩ :=
    ⟨rfl, rfl, rfl⟩
  obtain ⟨w, hrun⟩ := run_eq k hstart (by rwa [Nat.zero_add]) (by rwa [Nat.zero_add])
  rw [Nat.zero_add] at hrun
  exact ⟨_, k + 1, w, hrun, decided_of_first hends hfirst⟩

/-! ## What the wait returns -/

theorem foldl_add_toNat (f : ℕ → UInt32) (is : List ℕ) (sum : UInt32) :
    (is.foldl (fun sum i => sum + f i) sum).toNat =
      (sum.toNat + (is.map fun i => (f i).toNat).sum) % 2 ^ 32 := by
  induction is generalizing sum with
  | nil => exact (Nat.mod_eq_of_lt sum.toNat_lt).symm
  | cons i is ih =>
      rw [List.foldl_cons, ih, UInt32.toNat_add, List.map_cons, List.sum_cons]
      omega

/-- The mean of sixteen readings, as long as their sum fits. -/
theorem baseline_toNat (adc : ℕ → UInt32) (start : ℕ) :
    (baseSum adc start / 16).toNat =
      ((List.range 16).map fun i => (adc (start + i)).toNat).sum % 2 ^ 32 / 16 := by
  rw [UInt32.toNat_div, baseSum, foldl_add_toNat, UInt32.toNat_zero, Nat.zero_add]
  rfl

theorem initTouchAdc_cancelRequested (g : TouchGlobals) (adc : ℕ → UInt32) :
    (initTouchAdc g adc).cancelRequested = g.cancelRequested := by
  unfold initTouchAdc
  split_ifs <;> rfl

/-- Within 301 rounds the wait ends with a touch, a cancellation or the timeout, whichever
comes first; what `cancel_requested` was before does not matter. -/
theorem waitForUserPresence_decides (g : TouchGlobals) (adc : ℕ → UInt32) (seen : ℕ → Bool) :
    let base :=
      ((List.range 16).map fun i => (adc (initReads g + i)).toNat).sum % 2 ^ 32 / 16
    let vals := fun k => (adc (initReads g + 24 + k)).toNat
    ∃ r : PresenceResult,
      (∀ fuel, r.polls ≤ fuel → fido2WaitForUserPresence fuel g adc seen = some r) ∧
      Decided base vals seen r.status r.polls ∧
      (base ≤ 64 → r.status ≠ 0x00) ∧
      ((∀ k, k + 2 ≤ 300 → ¬ ThreeDips base vals k) → r.status ≠ 0x00) ∧
      (∀ flag fuel, fido2WaitForUserPresence fuel { g with cancelRequested := flag } adc seen =
        fido2WaitForUserPresence fuel g adc seen) ∧
      ∀ b : UInt32, b.toNat = base → (b - b / 4).toNat = base - base / 4 := by
  intro base vals
  obtain ⟨status, polls, w, hrun, hdecided⟩ := run_decided (baseSum adc (initReads g) / 16)
    (fun k => adc (initReads g + 24 + k)) seen
  rw [baseline_toNat] at hdecided
  let ready := initTouchAdc { g with cancelRequested := false } adc
  have hcancel : ready.cancelRequested = false := initTouchAdc_cancelRequested _ adc
  refine ⟨⟨status, polls, { ready with
      touchBaseline := baseSum adc (initReads g) / 16
      gAdcEntropy := stirEntropy ready.gAdcEntropy adc (initReads g + 16)
      cancelRequested := w.cancelRequested }, w.keepalives⟩,
    fun fuel hfuel => ?_, hdecided, fun hlow => ?_, hdecided.not_touched, fun _ _ => rfl,
    fun b hb => hb ▸ sub_delta_toNat b⟩
  · have hrun := hrun fuel hfuel
    rw [← hcancel] at hrun
    unfold fido2WaitForUserPresence
    exact congrArg (Option.map _) hrun
  · exact hdecided.not_touched fun k _ hthree => absurd hthree.1.1 (Nat.not_lt.2 hlow)

end UnsoloKey
