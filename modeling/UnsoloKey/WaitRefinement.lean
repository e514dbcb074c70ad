import UnsoloKey.PacketRing
import UnsoloKey.PresenceLoop
import Mathlib.Tactic

/-!
# The touch wait inside the main loop

In the system of the packet ring a wait is spread over many steps, with packets arriving
between them.  Its readings and the looks at `cancel_requested` are numbered here as they
happen; with the same readings and cancellations, the wait returns what the loop of
`fido2_wait_for_user_presence` returns.
-/

namespace UnsoloKey

open Trace

/-- A run from `c` on during which no wait begins: its readings have been those of `vals`,
and `cancel_requested` has been what `seen` says, with the numbers of both so far. -/
inductive WaitRun (vals : ℕ → ℕ) (seen : ℕ → Bool) (c : System) : ℕ → ℕ → System → Prop
  | start : WaitRun vals seen c 0 0 c
  | sample {n m : ℕ} {t u : System} {src : Source} {w : TouchWait}
      (h : WaitRun vals seen c n m t) (hphase : t.phase = .sample src w)
      (hstep : t.step (.run (vals n)) = some u) : WaitRun vals seen c (n + 1) m u
  | check {n m val : ℕ} {t u : System} {src : Source} {w : TouchWait}
      (h : WaitRun vals seen c n m t) (hphase : t.phase = .check src w)
      (hseen : t.hid.cancelRequested = seen m) (hstep : t.step (.run val) = some u) :
      WaitRun vals seen c n (m + 1) u
  | program {n m val : ℕ} {t u : System} (h : WaitRun vals seen c n m t)
      (hsample : ∀ src w, t.phase ≠ .sample src w) (hcheck : ∀ src w, t.phase ≠ .check src w)
      (hstep : t.step (.run val) = some u) : WaitRun vals seen c n m u
  | arrive {n m : ℕ} {t u : System} {a : Action} (h : WaitRun vals seen c n m t)
      (hrun : ∀ val, a ≠ .run val) (hwait : a ≠ .wait) (hstep : t.step a = some u) :
      WaitRun vals seen c n m u

section

variable {vals vals' : ℕ → ℕ} {seen seen' : ℕ → Bool} {c t u : System} {n m : ℕ}

theorem WaitRun.congr (h : WaitRun vals seen c n m t) (hvals : ∀ i < n, vals' i = vals i)
    (hseen : ∀ j < m, seen' j = seen j) : WaitRun vals' seen' c n m t := by
  induction h with
  | start => exact .start
  | @sample n m t u src w h hphase hstep ih =>
      refine .sample (ih (fun i hi => hvals i (by omega)) hseen) hphase ?_
      rw [hvals n (Nat.lt_succ_self n)]
      exact hstep
  | @check n m val t u src w h hphase hflag hstep ih =>
      refine .check (ih hvals fun j hj => hseen j (by omega)) hphase ?_ hstep
      rw [hseen m (Nat.lt_succ_self m)]
      exact hflag
  | program h hsample hcheck hstep ih => exact .program (ih hvals hseen) hsample hcheck hstep
  | arrive h hrun hwait hstep ih => exact .arrive (ih hvals hseen) hrun hwait hstep

/-- Every run without a new wait has its readings and cancellations. -/
theorem exists_waitRun {actions : List Action} (hrun : Run System.step c actions u)
    (hwait : Action.wait ∉ actions) : ∃ vals seen n m, WaitRun vals seen c n m u := by
  induction hrun with
  | nil => exact ⟨fun _ => 0, fun _ => false, 0, 0, .start⟩
  | @snoc t u as a hrun hstep ih =>
      obtain ⟨vals, seen, n, m, h⟩ := ih fun hmem => hwait (List.mem_append_left _ hmem)
      have ha : a ≠ .wait := fun heq => hwait (by simp [heq])
      cases a with
      | enqueue r => exact ⟨vals, seen, n, m, .arrive h (by simp) ha hstep⟩
      | arriveReport r => exact ⟨vals, seen, n, m, .arrive h (by simp) ha hstep⟩
      | wait => exact absurd rfl ha
      | run val =>
          cases hphase : t.phase with
          | sample src w =>
              refine ⟨Function.update vals n val, seen, n + 1, m, .sample (h.congr ?_ ?_) hphase ?_⟩
              · exact fun i hi => Function.update_of_ne hi.ne _ _
              · exact fun _ _ => rfl
              · rw [Function.update_self]
                exact hstep
          | check src w =>
              refine ⟨vals, Function.update seen m t.hid.cancelRequested, n, m + 1,
                .check (h.congr ?_ ?_) hphase ?_ hstep⟩
              · exact fun _ _ => rfl
              · exact fun j hj => Function.update_of_ne hj.ne _ _
              · rw [Function.update_self]
          | main | setReport | restart | handler | calibrate | poll | consume | returned
          | release =>
              exact ⟨vals, seen, n, m, .program h (by simp [hphase]) (by simp [hphase]) hstep⟩

/-! ## The invariant -/

/-- In round `m`, behind its reading. -/
structure InRound (base : ℕ) (vals : ℕ → ℕ) (seen : ℕ → Bool) (n m : ℕ) (w : TouchWait) :
    Prop where
  count : n = m + 1
  wait : w = ⟨base, m, dipsBefore base vals n⟩
  confirm : dipsBefore base vals n < 3
  first : ∀ j < m, ¬ EndsAt base vals seen j

/-- What holds at each place of the wait. -/
def Phase.InWait (base : ℕ) (vals : ℕ → ℕ) (seen : ℕ → Bool) (n m : ℕ) (s : Hid) :
    Phase → Prop
  | .sample _ w => n = m ∧ w = ⟨base, m, dipsBefore base vals m⟩ ∧ s.cancelRequested = false ∧
      ∀ j < m, ¬ EndsAt base vals seen j
  | .poll _ w => InRound base vals seen n m w
  | .consume _ w => InRound base vals seen n m w
  | .check _ w => InRound base vals seen n m w
  | .returned _ status => ∃ k, EndsAt base vals seen k ∧
      (∀ j < k, ¬ EndsAt base vals seen j) ∧ status = statusAt base vals seen k
  | .calibrate _ => False
  | _ => True

variable {base : ℕ} {src : Source} {w : TouchWait}

theorem touched_eq (w : TouchWait) (val : ℕ) : touched w val = decide (Dips w.base val) := rfl

theorem sample_inWait (h : t.phase.InWait base vals seen n m t.hid)
    (hphase : t.phase = .sample src w) (hstep : t.step (.run (vals n)) = some u) :
    u.phase.InWait base vals seen (n + 1) m u.hid := by
  rw [hphase] at h
  obtain ⟨rfl, rfl, -, hfirst⟩ := h
  simp only [System.step, hphase, touched_eq, decide_eq_true_eq] at hstep
  by_cases hdips : Dips base (vals n)
  · have hnext : dipsBefore base vals (n + 1) = dipsBefore base vals n + 1 := if_pos hdips
    rw [if_pos hdips] at hstep
    split_ifs at hstep with hthree
    · cases hstep
      have hthree : 3 ≤ dipsBefore base vals (n + 1) := hnext ▸ hthree
      exact ⟨n, .inl hthree, hfirst, (if_pos hthree).symm⟩
    · cases hstep
      exact ⟨rfl, by rw [hnext], by omega, hfirst⟩
  · have hnext : dipsBefore base vals (n + 1) = 0 := if_neg hdips
    rw [if_neg hdips] at hstep
    cases hstep
    exact ⟨rfl, by rw [hnext], by omega, hfirst⟩

theorem check_inWait {val : ℕ} (h : t.phase.InWait base vals seen n m t.hid)
    (hphase : t.phase = .check src w) (hseen : t.hid.cancelRequested = seen m)
    (hstep : t.step (.run val) = some u) : u.phase.InWait base vals seen n (m + 1) u.hid := by
  rw [hphase] at h
  have hround : InRound base vals seen n m w := h
  obtain ⟨rfl, rfl, hconfirm, hfirst⟩ := hround
  have hstatus : statusAt base vals seen m = if seen m then 0x2D else 0x2F := if_neg (by omega)
  simp only [System.step, hphase, hseen] at hstep
  split_ifs at hstep with hcancel hlast
  · cases hstep
    refine ⟨m, .inr (.inl hcancel), hfirst, ?_⟩
    rw [hstatus, if_pos hcancel]
  · cases hstep
    refine ⟨m, .inr (.inr (by omega)), hfirst, ?_⟩
    rw [hstatus, if_neg hcancel]
  · cases hstep
    refine ⟨rfl, rfl, ?_, fun j hj => ?_⟩
    · rw [hseen]
      exact Bool.eq_false_iff.2 hcancel
    · rcases Nat.lt_succ_iff_lt_or_eq.1 hj with hearlier | rfl
      · exact hfirst j hearlier
      · rintro (hthree | hcancelled | hlate)
        · omega
        · exact hcancel hcancelled
        · omega

/-- `Process_OOB_Commands` and the removal of the block leave the round as it is. -/
theorem program_inWait {val : ℕ} (h : t.phase.InWait base vals seen n m t.hid)
    (hsample : ∀ src w, t.phase ≠ .sample src w) (hcheck : ∀ src w, t.phase ≠ .check src w)
    (hstep : t.step (.run val) = some u) : u.phase.InWait base vals seen n m u.hid := by
  have hdispatch : ∀ src msg s, (dispatchPhase src msg).InWait base vals seen n m s := by
    intro src msg s
    rcases dispatchPhase_cases src msg with hrelease | ⟨cid, cmd, hhandler⟩
    · rw [hrelease]
      trivial
    · rw [hhandler]
      trivial
  cases hphase : t.phase with
  | sample src w => exact absurd hphase (hsample src w)
  | check src w => exact absurd hphase (hcheck src w)
  | calibrate src =>
      rw [hphase] at h
      exact h.elim
  | poll src w =>
      rw [hphase] at h
      simp only [System.step, hphase] at hstep
      split at hstep
      · cases hstep
        exact h
      · cases hstep
        exact h
  | consume src w =>
      rw [hphase] at h
      simp only [System.step, hphase] at hstep
      cases hstep
      exact h
  | main =>
      simp only [System.step, hphase] at hstep
      split_ifs at hstep
      · cases hstep
        trivial
      · cases hstep
        exact hdispatch _ _ _
  | setReport =>
      simp only [System.step, hphase] at hstep
      split_ifs at hstep
      · cases hstep
        exact hdispatch _ _ _
      · cases hstep
        trivial
  | restart | handler | returned =>
      simp only [System.step, hphase] at hstep
      cases hstep
      trivial
  | release src =>
      cases src
      · simp only [System.step, hphase] at hstep
        cases hstep
        trivial
      · simp only [System.step, hphase] at hstep
        cases hstep
        trivial

/-- A packet which arrives does not touch the wait. -/
theorem arrive_inWait {a : Action} (h : t.phase.InWait base vals seen n m t.hid)
    (hrun : ∀ val, a ≠ .run val) (hwait : a ≠ .wait) (hstep : t.step a = some u) :
    u.phase.InWait base vals seen n m u.hid := by
  cases a with
  | run val => exact absurd rfl (hrun val)
  | wait => exact absurd rfl hwait
  | enqueue r =>
      simp only [System.step] at hstep
      split_ifs at hstep
      cases hstep
      exact h
  | arriveReport r =>
      cases hstep
      exact h

/-- A wait from its first reading on. -/
theorem WaitRun.inWait (hstart : c.phase = .sample src ⟨base, 0, 0⟩)
    (hcancel : c.hid.cancelRequested = false) (h : WaitRun vals seen c n m u) :
    u.phase.InWait base vals seen n m u.hid := by
  induction h with
  | start =>
      rw [hstart]
      exact ⟨rfl, rfl, hcancel, fun j hj => absurd hj (Nat.not_lt_zero j)⟩
  | sample h hphase hstep ih => exact sample_inWait ih hphase hstep
  | check h hphase hseen hstep ih => exact check_inWait ih hphase hseen hstep
  | program h hsample hcheck hstep ih => exact program_inWait ih hsample hcheck hstep
  | arrive h hrun hwait hstep ih => exact arrive_inWait ih hrun hwait hstep

theorem WaitRun.decided {src' : Source} {status : UInt8}
    (hstart : c.phase = .sample src ⟨base, 0, 0⟩) (hcancel : c.hid.cancelRequested = false)
    (h : WaitRun vals seen c n m u) (hdone : u.phase = .returned src' status) :
    ∃ polls, Decided base vals seen status polls := by
  have hin := h.inWait hstart hcancel
  rw [hdone] at hin
  obtain ⟨k, hends, hfirst, rfl⟩ := hin
  exact ⟨k + 1, decided_of_first hends hfirst⟩

end

/-- The wait in the main loop returns what the loop returns. -/
theorem waitRun_eq_run {base : UInt32} {vals : ℕ → UInt32} {seen : ℕ → Bool} {c u : System}
    {n m : ℕ} {src src' : Source} {status : UInt8}
    (hstart : c.phase = .sample src ⟨base.toNat, 0, 0⟩)
    (hcancel : c.hid.cancelRequested = false)
    (h : WaitRun (UInt32.toNat ∘ vals) seen c n m u)
    (hdone : u.phase = .returned src' status) :
    ∃ polls w, ∀ fuel, polls ≤ fuel →
      PresenceLoop.run base vals seen fuel 0 ⟨0, 0, false, [2]⟩ = some (status, polls, w) := by
  obtain ⟨polls, hdecided⟩ := h.decided hstart hcancel hdone
  obtain ⟨status', polls', w, hrun, hdecided'⟩ := run_decided base vals seen
  obtain rfl := hdecided.status_unique hdecided'
  exact ⟨polls', w, hrun⟩

end UnsoloKey
