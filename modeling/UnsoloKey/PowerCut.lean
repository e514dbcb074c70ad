import UnsoloKey.PinLockout
import Mathlib.Tactic

/-!
# Power cuts

Each writer of the PIN page erases it and programs it again in four chunks.  A
power cut after any prefix of these steps leaves the old PIN, the new one, or,
between the erase and the first chunk, none.  On runs with power cuts a PIN
therefore stays set as long as no cut falls into that window.
-/

namespace UnsoloKey

open Trace

/-- The calls which write the PIN page. -/
inductive PinCall where
  | save (pinHash : Bytes 16)
  | decrementRetries
  | resetRetries

namespace PinCall

def ops (call : PinCall) (m : Mem) : List FlashOp :=
  match call with
  | .save pinHash => pinSaveOps pinHash
  | .decrementRetries => pinDecrementRetriesOps m
  | .resetRetries => pinResetRetriesOps m

/-- The state to be stored; without a PIN the last two calls return at once. -/
def written (call : PinCall) (m : Mem) : Option PinState :=
  match call with
  | .save pinHash => some (freshPin pinHash)
  | .decrementRetries => (pinLoad m).map PinState.decremented
  | .resetRetries => (pinLoad m).map PinState.restored

theorem ops_of_none {call : PinCall} {m : Mem} (h : call.written m = none) :
    call.ops m = [] := by
  cases call with
  | save pinHash => simp [written] at h
  | decrementRetries =>
      simp only [written, Option.map_eq_none_iff] at h
      simp [ops, pinDecrementRetriesOps, h]
  | resetRetries =>
      simp only [written, Option.map_eq_none_iff] at h
      simp [ops, pinResetRetriesOps, h]

theorem ops_of_some {call : PinCall} {m : Mem} {p : PinState}
    (h : call.written m = some p) :
    call.ops m = writePageOps pinFlashAddr p.toBytes ∧ p.magic = pinMagic := by
  cases call with
  | save pinHash =>
      simp only [written, Option.some.injEq] at h
      subst h
      exact ⟨rfl, rfl⟩
  | decrementRetries =>
      simp only [written, Option.map_eq_some_iff] at h
      obtain ⟨old, hload, rfl⟩ := h
      exact ⟨by simp [ops, pinDecrementRetriesOps, hload], (pinLoad_magic hload :)⟩
  | resetRetries =>
      simp only [written, Option.map_eq_some_iff] at h
      obtain ⟨old, hload, rfl⟩ := h
      exact ⟨by simp [ops, pinResetRetriesOps, hload], (pinLoad_magic hload :)⟩

end PinCall

/-! ## One interrupted call -/

/-- What the next boot reads when the power fails after `k` steps of the
call. -/
def ReadsAfterCut (m : Mem) (call : PinCall) (k : ℕ) : Prop :=
  let left := m.after ((call.ops m).take k)
  match call.written m with
  | none => pinLoad left = pinLoad m
  | some p =>
      if k ≤ 1 then pinLoad left = pinLoad m
      else if k = 2 then pinLoad left = none
      else if k < 6 then storedPin left = some p.stored
      else pinLoad left = some p

theorem pinLoad_after_steps (m : Mem) {p : PinState} (hmagic : p.magic = pinMagic)
    {k : ℕ} (hk : 5 ≤ k) :
    pinLoad (m.after ((writeSteps pinFlashAddr p.toBytes).take k)) = some p := by
  have hlength := writeSteps_length pinFlashAddr p.toBytes_length
  rw [List.take_of_length_le (by omega), ← after_writePageOps_eq_steps]
  exact pinLoad_of_holds hmagic
    (holds_after_writePageOps m pinFlashAddr p.toBytes_length)

theorem readsAfterCut (m : Mem) (call : PinCall) (k : ℕ) :
    ReadsAfterCut m call k := by
  unfold ReadsAfterCut
  cases hwritten : call.written m with
  | none => simp [PinCall.ops_of_none hwritten]
  | some p =>
      obtain ⟨hops, hmagic⟩ := PinCall.ops_of_some hwritten
      dsimp only
      rw [hops]
      split_ifs with h1 h2 h6
      · interval_cases k <;> rfl
      · rw [h2, after_writePageOps_take]
        exact storedPin_eq_none_iff.1 (storedPin_after_erase m p)
      · obtain ⟨j, rfl⟩ : ∃ j, k = j + 2 + 1 := ⟨k - 3, by omega⟩
        rw [after_writePageOps_take]
        exact storedPin_after_chunks m hmagic j
      · obtain ⟨j, rfl⟩ : ∃ j, k = j + 1 := ⟨k - 1, by omega⟩
        rw [after_writePageOps_take]
        exact pinLoad_after_steps m hmagic (by omega)

/-! ## Runs with power cuts -/

/-- A command, a power cut between commands, or a power cut after the first `k`
flash steps of a command. -/
inductive PowerAction where
  | command (c : Command)
  | cut
  | cutDuring (c : Command) (k : ℕ)

namespace PowerAction

def request : PowerAction → Option Command
  | .command c => some c
  | .cut => none
  | .cutDuring c _ => some c

def step (d : Device) : PowerAction → Option Device
  | .command c => d.step c
  | .cut => some (Device.powerUp d.flash.mem)
  | .cutDuring c k => (d.outcome c).map fun o =>
      Device.powerUp (d.flash.mem.after (o.ops.take k))

def NoReset (_ : Device) (a : PowerAction) : Prop :=
  ∀ c, a.request = some c → ¬ c.ResetTaken

/-- The power does not fail between the erase of the PIN page and the first
chunk. -/
def OutsideWindow (d : Device) (a : PowerAction) : Prop :=
  ∀ c k o, a = .cutDuring c k → d.outcome c = some o →
    (o.ops.take k).getLast? ≠ some (.erasePage pinFlashAddr)

end PowerAction

theorem PinEffect.ops_cases {d : Device} {c : Command} {o : Outcome}
    (h : PinEffect d c o) : o.ops = [] ∨ ∃ call : PinCall, ∃ p,
      o.ops = call.ops d.flash.mem ∧ call.written d.flash.mem = some p := by
  cases h with
  | quiet hops => exact .inl hops
  | agreed hops => exact .inl hops
  | refused _ _ _ hops => exact .inl hops
  | saved pinHash _ hops => exact .inr ⟨.save pinHash, _, hops, rfl⟩
  | changed _ _ _ pinHash _ _ _ hops => exact .inr ⟨.save pinHash, _, hops, rfl⟩
  | wrong p _ hload _ _ hops =>
      exact .inr ⟨.decrementRetries, p.decremented, hops, by
        simp [PinCall.written, hload]⟩
  | issued p hload _ hops =>
      exact .inr ⟨.resetRetries, p.restored, hops, by
        simp [PinCall.written, hload]⟩

theorem outcome_ops {d : Device} {c : Command} {o : Outcome}
    (ho : d.outcome c = some o) (hreset : ¬ c.ResetTaken) :
    SlotOps o.ops ∨ ∃ call : PinCall, ∃ p, o.ops = call.ops d.flash.mem ∧
      call.written d.flash.mem = some p := by
  cases outcome_effect ho with
  | keeps _ h _ => exact .inl h.ops
  | reset htaken => exact absurd htaken hreset
  | clientPin _ _ h _ =>
      rcases h.ops_cases with hnone | hcall
      · exact .inl (hnone ▸ .none)
      · exact .inr hcall

theorem isSet_after_take {m : Mem} {call : PinCall} {p : PinState}
    (hwritten : call.written m = some p) (hset : (storedPin m).isSome) {k : ℕ}
    (hwindow : ((call.ops m).take k).getLast? ≠ some (.erasePage pinFlashAddr)) :
    (storedPin (m.after ((call.ops m).take k))).isSome := by
  have hread := readsAfterCut m call k
  have hk : k ≠ 2 := by
    rintro rfl
    rw [(PinCall.ops_of_some hwritten).1] at hwindow
    exact hwindow rfl
  simp only [ReadsAfterCut, hwritten, if_neg hk] at hread
  split_ifs at hread with h1 h6
  · simpa [storedPin, hread] using hset
  · simp [hread]
  · simp [storedPin, hread]

theorem isSet_after_call {m : Mem} {call : PinCall} {p : PinState}
    (hwritten : call.written m = some p) (hset : (storedPin m).isSome) :
    (storedPin (m.after (call.ops m))).isSome := by
  have hlast : (call.ops m).getLast? = some .lock := by
    rw [(PinCall.ops_of_some hwritten).1, writePageOps, ← List.cons_append,
      List.getLast?_concat]
  have hall := isSet_after_take hwritten hset (k := (call.ops m).length)
  rw [List.take_length, hlast] at hall
  exact hall (by simp)

theorem powerStep_isSet {d d' : Device} {a : PowerAction}
    (hset : d.storedPin.isSome) (hreset : PowerAction.NoReset d a)
    (hwindow : PowerAction.OutsideWindow d a)
    (hstep : PowerAction.step d a = some d') : d'.storedPin.isSome := by
  cases a with
  | command c =>
      rcases step_iff.1 hstep with ⟨o, ho, rfl⟩
      rw [after_storedPin]
      rcases outcome_ops ho (hreset c rfl) with hslot | ⟨call, p, hops, hwritten⟩
      · rw [storedPin_after_below hslot.below]
        exact hset
      · rw [hops]
        exact isSet_after_call hwritten hset
  | cut =>
      simp only [PowerAction.step, Option.some.injEq] at hstep
      subst hstep
      exact hset
  | cutDuring c k =>
      simp only [PowerAction.step, Option.map_eq_some_iff] at hstep
      obtain ⟨o, ho, rfl⟩ := hstep
      have hout := hwindow c k o rfl ho
      change (storedPin (d.flash.mem.after (o.ops.take k))).isSome
      rcases outcome_ops ho (hreset c rfl) with hslot | ⟨call, p, hops, hwritten⟩
      · rw [storedPin_after_below fun op hop =>
          hslot.below op (List.mem_of_mem_take hop)]
        exact hset
      · rw [hops] at hout ⊢
        exact isSet_after_take hwritten hset hout

theorem outsideWindow_of_ne {d : Device} {c : Command} {k : ℕ} (hk : k ≠ 2)
    (hreset : ¬ c.ResetTaken) :
    PowerAction.OutsideWindow d (.cutDuring c k) := by
  rintro _ _ o ⟨rfl, rfl⟩ ho hlast
  have hmem : FlashOp.erasePage pinFlashAddr ∈ o.ops.take k :=
    List.mem_of_getLast? hlast
  rcases outcome_ops ho hreset with hslot | ⟨call, p, hops, hwritten⟩
  · have hbelow := hslot.below _ (List.mem_of_mem_take hmem)
    have hsize : passkeyPageSize = 256 := rfl
    simp only [FlashOp.Below] at hbelow
    omega
  · rw [hops, (PinCall.ops_of_some hwritten).1, writePageOps, writeSteps] at hlast
    rcases k with _ | _ | _ | k
    · simp at hlast
    · simp at hlast
    · exact absurd rfl hk
    · rw [List.cons_append, List.take_succ_cons, List.take_succ_cons,
        ← List.nil_append (List.take _ _), ← List.cons_append,
        ← List.cons_append, List.getLast?_append_of_ne_nil _ (by simp)] at hlast
      have hlater := List.mem_of_mem_take (List.mem_of_getLast? hlast)
      simp [chunkOps] at hlater

/-- What every interrupted write reads back as, and that a PIN stays set on
every run without a reset and without a cut in the window. -/
theorem pinPage_powerCut {d d' : Device} {actions : List PowerAction}
    (hrun : Run PowerAction.step d actions d')
    (hreset : Run.Guarded PowerAction.step PowerAction.NoReset d actions)
    (hwindow : Run.Guarded PowerAction.step PowerAction.OutsideWindow d actions) :
    (∀ m call k, ReadsAfterCut m call k) ∧
      (d.storedPin.isSome → d'.storedPin.isSome) := by
  refine ⟨readsAfterCut, fun hset => ?_⟩
  refine Run.invariant_of_guard (P := fun s => s.storedPin.isSome) ?_ hrun
    (hreset.and hwindow) hset
  intro s a t hs hguard hstep
  exact powerStep_isSet hs hguard.1 hguard.2 hstep

/-- The power fails after the first chunk of the page which a token request
writes. -/
theorem pinPage_powerCut_token : ∃ d',
    Run PowerAction.step (Device.powerUp (pinFlash 8))
      [.command agreeCommand, .cutDuring tokenCommand 3] d' ∧
      d'.storedPin.isSome := by
  have hruns : (exec PowerAction.step (Device.powerUp (pinFlash 8))
      [.command agreeCommand, .cutDuring tokenCommand 3]).isSome := by
    decide +kernel
  obtain ⟨d', hd'⟩ := Option.isSome_iff_exists.1 hruns
  have hagree : ¬ agreeCommand.ResetTaken := by decide
  have htoken : ¬ tokenCommand.ResetTaken := by decide
  have hreset : Run.Guarded PowerAction.step PowerAction.NoReset
      (Device.powerUp (pinFlash 8))
      [.command agreeCommand, .cutDuring tokenCommand 3] := by
    refine .of_forall fun a ha _ => ?_
    rcases List.mem_pair.1 ha with rfl | rfl
    · rintro _ ⟨rfl⟩
      exact hagree
    · rintro _ ⟨rfl⟩
      exact htoken
  have hwindow : Run.Guarded PowerAction.step PowerAction.OutsideWindow
      (Device.powerUp (pinFlash 8))
      [.command agreeCommand, .cutDuring tokenCommand 3] := by
    refine .of_forall fun a ha _ => ?_
    rcases List.mem_pair.1 ha with rfl | rfl
    · rintro _ _ _ ⟨⟩
    · exact outsideWindow_of_ne (by decide) htoken
  have hset : (Device.powerUp (pinFlash 8)).storedPin.isSome := by
    rw [pinFlash_storedPin]
    rfl
  have hrun := Run.exec_iff.1 hd'
  exact ⟨d', hrun, (pinPage_powerCut hrun hreset hwindow).2 hset⟩

theorem pinLoad_erased {m : Mem} {call : PinCall} {p : PinState}
    (hwritten : call.written m = some p) :
    pinLoad (m.after ((call.ops m).take 2)) = none := by
  have hread := readsAfterCut m call 2
  simp only [ReadsAfterCut, hwritten] at hread
  exact hread

theorem pinPage_not_atomic :
    ¬ ∀ (m : Mem) (call : PinCall) (p : PinState) (k : ℕ),
      call.written m = some p →
      pinLoad (m.after ((call.ops m).take k)) = pinLoad m ∨
        pinLoad (m.after ((call.ops m).take k)) = some p := by
  intro hclaim
  obtain ⟨p, hload, -⟩ := Option.map_eq_some_iff.1 (storedPin_pinFlash 8)
  generalize pinFlash 8 = m at hload
  have hwritten : PinCall.decrementRetries.written m = some p.decremented := by
    simp [PinCall.written, hload]
  rcases hclaim m .decrementRetries p.decremented 2 hwritten with h | h
  · rw [pinLoad_erased hwritten, hload] at h
    cases h
  · rw [pinLoad_erased hwritten] at h
    cases h

end UnsoloKey
