import UnsoloKey.PowerCut
import UnsoloKey.UserVerification
import Mathlib.Tactic

/-!
# The flash controller and the interrupts

`flash_unlock` also disables the interrupts, and only `flash_lock` enables them
again.  The five routines which write one page end with `flash_lock`; the factory
reset does not.  After every command of a run the controller is therefore locked
exactly when no reset has been taken.
-/

namespace UnsoloKey

open Trace

/-- The controller is locked and the interrupts are enabled. -/
structure Flash.Locked (f : Flash) : Prop where
  locked : f.unlocked = false
  irqEnabled : f.irqDisabled = false

theorem Flash.run_append (f : Flash) (ops ops' : List FlashOp) :
    f.run (ops ++ ops') = (f.run ops).run ops' := by
  simp [Flash.run]

theorem locked_of_last (f : Flash) (ops : List FlashOp) :
    (f.run (ops ++ [.lock])).Locked := by
  rw [Flash.run_append]
  exact ⟨rfl, rfl⟩

theorem locked_writePageOps (f : Flash) (addr : ℕ) (page : List UInt8) :
    (f.run (writePageOps addr page)).Locked := by
  rw [writePageOps, ← List.cons_append]
  exact locked_of_last f _

theorem SlotOps.locked {ops : List FlashOp} (h : SlotOps ops) {f : Flash}
    (hf : f.Locked) : (f.run ops).Locked := by
  cases h with
  | none => exact hf
  | write i k _ _ => exact locked_writePageOps f _ _
  | erase i => exact locked_of_last f [.unlock, .erasePage (slotAddr i)]

theorem PinCall.locked (call : PinCall) (m : Mem) {f : Flash} (hf : f.Locked) :
    (f.run (call.ops m)).Locked := by
  cases hwritten : call.written m with
  | none =>
      rw [PinCall.ops_of_none hwritten]
      exact hf
  | some p =>
      rw [(PinCall.ops_of_some hwritten).1]
      exact locked_writePageOps f _ _

theorem unlocked_erasePages (f : Flash) (addrs : List ℕ) :
    (f.run (addrs.map .erasePage)).unlocked = f.unlocked := by
  induction addrs generalizing f with
  | nil => rfl
  | cons addr addrs ih => exact ih (FlashOp.apply (.erasePage addr) f)

theorem unlocked_flashFactoryReset (f : Flash) :
    (f.run flashFactoryReset).unlocked = true := by
  have hsteps : flashFactoryReset = .unlock ::
      ((List.range (passkeyNumSlots + 1)).map fun i =>
        passkeyFlashStart + passkeyPageSize * i).map .erasePage := by
    simp [flashFactoryReset]
  rw [hsteps]
  exact unlocked_erasePages (FlashOp.unlock.apply f) _

/-! ## Runs -/

section

variable {d d' : Device} {c : Command}

theorem locked_step (hd : d.flash.Locked) (hreset : ¬ c.ResetTaken)
    (hstep : d.step c = some d') : d'.flash.Locked := by
  rcases step_iff.1 hstep with ⟨o, ho, rfl⟩
  change (d.flash.run o.ops).Locked
  rcases outcome_ops ho hreset with hslot | ⟨call, p, hops, -⟩
  · exact hslot.locked hd
  · rw [hops]
    exact call.locked _ hd

theorem ops_of_resetTaken {o : Outcome} (hreset : c.ResetTaken) (ho : d.outcome c = some o) :
    o.ops = flashFactoryReset := by
  rw [outcome_eq hreset.1, hreset.2.1] at ho
  have hout : authenticatorReset c.env (d.onChannel c.cid) = o :=
    Option.some.inj ho
  have htouched : ¬ (c.env.presence.status ≠ 0x00) := by
    rw [not_not, presence_status_eq_zero_iff]
    exact hreset.2.2.2
  rw [← hout, authenticatorReset, if_neg (Nat.not_lt.2 hreset.2.2.1)]
  simp only [if_neg htouched]
  rfl

theorem unlocked_step (hreset : c.ResetTaken) (hstep : d.step c = some d') :
    ¬ d'.flash.Locked := by
  rcases step_iff.1 hstep with ⟨o, ho, rfl⟩
  intro hlocked
  have hopen := unlocked_flashFactoryReset d.flash
  have hclosed : (d.flash.run o.ops).unlocked = false := hlocked.locked
  rw [ops_of_resetTaken hreset ho, hopen] at hclosed
  cases hclosed

theorem locked_run {commands : List Command} (hd : d.flash.Locked)
    (hrun : Run Device.step d commands d')
    (hreset : ∀ c ∈ commands, ¬ c.ResetTaken) : d'.flash.Locked := by
  refine Run.invariant_of_guard (P := fun s => s.flash.Locked)
    (G := fun _ c => ¬ c.ResetTaken) ?_ hrun (.of_forall fun c hc _ => hreset c hc) hd
  intro s c t hs hguard hstep
  exact locked_step hs hguard hstep

/-- After every command of the run the controller is locked and the interrupts
are enabled, if and only if the run has no reset which is taken. -/
theorem flash_locked_iff {mem : Mem} {commands : List Command}
    (hrun : Run Device.step (Device.powerUp mem) commands d') :
    (∀ before t, before <+: commands →
      Run Device.step (Device.powerUp mem) before t → t.flash.Locked) ↔
      ∀ c ∈ commands, ¬ c.ResetTaken := by
  constructor
  · intro hlocked c hc htaken
    obtain ⟨before, after, rfl⟩ := List.append_of_mem hc
    obtain ⟨t, hbefore, hrest⟩ := Run.append_iff.1 hrun
    obtain ⟨u, hstep, -⟩ := Run.cons_iff.1 hrest
    exact unlocked_step htaken hstep
      (hlocked (before ++ [c]) u (by simp) (hbefore.snoc hstep))
  · intro hreset before t hfront hbefore
    exact locked_run ⟨rfl, rfl⟩ hbefore fun c hc => hreset c (hfront.subset hc)

end

theorem flash_locked_after_token : ∃ d',
    Run Device.step (Device.powerUp (pinFlash 8)) [agreeCommand, tokenCommand] d' ∧
      d'.flash.Locked := by
  have hruns : (exec Device.step (Device.powerUp (pinFlash 8))
      [agreeCommand, tokenCommand]).isSome := by decide +kernel
  obtain ⟨d', hd'⟩ := Option.isSome_iff_exists.1 hruns
  have hrun := Run.exec_iff.1 hd'
  have hreset : ∀ c ∈ [agreeCommand, tokenCommand], ¬ c.ResetTaken := by
    simp only [List.mem_cons, List.not_mem_nil, or_false, forall_eq_or_imp, forall_eq]
    exact ⟨by decide, by decide⟩
  exact ⟨d', hrun, (flash_locked_iff hrun).2 hreset _ d' (List.prefix_refl _) hrun⟩

/-- A touched reset right after power-up leaves the controller unlocked. -/
theorem reset_not_locked :
    ¬ ∀ (mem : Mem) (commands : List Command) (d' : Device),
      Run Device.step (Device.powerUp mem) commands d' → d'.flash.Locked := by
  intro hclaim
  have hruns : ((Device.powerUp (fun _ => 0xFF)).step resetCommand).isSome := rfl
  obtain ⟨d', hd'⟩ := Option.isSome_iff_exists.1 hruns
  exact unlocked_step (by decide) hd' (hclaim _ _ d' (.single hd'))

end UnsoloKey
