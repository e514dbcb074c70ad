import UnsoloKey.Effects
import Mathlib.Tactic

/-!
# The PIN retry counter

A run of commands is followed through the retry counter of the PIN page.  The
token commands look at the counter before they compare a PIN; changePIN does
not.  The results hold for the runs in which no changePIN request reaches the
comparison while the counter is zero.
-/

namespace UnsoloKey

open Trace

def Device.storedPin (d : Device) : Option (Bytes 16 × UInt8) :=
  UnsoloKey.storedPin d.flash.mem

/-- The outcome comes from a comparison with another hash than the stored one. -/
def Device.wrongEntry (d : Device) (o : Outcome) : Bool :=
  match d.storedPin, o.guess with
  | some (pinHash, _), some guess => guess ≠ pinHash
  | _, _ => false

def Device.correctEntry (d : Device) (o : Outcome) : Bool :=
  match d.storedPin, o.guess with
  | some (pinHash, _), some guess => guess = pinHash
  | _, _ => false

/-- How many wrong hashes a run compares with the stored one. -/
def wrongEntries (d : Device) : List Command → ℕ
  | [] => 0
  | c :: rest =>
      match d.outcome c with
      | none => 0
      | some o => (d.wrongEntry o).toNat + wrongEntries (d.after o) rest

/-- The request is not a changePIN which reaches the comparison while the retry
counter is zero. -/
def NotBlockedChange (d : Device) (c : Command) : Prop :=
  ∀ pinHash, d.storedPin = some (pinHash, 0) → changeRequest d c = none

def NoReset (d : Device) (c : Command) : Prop :=
  c.reqLen ≠ 0 → c.req 0 = 0x07 → ∀ o, d.outcome c = some o →
    o.status ≠ some 0x00

def NoCorrectEntry (d : Device) (c : Command) : Prop :=
  ∀ o, d.outcome c = some o → d.correctEntry o = false

/-! ## The step on the stored PIN -/

theorem step_iff {d d' : Device} {c : Command} :
    d.step c = some d' ↔ ∃ o, d.outcome c = some o ∧ d.after o = d' := by
  simp [Device.step]

theorem after_storedPin (d : Device) (o : Outcome) :
    (d.after o).storedPin = UnsoloKey.storedPin (d.flash.mem.after o.ops) := by
  simp only [Device.storedPin, Device.after, Flash.run_mem]

theorem storedPin_keeps {d : Device} {o : Outcome} (h : SlotOps o.ops) :
    (d.after o).storedPin = d.storedPin := by
  rw [after_storedPin, storedPin_after_below h.below]
  rfl

theorem storedPin_quiet {d : Device} {o : Outcome} (h : o.ops = []) :
    (d.after o).storedPin = d.storedPin := by
  rw [after_storedPin, h]
  rfl

theorem storedPin_some {d : Device} {p : PinState}
    (h : pinLoad d.flash.mem = some p) :
    d.storedPin = some (p.pinHash, p.retries) :=
  storedPin_of_pinLoad h

/-- The retries a run can still use up; a PIN which is not set yet starts with
all of them. -/
def Device.retriesLeft (d : Device) : ℕ :=
  match d.storedPin with
  | none => 8
  | some (_, retries) => retries.toNat

def Device.RetriesBounded (d : Device) : Prop :=
  ∀ pinHash retries, d.storedPin = some (pinHash, retries) → retries.toNat ≤ 8

section

variable {d d' : Device} {c : Command} {o : Outcome}

theorem no_reset_effect (hreset : NoReset d c) (ho : d.outcome c = some o) :
    ¬ (c.ResetTaken ∧ o.status = some 0x00) := by
  rintro ⟨⟨hlen, hcmd, _⟩, hstatus⟩
  exact hreset hlen hcmd o ho hstatus

theorem retriesBounded_step (hbound : d.RetriesBounded)
    (hreset : NoReset d c) (hstep : d.step c = some d') : d'.RetriesBounded := by
  rcases step_iff.1 hstep with ⟨o, ho, rfl⟩
  have hsame : (d.after o).storedPin = d.storedPin → (d.after o).RetriesBounded := by
    intro h pinHash retries hpin
    exact hbound pinHash retries (h ▸ hpin)
  have hfull : ∀ pinHash, (d.after o).storedPin = some (pinHash, 8) →
      (d.after o).RetriesBounded := by
    intro pinHash h pinHash' retries hpin
    rw [h, Option.some.injEq, Prod.mk.injEq] at hpin
    rw [← hpin.2]
    decide
  cases outcome_effect ho with
  | keeps _ h _ => exact hsame (storedPin_keeps h.ops)
  | reset htaken hstatus => exact absurd ⟨htaken, hstatus⟩ (no_reset_effect hreset ho)
  | clientPin _ _ h _ =>
      cases h with
      | quiet hops => exact hsame (storedPin_quiet hops)
      | agreed hops => exact hsame (storedPin_quiet hops)
      | saved pinHash _ hops =>
          apply hfull pinHash
          rw [after_storedPin, hops, storedPin_pinSave]
      | changed p s newPinEnc pinHash _ _ _ hops =>
          apply hfull pinHash
          rw [after_storedPin, hops, storedPin_pinSave]
      | refused p _ _ hops => exact hsame (storedPin_quiet hops)
      | wrong p guess hload _ _ hops =>
          intro pinHash retries hpin
          rw [after_storedPin, hops, storedPin_pinDecrementRetries hload,
            Option.some.injEq, PinState.stored, Prod.mk.injEq] at hpin
          have hp := hbound p.pinHash p.retries (storedPin_some hload)
          rw [← hpin.2, decremented_retries]
          omega
      | issued p hload _ hops =>
          apply hfull p.pinHash
          rw [after_storedPin, hops, storedPin_pinResetRetries hload]

theorem blocked_step {pinHash : Bytes 16} (hzero : d.storedPin = some (pinHash, 0))
    (hchange : NotBlockedChange d c) (hreset : NoReset d c)
    (ho : d.outcome c = some o) :
    (d.after o).storedPin = d.storedPin ∧
      (c.pinSubCmd = some 0x04 ∨ c.pinSubCmd = some 0x05 ∨
        c.pinSubCmd = some 0x09 → o.status ≠ some 0x00) := by
  have hnone : changeRequest d c = none := hchange pinHash hzero
  have hretries : ∀ p, pinLoad d.flash.mem = some p → p.retries = 0 := by
    intro p hload
    rw [storedPin_some hload, Option.some.injEq, Prod.mk.injEq] at hzero
    exact hzero.2
  cases outcome_effect ho with
  | keeps hother h _ =>
      refine ⟨storedPin_keeps h.ops, fun hsub => ?_⟩
      have hother : c.pinSubCmd = none := by
        unfold Command.pinSubCmd
        by_cases hlen : c.reqLen = 0
        · simp [hlen]
        · simp [hother hlen]
      simp [hother] at hsub
  | reset htaken hstatus => exact absurd ⟨htaken, hstatus⟩ (no_reset_effect hreset ho)
  | clientPin _ _ h _ =>
      cases h with
      | quiet hops _ _ hstatus =>
          refine ⟨storedPin_quiet hops, fun hsub hzero => ?_⟩
          rw [hstatus hzero] at hsub
          simp at hsub
      | agreed hops _ _ hsub => exact ⟨storedPin_quiet hops, by simp [hsub]⟩
      | saved _ hload =>
          rw [Device.storedPin, storedPin_eq_none_iff.2 hload] at hzero
          cases hzero
      | changed p s newPinEnc _ _ hrequest => simp [hnone] at hrequest
      | refused p _ hrequest => simp [hnone] at hrequest
      | wrong p guess hload _ hrequest =>
          have hreached := hrequest (hretries p hload)
          simp [hnone] at hreached
      | issued p hload hleft => exact absurd (hretries p hload) hleft

theorem entry_step (hchange : NotBlockedChange d c) (hreset : NoReset d c)
    (hcorrect : NoCorrectEntry d c) (ho : d.outcome c = some o) :
    (d.wrongEntry o).toNat + (d.after o).retriesLeft ≤ d.retriesLeft := by
  have hcorrect := hcorrect o ho
  have hsame : (d.after o).storedPin = d.storedPin → o.guess = none →
      (d.wrongEntry o).toNat + (d.after o).retriesLeft ≤ d.retriesLeft := by
    intro h hguess
    simp [Device.retriesLeft, Device.wrongEntry, h, hguess]
  have hentered : ∀ p, pinLoad d.flash.mem = some p →
      o.guess = some p.pinHash → False := by
    intro p hload hguess
    simp [Device.correctEntry, storedPin_some hload, hguess] at hcorrect
  cases outcome_effect ho with
  | keeps _ h _ => exact hsame (storedPin_keeps h.ops) h.guess
  | reset htaken hstatus => exact absurd ⟨htaken, hstatus⟩ (no_reset_effect hreset ho)
  | clientPin _ _ h _ =>
      cases h with
      | quiet hops hguess => exact hsame (storedPin_quiet hops) hguess
      | agreed hops hguess => exact hsame (storedPin_quiet hops) hguess
      | saved pinHash hload hops hguess =>
          have hbefore : d.storedPin = none := storedPin_eq_none_iff.2 hload
          have hafter : (d.after o).storedPin = some (pinHash, 8) := by
            rw [after_storedPin, hops, storedPin_pinSave]
          simp [Device.retriesLeft, Device.wrongEntry, hbefore, hafter]
      | changed p s newPinEnc _ hload _ _ _ hguess =>
          exact (hentered p hload hguess).elim
      | refused p hload _ _ hguess => exact (hentered p hload hguess).elim
      | wrong p guess hload hne hrequest hops hguess =>
          have hbefore := storedPin_some hload
          have hafter : (d.after o).storedPin =
              some (p.pinHash, p.decremented.retries) := by
            rw [after_storedPin, hops, storedPin_pinDecrementRetries hload]
            rfl
          have hpos : p.retries ≠ 0 := by
            intro hzero
            have hreached := hrequest hzero
            rw [hchange p.pinHash (by rw [hbefore, hzero])] at hreached
            simp at hreached
          have hnat : p.retries.toNat ≠ 0 := fun h => hpos (UInt8.toNat.inj h)
          simp only [Device.retriesLeft, Device.wrongEntry, hbefore, hafter,
            hguess, decremented_retries, hne, ne_eq, not_false_eq_true,
            decide_true, Bool.toNat_true]
          omega
      | issued p hload _ _ hguess => exact (hentered p hload hguess).elim

end

/-! ## Runs -/

theorem retriesLeft_le_of_bounded {d : Device} (h : d.RetriesBounded) :
    d.retriesLeft ≤ 8 := by
  unfold Device.retriesLeft
  split
  · exact le_rfl
  · rename_i pinHash retries hpin
    exact h pinHash retries hpin

theorem wrongEntries_le {d d' : Device} {commands : List Command}
    (hrun : Run Device.step d commands d')
    (hchange : Run.Guarded Device.step NotBlockedChange d commands)
    (hreset : Run.Guarded Device.step NoReset d commands)
    (hcorrect : Run.Guarded Device.step NoCorrectEntry d commands) :
    wrongEntries d commands + d'.retriesLeft ≤ d.retriesLeft := by
  induction commands generalizing d with
  | nil =>
      rw [Run.nil_iff.1 hrun]
      simp [wrongEntries]
  | cons c rest ih =>
      rcases Run.cons_iff.1 hrun with ⟨t, hstep, hrest⟩
      rcases step_iff.1 hstep with ⟨o, ho, rfl⟩
      rw [Run.guarded_cons] at hchange hreset hcorrect
      have htail := ih hrest (hchange.2 _ hstep) (hreset.2 _ hstep)
        (hcorrect.2 _ hstep)
      have hhead := entry_step hchange.1 hreset.1 hcorrect.1 ho
      simp only [wrongEntries, ho]
      omega

theorem blocked_run {d d' : Device} {commands : List Command}
    (hrun : Run Device.step d commands d')
    (hchange : Run.Guarded Device.step NotBlockedChange d commands)
    (hreset : Run.Guarded Device.step NoReset d commands) {pinHash : Bytes 16}
    (hzero : d.storedPin = some (pinHash, 0)) :
    d'.storedPin = some (pinHash, 0) := by
  apply Run.invariant_of_guard (P := fun s => s.storedPin = some (pinHash, 0))
    _ hrun (hchange.and hreset) hzero
  intro s c t hs hguard hstep
  rcases step_iff.1 hstep with ⟨o, ho, rfl⟩
  rw [(blocked_step hs hguard.1 hguard.2 ho).1, hs]

/-- The lockout, for the runs without a reset in which no changePIN reaches the
comparison while the counter is zero. -/
theorem pinLockout {mem : Mem} {before after : List Command} {d d' : Device}
    (hmem : (Device.powerUp mem).RetriesBounded)
    (hbefore : Run Device.step (Device.powerUp mem) before d)
    (hafter : Run Device.step d after d')
    (hreset : Run.Guarded Device.step NoReset (Device.powerUp mem)
      (before ++ after))
    (hchange : Run.Guarded Device.step NotBlockedChange (Device.powerUp mem)
      (before ++ after)) :
    (∀ pinHash, d.storedPin = some (pinHash, 0) →
      d'.storedPin = some (pinHash, 0) ∧
      ∀ c o, d'.outcome c = some o → NotBlockedChange d' c →
        (c.pinSubCmd = some 0x04 ∨ c.pinSubCmd = some 0x05 ∨
          c.pinSubCmd = some 0x09) → o.status ≠ some 0x00) ∧
    (Run.Guarded Device.step NoCorrectEntry d after →
      wrongEntries d after ≤ 8) := by
  have hbound : d.RetriesBounded :=
    Run.invariant_of_guard (fun _ _ _ => retriesBounded_step) hbefore
      hreset.left hmem
  have hreset := hreset.right hbefore
  have hchange := hchange.right hbefore
  refine ⟨fun pinHash hzero => ?_, fun hcorrect => ?_⟩
  · have hkept := blocked_run hafter hchange hreset hzero
    refine ⟨hkept, fun c o ho hc hsub => ?_⟩
    have hother : NoReset d' c := by
      intro hlen hcmd
      unfold Command.pinSubCmd at hsub
      simp [hlen, hcmd] at hsub
    exact (blocked_step hkept hc hother ho).2 hsub
  · have hcount := wrongEntries_le hafter hchange hreset hcorrect
    have hleft := retriesLeft_le_of_bounded hbound
    omega

/-! ## A host which knows the PIN

The secret shared with the device and the PIN 1234 are fixed, with protocol 1
and the requests which follow from them. -/

def hostEnv : Env where
  presence := .confirmed
  baseline := 0
  touchValue := 0
  sysTick := 0
  random := fun i => UInt8.ofNat (i + 1)
  makeKey := (Bytes.fill 1 64 [], Bytes.fill 1 32 [])
  sharedSecret := fun _ _ => Bytes.fill 7 32 []
  sign := fun _ _ => Bytes.fill 1 64 []
  strayItem := none

def hostCommand (req : List UInt8) : Command where
  req := fun a => req.getD a 0
  reqLen := req.length
  cid := 1
  env := hostEnv

/-- `write` of `n` bytes, for a parser which does not look at them. -/
def Mem.put (m : Mem) (p n : ℕ) (bs : List UInt8) : Mem := fun a =>
  if p ≤ a ∧ a < p + n then bs.getD (a - p) 0 else m a

theorem put_slice (m : Mem) (p : ℕ) {n : ℕ} {bs : List UInt8} (hlen : bs.length = n) :
    (m.put p n bs).slice p n = bs := by
  subst hlen
  exact Mem.holds_write m p bs

theorem put_slice_before (m : Mem) {p n q k : ℕ} (bs : List UInt8) (h : q + k ≤ p) :
    (m.put p n bs).slice q k = m.slice q k := by
  apply List.ext_getElem (by simp)
  intro i hi _
  rw [Mem.slice_length] at hi
  rw [Mem.getElem_slice, Mem.getElem_slice, Mem.put, if_neg (by omega)]

theorem run_put {α : Type} {x : Rd α} {m : Mem} {p : ℕ} (n : ℕ) (bs : List UInt8)
    (hreads : ∀ a ∈ x.reads m, a < p) : x.run (m.put p n bs) = x.run m := by
  refine (Rd.run_eq_of_agree fun a ha => ?_).symm
  have hbefore := hreads a ha
  rw [Mem.put, if_neg (by omega)]

def hostKey : List UInt8 :=
  [0x03, 0xA5, 0x01, 0x02, 0x03, 0x38, 0x18, 0x20, 0x01, 0x21, 0x58, 0x20] ++
    List.replicate 32 2 ++ [0x22, 0x58, 0x20] ++ List.replicate 32 3

def agreeCommand : Command :=
  hostCommand [0x06, 0xA2, 0x01, 0x01, 0x02, 0x02]

/-- The encrypted hash of 1234. -/
def pinHashEnc : List UInt8 :=
  [0x74, 0x98, 0x72, 0x0A, 0x30, 0xE0, 0x25, 0x1B, 0x52, 0xA5, 0x61, 0x1B, 0x51,
    0x4A, 0x7A, 0xC9]

def tokenCommand : Command :=
  hostCommand ([0x06, 0xA4, 0x01, 0x01, 0x02, 0x05] ++ hostKey ++ [0x06, 0x50] ++
    pinHashEnc)

/-- changePIN from 1234 to a PIN of 63 digits. -/
def changeCommand : Command :=
  hostCommand ([0x06, 0xA6, 0x01, 0x01, 0x02, 0x04] ++ hostKey ++
    [0x04, 0x50, 0x11, 0xC2, 0x3A, 0x29, 0xF6, 0x92, 0x37, 0x93, 0xFB, 0xE9, 0xC7,
      0x86, 0x1C, 0x3B, 0x7C, 0xF7] ++
    [0x05, 0x58, 0x40, 0x45, 0x11, 0xCC, 0x7B, 0xF8, 0x9E, 0x68, 0x84, 0x36, 0x4B,
      0x7C, 0xFA, 0x89, 0x7E, 0xF8, 0x46, 0x69, 0x6B, 0x79, 0xDC, 0x61, 0x60,
      0x35, 0xD7, 0xF1, 0x31, 0xCC, 0x27, 0xA5, 0x26, 0x87, 0x7F, 0x19, 0xF8,
      0x4E, 0xCE, 0xDD, 0x09, 0xB9, 0x00, 0x56, 0x16, 0xCD, 0xB4, 0x6B, 0x5C,
      0xFE, 0x89, 0xCE, 0x9C, 0x3D, 0xB2, 0x43, 0x7C, 0xBE, 0x8A, 0xED, 0x22,
      0xDA, 0x8A, 0xCA, 0x26, 0x17, 0x0B] ++
    [0x06, 0x50] ++ pinHashEnc)

theorem hostRun_guarded {G : Device → Command → Prop} {d : Device}
    (hagree : ∀ t, G t agreeCommand) (htoken : ∀ t, G t tokenCommand) :
    Run.Guarded Device.step G d [agreeCommand, tokenCommand] := by
  refine .of_forall fun c hc t => ?_
  rcases List.mem_pair.1 hc with rfl | rfl
  · exact hagree t
  · exact htoken t

/-- The hash of 1234. -/
def hostPinHash : Bytes 16 :=
  ⟨[0x03, 0xAC, 0x67, 0x42, 0x16, 0xF3, 0xE1, 0x5C, 0x76, 0x1E, 0xE1, 0xA5, 0xE2,
    0x55, 0xF0, 0x67], rfl⟩

/-- A flash with no credentials and that PIN. -/
def pinFlash (retries : UInt8) : Mem :=
  Mem.write (fun _ => 0xFF) pinFlashAddr
    { freshPin hostPinHash with retries := retries }.toBytes

theorem storedPin_pinFlash (retries : UInt8) :
    storedPin (pinFlash retries) = some (hostPinHash, retries) := by
  have hpage := Mem.holds_write (fun _ => 0xFF) pinFlashAddr
    { freshPin hostPinHash with retries := retries }.toBytes
  rw [PinState.toBytes, Mem.holds_append] at hpage
  exact storedPin_of_holds_front rfl hpage.1

theorem pinFlash_storedPin (retries : UInt8) :
    (Device.powerUp (pinFlash retries)).storedPin =
      some (hostPinHash, retries) :=
  storedPin_pinFlash retries

theorem pinFlash_retriesBounded {retries : UInt8} (h : retries.toNat ≤ 8) :
    (Device.powerUp (pinFlash retries)).RetriesBounded := by
  intro pinHash left hpin
  rw [pinFlash_storedPin, Option.some.injEq, Prod.mk.injEq] at hpin
  exact hpin.2 ▸ h

theorem notBlockedChange_of_sub {d : Device} {c : Command}
    (h : c.pinSubCmd ≠ some 0x04) : NotBlockedChange d c := by
  intro pinHash _
  by_contra hsome
  exact h (changeRequest_sub (Option.isSome_iff_ne_none.2 hsome))

theorem noReset_of_cmd {d : Device} {c : Command} (h : c.req 0 ≠ 0x07) :
    NoReset d c :=
  fun _ hcmd => absurd hcmd h

/-- The right PIN is refused at counter zero and changes nothing. -/
theorem pinLockout_token : ∃ d',
    Run Device.step (Device.powerUp (pinFlash 0)) [agreeCommand, tokenCommand] d' ∧
      d'.storedPin = some (hostPinHash, 0) := by
  have hruns : (exec Device.step (Device.powerUp (pinFlash 0))
      [agreeCommand, tokenCommand]).isSome := by decide +kernel
  obtain ⟨d', hd'⟩ := Option.isSome_iff_exists.1 hruns
  have hrun := Run.exec_iff.1 hd'
  have hreset : Run.Guarded Device.step NoReset (Device.powerUp (pinFlash 0))
      [agreeCommand, tokenCommand] :=
    hostRun_guarded (fun _ => noReset_of_cmd (by decide))
      fun _ => noReset_of_cmd (by decide)
  have hchange : Run.Guarded Device.step NotBlockedChange
      (Device.powerUp (pinFlash 0)) [agreeCommand, tokenCommand] :=
    hostRun_guarded (fun _ => notBlockedChange_of_sub (by decide +kernel))
      fun _ => notBlockedChange_of_sub (by decide +kernel)
  have hlocked := (pinLockout (pinFlash_retriesBounded (by decide))
    (.nil _) hrun hreset hchange).1 hostPinHash (pinFlash_storedPin 0)
  exact ⟨d', hrun, hlocked.1⟩

theorem changePin_opens :
    (((Device.powerUp (pinFlash 0)).step agreeCommand).bind
      fun d => (d.outcome changeCommand).bind Outcome.status) = some 0x00 := by
  decide +kernel

/-- With the counter at zero changePIN still compares the PIN and succeeds. -/
theorem changePin_not_lockedOut :
    ¬ ∀ (mem : Mem) (before after : List Command) (d d' : Device),
      (Device.powerUp mem).RetriesBounded →
      Run Device.step (Device.powerUp mem) before d →
      Run Device.step d after d' →
      Run.Guarded Device.step NoReset (Device.powerUp mem) (before ++ after) →
      (∀ pinHash, d.storedPin = some (pinHash, 0) →
        d'.storedPin = some (pinHash, 0) ∧
        ∀ c o, d'.outcome c = some o →
          (c.pinSubCmd = some 0x04 ∨ c.pinSubCmd = some 0x05 ∨
            c.pinSubCmd = some 0x09) → o.status ≠ some 0x00) ∧
      (Run.Guarded Device.step NoCorrectEntry d after →
        wrongEntries d after ≤ 8) := by
  intro hclaim
  obtain ⟨d', hstep, hopens⟩ := Option.bind_eq_some_iff.1 changePin_opens
  obtain ⟨o, ho, hstatus⟩ := Option.bind_eq_some_iff.1 hopens
  have hreset : Run.Guarded Device.step NoReset (Device.powerUp (pinFlash 0))
      ([] ++ [agreeCommand]) := .single (noReset_of_cmd (by decide))
  have hlocked := (hclaim (pinFlash 0) [] [agreeCommand] _ d'
    (pinFlash_retriesBounded (by decide)) (.nil _) (.single hstep) hreset).1
    hostPinHash (pinFlash_storedPin 0)
  exact hlocked.2 changeCommand o ho (Or.inl (by decide +kernel)) hstatus

end UnsoloKey
