import UnsoloKey.NameSecrecy
import UnsoloKey.SlotPowerCut
import UnsoloKey.FlashLock
import Mathlib.Tactic

/-!
# Two devices with the same accounts

The devices have a PIN, no token and the same accounts under different names.  As long as
no correct PIN is entered they stay so, and a host which sends both the same requests
sees a name in an assertion and nowhere else.
-/

namespace UnsoloKey

open Rd Trace Cbor

/-- Devices which differ in user names only; a PIN is set and no token is out. -/
structure Twins (d d' : Device) : Prop where
  names : SameButNames d.flash.mem d'.flash.mem
  unlocked : d'.flash.unlocked = d.flash.unlocked
  irqDisabled : d'.flash.irqDisabled = d.flash.irqDisabled
  pin : d'.pin = d.pin
  ctap : d'.ctap = d.ctap
  pinSet : d.storedPin.isSome
  noToken : d.pin.hasPinToken = false

/-- The responses are the same, or they are assertions which differ in the name. -/
def AnswersAgree (c : Command) (m m' : Mem) (o o' : Outcome) : Prop :=
  o'.resp = o.resp ∨
    (c.req 0 = 0x02 ∨ c.req 0 = 0x08) ∧ DifferInName m m' o.resp o'.resp

attribute [ext] Flash

theorem Flash.run_unlocked {f f' : Flash} (h : f'.unlocked = f.unlocked)
    (ops : List FlashOp) : (f'.run ops).unlocked = (f.run ops).unlocked := by
  induction ops generalizing f f' with
  | nil => exact h
  | cons op ops ih => exact ih (by cases op <;> first | rfl | exact h)

theorem Flash.run_irqDisabled {f f' : Flash} (h : f'.irqDisabled = f.irqDisabled)
    (ops : List FlashOp) : (f'.run ops).irqDisabled = (f.run ops).irqDisabled := by
  induction ops generalizing f f' with
  | nil => exact h
  | cons op ops ih => exact ih (by cases op <;> first | rfl | exact h)

section

variable {d d' : Device} {c : Command} {o o' : Outcome}

/-! ## One command -/

theorem Twins.eq_withFlash (h : Twins d d') : d' = d.withFlash d'.flash := by
  rcases d' with ⟨flash, pin, ctap⟩
  obtain rfl : pin = d.pin := h.pin
  obtain rfl : ctap = d.ctap := h.ctap
  rfl

theorem processCommand_agrees (h : Twins d d') {env : Env} {reqLen : ℕ} {cmd : UInt8} {m : Mem} :
    Together (fun o o' => OutcomesAgree d.flash.mem d'.flash.mem o o' ∧
        (o'.resp = o.resp ∨ cmd = 0x02 ∨ cmd = 0x08))
      (processCommand env d reqLen cmd) (processCommand env d' reqLen cmd) m := by
  have hequal : ∀ {x y : Rd Outcome}, Together Eq x y m →
      Together (fun o o' => OutcomesAgree d.flash.mem d'.flash.mem o o' ∧
        (o'.resp = o.resp ∨ cmd = 0x02 ∨ cmd = 0x08)) x y m := by
    intro x y hxy
    refine hxy.mono fun o o' ho => ?_
    subst ho
    exact ⟨.refl _ _ _, .inl rfl⟩
  have hset : (pinLoad d.flash.mem).isSome := storedPin_isSome_iff.1 h.pinSet
  rw [h.eq_withFlash]
  have hnames := h.names
  have htoken := h.noToken
  unfold processCommand
  refine .ite (fun _ => hequal ?_) fun _ => .ite (fun _ => hequal ?_) fun _ =>
    .ite (fun hcmd => ?_) fun _ => .ite (fun hcmd => ?_) fun _ =>
    .ite (fun _ => hequal ?_) fun _ => .ite (fun _ => hequal ?_) fun _ =>
    .ite (fun _ => hequal ?_) fun _ => .ite (fun _ => hequal ?_) fun _ => hequal (.pure rfl)
  · rw [withFlash_flash, hnames.pinLoad]
    exact .pure rfl
  · exact .of_eq (congrArg (Rd.run · m) (makeCredential_withFlash hnames)) fun _ _ => rfl
  · exact (getAssertion_agrees hnames).mono fun o o' ho => ⟨ho, .inr (.inl hcmd)⟩
  · exact .pure ⟨getNextAssertion_agrees hnames, .inr (.inr hcmd)⟩
  · exact processClientPin_withFlash hnames
  · exact credentialManagement_withFlash hnames hset htoken
  · exact .pure rfl
  · refine .pure ?_
    unfold touchDebug
    rw [withFlash_ctap]
    split <;> rfl

theorem Twins.onChannel (h : Twins d d') (cid : ℕ) :
    Twins (d.onChannel cid) (d'.onChannel cid) where
  names := h.names
  unlocked := h.unlocked
  irqDisabled := h.irqDisabled
  pin := h.pin
  ctap := by rw [Device.onChannel, Device.onChannel, h.ctap]
  pinSet := h.pinSet
  noToken := h.noToken

theorem Twins.outcome (h : Twins d d') (c : Command) :
    Option.Rel (fun o o' => OutcomesAgree d.flash.mem d'.flash.mem o o' ∧
        AnswersAgree c d.flash.mem d'.flash.mem o o') (d.outcome c) (d'.outcome c) := by
  by_cases hlen : c.reqLen = 0
  · unfold Device.outcome fido2ProcessCbor
    rw [if_pos hlen, if_pos hlen, h.eq_withFlash]
    exact .some ⟨.refl _ _ _, .inl rfl⟩
  · rw [outcome_eq hlen, outcome_eq hlen]
    refine (processCommand_agrees (h.onChannel c.cid)).mono fun o o' ho => ⟨ho.1, ?_⟩
    rcases ho.2 with hsame | hcmd
    · exact .inl hsame
    · exact ho.1.resp.imp id fun hname => ⟨hcmd, hname⟩

theorem idsFit_after (hfits : IdsFit d.flash.mem) (ho : d.outcome c = some o) :
    IdsFit (d.flash.mem.after o.ops) := by
  by_cases hreset : c.ResetTaken
  · rw [ops_of_resetTaken hreset ho]
    exact idsFit_after_reset _
  · rcases outcome_ops ho hreset with hslot | ⟨call, p, hops, -⟩
    · exact idsFit_after_slotOps hfits hslot
    · rw [hops]
      exact idsFit_after_pinCall hfits call

/-- The user ids which the device stores keep to their field. -/
theorem idsFit_run {commands : List Command} (hfits : IdsFit d.flash.mem)
    (hrun : Run Device.step d commands d') : IdsFit d'.flash.mem := by
  refine Run.invariant (P := fun e => IdsFit e.flash.mem) (fun e c e' he hstep => ?_) hrun hfits
  rcases step_iff.1 hstep with ⟨o, ho, rfl⟩
  change IdsFit (e.flash.run o.ops).mem
  rw [Flash.run_mem]
  exact idsFit_after he ho

/-- Only the right PIN gets a token. -/
theorem noToken_after (htoken : d.pin.hasPinToken = false) (hentry : NoCorrectEntry d c)
    (ho : d.outcome c = some o) : o.pin.hasPinToken = false := by
  have hkept : o.pin.tokenState = d.pin.tokenState → o.pin.hasPinToken = false :=
    fun hstate => (congrArg Prod.fst hstate).trans htoken
  cases outcome_effect ho with
  | keeps _ h _ => rw [h.pin, htoken]
  | reset _ _ hpin => rw [hpin, htoken]
  | clientPin _ _ h _ =>
      cases h with
      | quiet _ _ hstate => exact hkept hstate
      | agreed _ _ hnone => exact hnone
      | saved _ _ _ _ hstate => exact hkept hstate
      | changed _ _ _ _ _ _ _ _ _ hstate => exact hkept hstate
      | refused _ _ _ _ _ hstate => exact hkept hstate
      | wrong _ _ _ _ _ _ _ hstate => exact hkept hstate
      | issued p hload _ _ hguess =>
          have hright : d.correctEntry o = true := by
            simp [Device.correctEntry, storedPin_some hload, hguess]
          rw [hentry o ho] at hright
          cases hright

theorem Twins.after_reset (h : Twins d d') (ho : OutcomesAgree d.flash.mem d'.flash.mem o o')
    (hops : o.ops = flashFactoryReset) : d'.after o' = d.after o := by
  have hmem := h.names.reset
  have hunlocked := Flash.run_unlocked h.unlocked flashFactoryReset
  have hirq := Flash.run_irqDisabled h.irqDisabled flashFactoryReset
  rw [← Flash.run_mem, ← Flash.run_mem] at hmem
  unfold Device.after
  rw [ho.pin, ho.ctap, ho.ops, hops]
  rw [Flash.ext hmem hunlocked hirq]

theorem Twins.after (h : Twins d d') (hentry : NoCorrectEntry d c) (ho : d.outcome c = some o)
    (hagree : OutcomesAgree d.flash.mem d'.flash.mem o o') :
    d'.after o' = d.after o ∨ Twins (d.after o) (d'.after o') := by
  by_cases hreset : c.ResetTaken
  · exact .inl (h.after_reset hagree (ops_of_resetTaken hreset ho))
  · have hset : (storedPin (d.flash.mem.after o.ops)).isSome := by
      rcases outcome_ops ho hreset with hslot | ⟨call, p, hops, hwritten⟩
      · rw [storedPin_after_below hslot.below]
        exact h.pinSet
      · rw [hops]
        exact isSet_after_call hwritten h.pinSet
    refine .inr ⟨?_, ?_, ?_, hagree.pin, hagree.ctap, ?_, noToken_after h.noToken hentry ho⟩
    · change SameButNames (d.flash.run o.ops).mem (d'.flash.run o'.ops).mem
      rw [Flash.run_mem, Flash.run_mem, hagree.ops]
      exact h.names.after (idsFit_after h.names.idsFit ho)
    · change (d'.flash.run o'.ops).unlocked = (d.flash.run o.ops).unlocked
      rw [hagree.ops]
      exact Flash.run_unlocked h.unlocked o.ops
    · change (d'.flash.run o'.ops).irqDisabled = (d.flash.run o.ops).irqDisabled
      rw [hagree.ops]
      exact Flash.run_irqDisabled h.irqDisabled o.ops
    · rw [after_storedPin]
      exact hset

/-! ## Runs -/

theorem twins_step (h : Twins d d') (hentry : NoCorrectEntry d c) (ho : d.outcome c = some o) :
    ∃ e', d'.step c = some e' ∧ (e' = d.after o ∨ Twins (d.after o) e') := by
  have hboth := h.outcome c
  rw [ho] at hboth
  cases ho' : d'.outcome c with
  | none =>
      rw [ho'] at hboth
      cases hboth
  | some o' =>
      rw [ho'] at hboth
      cases hboth with
      | some hagree => exact ⟨d'.after o', step_iff.2 ⟨o', ho', rfl⟩, h.after hentry ho hagree.1⟩

theorem twins_run {e : Device} {commands : List Command} (h : Twins d d')
    (hrun : Run Device.step d commands e)
    (hguard : Run.Guarded Device.step NoCorrectEntry d commands) :
    ∃ e', Run Device.step d' commands e' ∧ (e' = e ∨ Twins e e') := by
  induction hrun with
  | nil => exact ⟨d', .nil _, .inr h⟩
  | @snoc t u before c hbefore hstep ih =>
      obtain ⟨t', hrun', hstate⟩ := ih hguard.left
      rcases step_iff.1 hstep with ⟨o, ho, rfl⟩
      rcases hstate with rfl | htwins
      · exact ⟨t'.after o, .snoc hrun' hstep, .inl rfl⟩
      · obtain ⟨e', hstep', hafter⟩ :=
          twins_step htwins (hguard before c [] t rfl hbefore) ho
        exact ⟨e', .snoc hrun' hstep', hafter⟩

/-- Two devices which differ in user names answer every request alike, but for the user
of an assertion. -/
theorem names_in_assertions {e : Device} {past : List Command} {c : Command}
    (h : Twins d d') (hrun : Run Device.step d past e)
    (hguard : Run.Guarded Device.step NoCorrectEntry d past) :
    ∃ e', Run Device.step d' past e' ∧
      Option.Rel (AnswersAgree c e.flash.mem e'.flash.mem) (e.outcome c) (e'.outcome c) := by
  obtain ⟨e', hrun', hstate⟩ := twins_run h hrun hguard
  refine ⟨e', hrun', ?_⟩
  rcases hstate with rfl | htwins
  · cases e'.outcome c with
    | none => exact .none
    | some o => exact .some (.inl rfl)
  · have hboth := htwins.outcome c
    generalize e.outcome c = r at hboth ⊢
    generalize e'.outcome c = r' at hboth ⊢
    cases hboth with
    | none => exact .none
    | some hagree => exact .some hagree.2

theorem noCorrectEntry_of_cmd (hcmd : c.req 0 ≠ 0x06) : NoCorrectEntry d c := by
  intro o ho
  have hnone : o.guess = none := by
    cases outcome_effect ho with
    | keeps _ h _ => exact h.guess
    | reset _ _ _ _ hguess => exact hguess
    | clientPin _ hpin _ _ => exact absurd hpin hcmd
  unfold Device.correctEntry
  rw [hnone]
  cases d.storedPin <;> rfl

end

/-! ## One account under two names -/

@[irreducible]
def oneAccount : Mem :=
  Mem.after (oneCredential (sha256 [0x61])) (pinSaveOps hostPinHash)

/-- The same account, with the name `B`. -/
@[irreducible]
def renamedAccount : Mem :=
  oneAccount.write (slotAddr firstSlot + 165) [0x01, 0x42]

theorem oneAccount_idsFit : IdsFit oneAccount := by
  unfold oneAccount
  refine idsFit_after_pinCall (fun i hoccupied => ?_) (.save hostPinHash)
  have hfirst := oneCredential_occupied (isOccupied_iff.1 hoccupied)
  rw [hfirst, oneCredential_slotKey, if_pos rfl]
  decide

theorem renamedAccount_twins :
    Twins (Device.powerUp oneAccount) (Device.powerUp renamedAccount) where
  names :=
    { same := by
        intro a ha
        change renamedAccount a = oneAccount a
        unfold renamedAccount
        refine if_neg fun hin => ha ⟨firstSlot, hin.1, lt_of_lt_of_le hin.2 ?_⟩
        simp
      idsFit := oneAccount_idsFit }
  unlocked := rfl
  irqDisabled := rfl
  pin := rfl
  ctap := rfl
  pinSet := by
    change (storedPin oneAccount).isSome
    unfold oneAccount
    rw [storedPin_pinSave]
    rfl
  noToken := rfl

theorem signInCommand_noCorrectEntry (d : Device) : NoCorrectEntry d signInCommand :=
  noCorrectEntry_of_cmd (by decide)

theorem names_in_assertions_renamed : ∃ e e',
    Run Device.step (Device.powerUp oneAccount) [signInCommand] e ∧
      Run Device.step (Device.powerUp renamedAccount) [signInCommand] e' ∧
      Option.Rel (AnswersAgree nextCommand e.flash.mem e'.flash.mem) (e.outcome nextCommand)
        (e'.outcome nextCommand) := by
  have hruns : ((Device.powerUp oneAccount).step signInCommand).isSome := by decide +kernel
  obtain ⟨e, hstep⟩ := Option.isSome_iff_exists.1 hruns
  obtain ⟨e', hrun', hsame⟩ := names_in_assertions (c := nextCommand) renamedAccount_twins
    (Run.single hstep) (Run.Guarded.single (signInCommand_noCorrectEntry _))
  exact ⟨e, e', Run.single hstep, hrun', hsame⟩

theorem renamedAccount_responses :
    (Device.powerUp renamedAccount).responses [signInCommand] ≠
      (Device.powerUp oneAccount).responses [signInCommand] := by
  decide +kernel

/-- Without any PIN entry an assertion shows the name. -/
theorem names_disclosed :
    ¬ ∀ (d d' : Device) (commands : List Command), Twins d d' →
      Run.Guarded Device.step NoCorrectEntry d commands →
      d'.responses commands = d.responses commands := by
  intro hclaim
  exact renamedAccount_responses (hclaim _ _ [signInCommand] renamedAccount_twins
    (Run.Guarded.single (signInCommand_noCorrectEntry _)))

end UnsoloKey
