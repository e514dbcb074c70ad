import UnsoloKey.Fido2
import Mathlib.Tactic

/-!
# What a command can do

Each command is described once by the changes it can make: to the credential
slots, to the stored PIN and to the PIN session.  The results on whole runs
take apart these descriptions and never the commands.
-/

namespace UnsoloKey

open Rd

variable {m : Mem}

/-! ## The credential slots -/

/-- The flash steps of a command which only touches the credential slots. -/
inductive SlotOps : List FlashOp → Prop
  | none : SlotOps []
  | write (i : Slot) (k : ResidentKey) (hmagic : k.magic = passkeyMagic)
      (hfits : k.userIdLen ≤ 64) :
      SlotOps (writePageOps (slotAddr i) k.toBytes)
  | erase (i : Slot) : SlotOps (eraseSlotOps i)

theorem SlotOps.below {ops : List FlashOp} (h : SlotOps ops) :
    ∀ op ∈ ops, op.Below pinFlashAddr := by
  have hend : passkeyFlashEnd = pinFlashAddr := rfl
  cases h with
  | none => simp
  | write i k hmagic hfits =>
      exact writePageOps_below k.toBytes_length (hend ▸ slotAddr_lt i)
  | erase i =>
      have hi : slotAddr i + passkeyPageSize ≤ pinFlashAddr := hend ▸ slotAddr_lt i
      simp [eraseSlotOps, FlashOp.Below, hi]

theorem passkeySave_slotOps {flash : Mem} {rpIdHash : Bytes 32}
    {rpId userId userName : ℕ} {rpIdLen userIdLen userNameLen : UInt8}
    {credentialId privateKey : Bytes 32} :
    (passkeySave flash rpIdHash rpId rpIdLen userId userIdLen userName
      userNameLen credentialId privateKey).Returns m fun r => SlotOps r.2 := by
  unfold passkeySave
  apply Returns.bind
  intro slot
  cases slot with
  | none => exact Returns.pure .none
  | some i =>
      intro r hr
      simp only [run_bind, run_bytes, run_pure, Option.bind_some,
        Option.some.injEq] at hr
      subst hr
      refine .write i _ rfl ?_
      have hcut : (minByte userIdLen 64).toNat ≤ 64 := by
        unfold minByte
        split_ifs with hlarge
        · exact le_rfl
        · exact Nat.le_of_not_lt fun h => hlarge (UInt8.lt_iff_toNat_lt.2 h)
      rw [UInt8.le_iff_toNat_le]
      simp only [newKey, Mem.slice_length]
      rw [UInt8.toNat_ofNat']
      have hbound : (64 : UInt8).toNat = 64 := rfl
      omega

theorem passkeyDelete_slotOps (flash : Mem) (credentialId : Bytes 32) :
    SlotOps (passkeyDeleteByCredId flash credentialId).2 := by
  unfold passkeyDeleteByCredId
  cases passkeyFindByCredId flash credentialId with
  | none => exact .none
  | some i => exact .erase i

/-! ## Commands other than ClientPIN and Reset -/

/-- A pinUvAuthParam verifies only under the token of the session. -/
def PinSession.Verifies (s : PinSession) (verified : Option (List UInt8)) : Prop :=
  ∀ key, verified = some key →
    s.hasPinToken = true ∧ (key = s.tokenKey ∨ key = s.cmKey)

theorem verifies_none (s : PinSession) : s.Verifies none := by
  intro key hkey
  cases hkey

theorem verifies_tokenKey {s : PinSession} (h : s.hasPinToken = true) :
    s.Verifies (some s.tokenKey) := by
  intro key hkey
  cases hkey
  exact ⟨h, .inl rfl⟩

theorem verifies_cmKey {s : PinSession} (h : s.hasPinToken = true) :
    s.Verifies (some s.cmKey) := by
  intro key hkey
  cases hkey
  exact ⟨h, .inr rfl⟩

/-- The PIN session and the PIN page are left alone. -/
structure Outcome.KeepsPin (o : Outcome) (s : PinSession) : Prop where
  pin : o.pin = s
  ops : SlotOps o.ops
  guess : o.guess = none
  verified : s.Verifies o.verified

theorem replyUnder_keepsPin {d : Device} {verified : Option (List UInt8)}
    {ops : List FlashOp} {resp : List UInt8} (hops : SlotOps ops)
    (hverified : d.pin.Verifies verified) :
    (d.replyUnder verified ops resp).KeepsPin d.pin :=
  ⟨rfl, hops, rfl, hverified⟩

theorem reply_keepsPin {d : Device} {resp : List UInt8} :
    (d.reply resp).KeepsPin d.pin :=
  ⟨rfl, .none, rfl, verifies_none _⟩

theorem pinAuthValid_token {s : PinSession} {cdh : Option (ℕ × ℕ)}
    {pinAuth pinAuthLen : ℕ} :
    (pinAuthValid s cdh pinAuth pinAuthLen).Returns m fun valid =>
      valid = true → s.hasPinToken = true := by
  unfold pinAuthValid
  cases cdh with
  | none => exact Returns.pure (by simp)
  | some p =>
      apply Returns.ite
      · intro _
        exact Returns.pure (by simp)
      · intro hok _ _ _
        exact (not_not.1 hok).1

section

variable {env : Env} {d : Device} {reqLen : ℕ} {cdh : Option (ℕ × ℕ)}
  {verified : Option (List UInt8)}

theorem registerCredential_keepsPin
    (hverified : d.pin.Verifies verified) :
    (registerCredential env d reqLen cdh verified).Returns m
      fun o => o.KeepsPin d.pin := by
  unfold registerCredential
  refine Returns.bind fun rpItem => Returns.bind fun rpId => Returns.bind
    fun rpIdHash => Returns.bind fun exItem => Returns.bind fun hit => ?_
  apply Returns.ite
  · intro _
    exact Returns.pure (replyUnder_keepsPin .none hverified)
  · intro _
    refine Returns.bind fun userItem => Returns.bind fun user =>
      Returns.bind_of passkeySave_slotOps fun saved hsaved => ?_
    apply Returns.ite
    · intro _
      exact Returns.pure (replyUnder_keepsPin hsaved hverified)
    · intro _
      exact Returns.bind fun cdhBytes =>
        Returns.pure (replyUnder_keepsPin hsaved hverified)

theorem waitAndRegister_keepsPin
    (hverified : d.pin.Verifies verified) :
    (waitAndRegister env d reqLen cdh verified).Returns m
      fun o => o.KeepsPin d.pin := by
  have hwaited : (d.waited env).pin.Verifies verified := hverified
  unfold waitAndRegister
  apply Returns.ite
  · intro _
    exact Returns.pure (replyUnder_keepsPin .none hwaited)
  · intro _
    exact registerCredential_keepsPin hwaited

theorem makeCredential_keepsPin :
    (makeCredential env d reqLen).Returns m fun o => o.KeepsPin d.pin := by
  unfold makeCredential
  refine Returns.bind fun cdh => Returns.bind fun pinAuth => ?_
  cases pinAuth with
  | some p =>
      apply Returns.ite
      · intro _
        exact Returns.pure reply_keepsPin
      · intro _
        refine Returns.bind fun _ => Returns.bind_of pinAuthValid_token
          fun valid hvalid => ?_
        apply Returns.ite
        · intro _
          exact Returns.pure reply_keepsPin
        · intro hok
          exact waitAndRegister_keepsPin
            (verifies_tokenKey (hvalid (not_not.1 hok)))
  | none =>
      refine Returns.bind fun options => ?_
      cases options with
      | none => exact waitAndRegister_keepsPin (verifies_none _)
      | some v =>
          refine Returns.bind fun refused => ?_
          cases refused with
          | some status => exact Returns.pure reply_keepsPin
          | none => exact waitAndRegister_keepsPin (verifies_none _)

theorem assertCredential_keepsPin {rpIdHash : Bytes 32} {i : Slot} {total : ℕ}
    {hasPinAuth : Bool}
    (hverified : d.pin.Verifies verified) :
    (assertCredential env d reqLen rpIdHash cdh i total verified
      hasPinAuth).Returns m fun o => o.KeepsPin d.pin := by
  unfold assertCredential
  refine Returns.bind fun options => Returns.bind fun decision => ?_
  cases decision with
  | error status =>
      exact Returns.pure (replyUnder_keepsPin .none hverified)
  | ok upRequired =>
      have hpin : (if upRequired then d.waited env else d).pin = d.pin := by
        split_ifs <;> rfl
      rw [← hpin] at hverified ⊢
      apply Returns.ite
      · intro _
        exact Returns.pure (replyUnder_keepsPin .none hverified)
      · intro _
        exact Returns.bind fun cdhBuf =>
          Returns.pure (replyUnder_keepsPin .none hverified)

theorem assertSelected_keepsPin {rpIdHash : Bytes 32}
    {selected : Option (Slot × ℕ)} :
    (assertSelected env d reqLen rpIdHash cdh selected).Returns m
      fun o => o.KeepsPin d.pin := by
  unfold assertSelected
  cases selected with
  | none => exact Returns.pure reply_keepsPin
  | some found =>
      refine Returns.bind fun pinAuth => ?_
      cases pinAuth with
      | none => exact assertCredential_keepsPin (verifies_none _)
      | some p =>
          refine Returns.bind_of pinAuthValid_token fun valid hvalid => ?_
          apply Returns.ite
          · intro _
            exact Returns.pure reply_keepsPin
          · intro hok
            exact assertCredential_keepsPin
              (verifies_tokenKey (hvalid (not_not.1 hok)))

theorem getAssertion_keepsPin :
    (getAssertion env d reqLen).Returns m fun o => o.KeepsPin d.pin := by
  unfold getAssertion
  exact Returns.bind fun rpId => Returns.bind fun cdh => Returns.bind
    fun allowList => Returns.bind fun rpIdHash => Returns.bind
    fun selection => assertSelected_keepsPin (d := { d with ctap := selection.2 })

theorem getNextAssertion_keepsPin : (getNextAssertion env d).KeepsPin d.pin := by
  unfold getNextAssertion
  split
  · exact reply_keepsPin
  · dsimp only
    split
    · exact ⟨rfl, .none, rfl, verifies_none _⟩
    · split <;> exact ⟨rfl, .none, rfl, verifies_none _⟩

theorem listCredential_keepsPin (subCmd : ℕ) :
    (listCredential d subCmd).KeepsPin d.pin := by
  unfold listCredential
  dsimp only
  split
  · exact reply_keepsPin
  · split_ifs <;> exact reply_keepsPin

theorem enumerateRps_keepsPin (subCmd : ℕ) :
    (enumerateRps d subCmd).KeepsPin d.pin := by
  unfold enumerateRps
  dsimp only
  split_ifs <;> exact ⟨rfl, .none, rfl, verifies_none _⟩

theorem enumerateCredentials_keepsPin {subCmd : ℕ} :
    (enumerateCredentials env d reqLen subCmd).Returns m
      fun o => o.KeepsPin d.pin := by
  unfold enumerateCredentials
  apply Returns.ite
  · intro _
    exact Returns.bind fun param => Returns.pure
      (listCredential_keepsPin (d := { d with ctap := _ }) subCmd)
  · intro _
    exact Returns.pure
      (listCredential_keepsPin (d := { d with ctap := _ }) subCmd)

theorem deleteCredential_keepsPin :
    (deleteCredential env d reqLen).Returns m fun o => o.KeepsPin d.pin := by
  unfold deleteCredential
  refine Returns.bind fun target => ?_
  cases target with
  | none => exact Returns.pure reply_keepsPin
  | some t =>
      apply Returns.ite
      · intro _
        exact Returns.pure reply_keepsPin
      · intro _
        exact Returns.bind fun id => Returns.pure
          (replyUnder_keepsPin (passkeyDelete_slotOps _ _) (verifies_none _))

theorem cmDispatch_keepsPin {subCmd : ℕ} :
    (cmDispatch env d reqLen subCmd).Returns m fun o => o.KeepsPin d.pin := by
  unfold cmDispatch
  refine Returns.bind fun _ => Returns.ite ?_ fun _ => Returns.ite ?_
    fun _ => Returns.ite ?_ fun _ => Returns.ite ?_ ?_
  · intro _
    exact Returns.pure reply_keepsPin
  · intro _
    exact Returns.pure (enumerateRps_keepsPin subCmd)
  · intro _
    exact enumerateCredentials_keepsPin
  · intro _
    exact deleteCredential_keepsPin
  · intro _
    exact Returns.pure reply_keepsPin

theorem cmAuthorized_token {s : PinSession} {subCmd : ℕ} :
    (cmAuthorized env s reqLen subCmd).Returns m fun ok =>
      ok = true → s.hasPinToken = true := by
  unfold cmAuthorized
  refine Returns.bind fun proto => Returns.bind fun msg => Returns.bind
    fun pinAuth => ?_
  cases pinAuth with
  | none => exact Returns.pure (by simp)
  | some p =>
      apply Returns.ite
      · intro _
        exact Returns.pure (by simp)
      · intro hok _ _ _
        exact not_not.1 (not_or.1 hok).1

theorem credentialManagement_keepsPin :
    (credentialManagement env d reqLen).Returns m fun o => o.KeepsPin d.pin := by
  unfold credentialManagement
  refine Returns.bind fun subCmd => ?_
  apply Returns.ite
  · intro _
    refine Returns.bind_of cmAuthorized_token fun ok hok => ?_
    apply Returns.ite
    · intro _
      exact Returns.pure reply_keepsPin
    · intro hauth
      refine Returns.bind_of cmDispatch_keepsPin fun o ho => ?_
      exact Returns.pure ⟨ho.pin, ho.ops, ho.guess,
        verifies_cmKey (hok (not_not.1 hauth))⟩
  · intro _
    exact cmDispatch_keepsPin

end

/-! ## ClientPIN -/

/-- The subcommand of a ClientPIN request, as the device reads it. -/
def Command.pinSubCmd (c : Command) : Option ℕ :=
  if c.reqLen = 0 ∨ c.req 0 ≠ 0x06 then none
  else ((getCborMapInt 1 (c.reqLen - 1) 0x02).run c.req).join

/-- A changePIN request which reaches the comparison of the old PIN: the
session with the agreed keys, the encrypted new PIN and the claimed hash. -/
def changeRequest (d : Device) (c : Command) :
    Option (PinSession × List UInt8 × Bytes 16) :=
  if c.reqLen = 0 ∨ c.req 0 ≠ 0x06 then none
  else
    match (clientPinFront c.env (d.onChannel c.cid) 1 (c.reqLen - 1)).run c.req with
    | some (.ok (0x04, d')) =>
        match (changePinChecks d'.pin 1 (c.reqLen - 1)).run c.req with
        | some (.ok (newPinEnc, currentHash)) =>
            some (d'.pin, newPinEnc, currentHash)
        | _ => none
    | _ => none

/-- The part of the session which holds the token. -/
def PinSession.tokenState (s : PinSession) : Bool × Bytes 32 × ℕ :=
  (s.hasPinToken, s.pinToken, s.pinTokenLen)

/-- What a ClientPIN command has done. -/
inductive PinEffect (d : Device) (c : Command) (o : Outcome) : Prop
  | quiet (hops : o.ops = []) (hguess : o.guess = none)
      (htoken : o.pin.tokenState = d.pin.tokenState)
      (hstatus : o.status = some 0x00 → c.pinSubCmd = some 0x01)
  | agreed (hops : o.ops = []) (hguess : o.guess = none)
      (htoken : o.pin.hasPinToken = false) (hsub : c.pinSubCmd = some 0x02)
  | saved (pinHash : Bytes 16) (hload : pinLoad d.flash.mem = none)
      (hops : o.ops = pinSaveOps pinHash) (hguess : o.guess = none)
      (htoken : o.pin.tokenState = d.pin.tokenState)
      (hsub : c.pinSubCmd = some 0x03)
  | changed (p : PinState) (s : PinSession) (newPinEnc : List UInt8)
      (pinHash : Bytes 16) (hload : pinLoad d.flash.mem = some p)
      (hrequest : changeRequest d c = some (s, newPinEnc, p.pinHash))
      (hnew : s.newPinHash newPinEnc = .ok pinHash)
      (hops : o.ops = pinSaveOps pinHash) (hguess : o.guess = some p.pinHash)
      (htoken : o.pin.tokenState = d.pin.tokenState)
      (hsub : c.pinSubCmd = some 0x04)
  | refused (p : PinState) (hload : pinLoad d.flash.mem = some p)
      (hrequest : (changeRequest d c).isSome) (hops : o.ops = [])
      (hguess : o.guess = some p.pinHash)
      (htoken : o.pin.tokenState = d.pin.tokenState)
      (hstatus : o.status ≠ some 0x00)
  | wrong (p : PinState) (guess : Bytes 16)
      (hload : pinLoad d.flash.mem = some p) (hne : guess ≠ p.pinHash)
      (hrequest : p.retries = 0 → (changeRequest d c).isSome)
      (hops : o.ops = pinDecrementRetriesOps d.flash.mem)
      (hguess : o.guess = some guess)
      (htoken : o.pin.tokenState = d.pin.tokenState)
      (hstatus : o.status ≠ some 0x00)
  | issued (p : PinState) (hload : pinLoad d.flash.mem = some p)
      (hretries : p.retries ≠ 0)
      (hops : o.ops = pinResetRetriesOps d.flash.mem)
      (hguess : o.guess = some p.pinHash)
      (htoken : o.pin.hasPinToken = true) (hlen : 0 < o.pin.pinTokenLen)
      (hsub : c.pinSubCmd = some 0x05 ∨ c.pinSubCmd = some 0x09)
      (hstatus : o.status = some 0x00)

@[simp] theorem agree_tokenState (s : PinSession) (shared : Bytes 32) :
    (s.agree shared).tokenState = s.tokenState := by
  unfold PinSession.agree
  split <;> simp only [PinSession.tokenState]

/-- No check fails with the status of a success. -/
def FailsNonzero {α : Type} (r : Except UInt8 α) : Prop :=
  ∀ status, r = .error status → status ≠ 0x00

theorem failsNonzero_error {α : Type} {status : UInt8} (h : status ≠ 0x00) :
    FailsNonzero (.error status : Except UInt8 α) := by
  intro status' heq
  cases heq
  exact h

theorem failsNonzero_ok {α : Type} (a : α) :
    FailsNonzero (.ok a : Except UInt8 α) := by
  intro status heq
  cases heq

theorem newPinHash_failsNonzero (s : PinSession) (newPinEnc : List UInt8) :
    FailsNonzero (s.newPinHash newPinEnc) := by
  unfold PinSession.newPinHash
  dsimp only
  split
  · exact failsNonzero_error (by decide)
  · exact failsNonzero_ok _

theorem hostPublicKey_failsNonzero {env : Env} {req reqLen : ℕ} :
    (hostPublicKey env req reqLen).Returns m FailsNonzero := by
  unfold hostPublicKey
  refine Returns.bind fun item => ?_
  split
  · exact Returns.pure (failsNonzero_error (by decide))
  · refine Returns.bind fun x => Returns.bind fun y => ?_
    split
    · refine Returns.ite ?_ ?_
      · intro _
        exact Returns.pure (failsNonzero_error (by decide))
      · intro _
        exact Returns.bind fun xs => Returns.bind fun ys =>
          Returns.pure (failsNonzero_ok _)
    · exact Returns.pure (failsNonzero_error (by decide))

theorem setPinChecks_failsNonzero {flash : Mem} {s : PinSession}
    {req reqLen : ℕ} :
    (setPinChecks flash s req reqLen).Returns m FailsNonzero := by
  unfold setPinChecks
  refine Returns.bind fun pinAuth => Returns.bind fun newPinEnc => ?_
  have hfail : ∀ status : UInt8, status ≠ 0x00 → (pure (.error status) :
      Rd (Except UInt8 (Bytes 16))).Returns m FailsNonzero :=
    fun status h => Returns.pure (failsNonzero_error h)
  split
  · exact hfail 0x30 (by decide)
  · refine Returns.ite (fun _ => hfail 0x33 (by decide)) fun _ => ?_
    split
    · exact hfail 0x01 (by decide)
    · refine Returns.ite (fun _ => hfail 0x01 (by decide)) fun _ =>
        Returns.ite (fun _ => hfail 0x01 (by decide)) fun _ =>
        Returns.ite (fun _ => hfail 0x01 (by decide)) fun _ =>
        Returns.bind fun enc => Returns.bind fun auth =>
        Returns.ite (fun _ => hfail 0x33 (by decide)) fun _ => ?_
      exact Returns.pure (newPinHash_failsNonzero s enc)

theorem setPinChecks_unset {flash : Mem} {s : PinSession} {req reqLen : ℕ} :
    (setPinChecks flash s req reqLen).Returns m fun r =>
      ∀ pinHash, r = .ok pinHash → pinLoad flash = none := by
  unfold setPinChecks
  refine Returns.bind fun pinAuth => Returns.bind fun newPinEnc => ?_
  split
  · exact Returns.pure (by simp)
  · apply Returns.ite
    · intro _
      exact Returns.pure (by simp)
    · intro hunset _ _ _ _
      simpa using hunset

theorem changePinChecks_failsNonzero {s : PinSession} {req reqLen : ℕ} :
    (changePinChecks s req reqLen).Returns m FailsNonzero := by
  unfold changePinChecks
  refine Returns.bind fun pinAuth => Returns.bind fun newPinEnc =>
    Returns.bind fun pinHashEnc => ?_
  have hfail : ∀ status : UInt8, status ≠ 0x00 → (pure (.error status) :
      Rd (Except UInt8 (List UInt8 × Bytes 16))).Returns m FailsNonzero :=
    fun status h => Returns.pure (failsNonzero_error h)
  split
  · refine Returns.ite (fun _ => hfail 0x01 (by decide)) fun _ =>
      Returns.ite (fun _ => hfail 0x01 (by decide)) fun _ =>
      Returns.ite (fun _ => hfail 0x01 (by decide)) fun _ =>
      Returns.bind fun newPin => Returns.bind fun pinHash =>
      Returns.bind fun auth =>
      Returns.ite (fun _ => hfail 0x33 (by decide)) fun _ => ?_
    exact Returns.pure (failsNonzero_ok _)
  · exact hfail 0x01 (by decide)

theorem tokenGuess_failsNonzero {s : PinSession} {req reqLen : ℕ} :
    (tokenGuess s req reqLen).Returns m FailsNonzero := by
  unfold tokenGuess
  refine Returns.bind fun pinHashEnc => ?_
  have hfail : (pure (.error 0x93) : Rd (Except UInt8 (Bytes 16))).Returns m
      FailsNonzero :=
    Returns.pure (failsNonzero_error (by decide))
  split
  · exact hfail
  · refine Returns.ite (fun _ => hfail) fun _ =>
      Returns.ite (fun _ => hfail) fun _ => Returns.bind fun enc => ?_
    exact Returns.pure (failsNonzero_ok _)

theorem optionsRefused_nonzero {pinSet : Bool} {options reqLen : ℕ} :
    (optionsRefused pinSet options reqLen).Returns m fun refused =>
      ∀ status, refused = some status → status ≠ 0x00 := by
  unfold optionsRefused
  refine Returns.bind fun uv => Returns.bind fun rk => ?_
  apply Returns.ite
  · intro _
    refine Returns.pure fun status hstatus => ?_
    rw [← Option.some.inj hstatus]
    cases pinSet <;> decide
  · intro _
    apply Returns.ite
    · intro _
      refine Returns.pure fun status hstatus => ?_
      rw [← Option.some.inj hstatus]
      decide
    · intro _
      exact Returns.pure (by simp)

theorem assertionOptions_nonzero {pinSet hasPinAuth : Bool}
    {options : Option MapValue} {reqLen : ℕ} :
    (assertionOptions pinSet hasPinAuth options reqLen).Returns m FailsNonzero := by
  unfold assertionOptions
  cases options with
  | none => exact Returns.pure (failsNonzero_ok _)
  | some v =>
      refine Returns.bind fun uv => ?_
      apply Returns.ite
      · intro _
        refine Returns.pure (failsNonzero_error ?_)
        cases pinSet <;> decide
      · intro _
        exact Returns.bind fun preflight => Returns.pure (failsNonzero_ok _)

/-- What is known of a ClientPIN request whose session keys are agreed. -/
structure FrontPassed (d : Device) (c : Command) (subCmd : ℕ) (d' : Device) :
    Prop where
  run : (clientPinFront c.env (d.onChannel c.cid) 1 (c.reqLen - 1)).run c.req =
    some (.ok (subCmd, d'))
  sub : c.pinSubCmd = some subCmd
  flash : d'.flash = d.flash
  token : d'.pin.tokenState = d.pin.tokenState

section

variable {d d' : Device} {c : Command} {subCmd : ℕ}

theorem pinSubCmd_eq (hlen : c.reqLen ≠ 0) (hcmd : c.req 0 = 0x06) :
    c.pinSubCmd = ((getCborMapInt 1 (c.reqLen - 1) 0x02).run c.req).join := by
  unfold Command.pinSubCmd
  rw [if_neg (by simp [hlen, hcmd])]

theorem pinSubCmd_reached (h : c.pinSubCmd = some subCmd) :
    c.reqLen ≠ 0 ∧ c.req 0 = 0x06 := by
  unfold Command.pinSubCmd at h
  split at h
  · cases h
  · rename_i hreached
    rwa [not_or, not_not] at hreached

theorem getPinRetries_effect (hpin : d'.pin.tokenState = d.pin.tokenState)
    (hsub : c.pinSubCmd = some 0x01) : PinEffect d c (getPinRetries d') := by
  unfold getPinRetries
  split <;> exact .quiet rfl rfl hpin fun _ => hsub

theorem clientPinFront_spec (hlen : c.reqLen ≠ 0) (hcmd : c.req 0 = 0x06) :
    (clientPinFront c.env (d.onChannel c.cid) 1 (c.reqLen - 1)).Returns c.req
      fun r => match r with
        | .error o => PinEffect d c o ∧ o.verified = none
        | .ok (subCmd, d') =>
            c.pinSubCmd = some subCmd ∧
              (subCmd = 0x03 ∨ subCmd = 0x04 ∨ subCmd = 0x05 ∨ subCmd = 0x09) ∧
              d'.flash = d.flash ∧ d'.pin.tokenState = d.pin.tokenState := by
  have hsub := pinSubCmd_eq hlen hcmd
  have herror : ∀ status : UInt8, ∀ s : PinSession, status ≠ 0x00 →
      s.tokenState = d.pin.tokenState →
      PinEffect d c ({ d.onChannel c.cid with pin := s }.reply [status]) := by
    intro status s hstatus htoken
    exact .quiet rfl rfl htoken (by simp [hstatus])
  unfold clientPinFront
  apply Returns.ite
  · intro _
    exact Returns.pure ⟨.quiet rfl rfl rfl (by simp [Outcome.status, Device.reply]), rfl⟩
  · intro _
    refine Returns.bind_run fun subCmd hrun => ?_
    rw [hrun, Option.join_some] at hsub
    cases subCmd with
    | none => exact Returns.pure ⟨herror 0x01 d.pin (by decide) rfl, rfl⟩
    | some subCmd =>
        refine Returns.bind fun proto => ?_
        apply Returns.ite
        · intro _
          exact Returns.pure ⟨herror 0x2B _ (by decide) rfl, rfl⟩
        · intro _
          refine Returns.ite ?_ fun _ => Returns.ite ?_ fun _ =>
            Returns.ite ?_ ?_
          · rintro rfl
            refine Returns.pure ⟨getPinRetries_effect rfl hsub, ?_⟩
            unfold getPinRetries
            split <;> rfl
          · rintro rfl
            exact Returns.pure ⟨.agreed rfl rfl rfl hsub, rfl⟩
          · intro hknown
            apply Returns.ite
            · intro _
              exact Returns.pure ⟨herror 0x01 _ (by decide) rfl, rfl⟩
            · intro _
              refine Returns.bind_of hostPublicKey_failsNonzero
                fun hostPub hnonzero => ?_
              cases hostPub with
              | error status =>
                  exact Returns.pure
                    ⟨herror status _ (hnonzero status rfl) rfl, rfl⟩
              | ok hostPub =>
                  refine Returns.pure ⟨hsub, hknown, rfl, ?_⟩
                  exact agree_tokenState _ _
          · intro _
            exact Returns.pure ⟨herror 0x01 _ (by decide) rfl, rfl⟩

theorem changeRequest_eq (hlen : c.reqLen ≠ 0) (hcmd : c.req 0 = 0x06)
    (hfront : FrontPassed d c 0x04 d') {newPinEnc : List UInt8}
    {currentHash : Bytes 16}
    (hchecks : (changePinChecks d'.pin 1 (c.reqLen - 1)).run c.req =
      some (.ok (newPinEnc, currentHash))) :
    changeRequest d c = some (d'.pin, newPinEnc, currentHash) := by
  unfold changeRequest
  rw [if_neg (by simp [hlen, hcmd]), hfront.run]
  simp only [hchecks]

theorem changeRequest_sub (h : (changeRequest d c).isSome) :
    c.pinSubCmd = some 0x04 := by
  unfold changeRequest at h
  split at h
  · simp at h
  · rename_i hreached
    rw [not_or, not_not] at hreached
    split at h
    · rename_i d' hrun
      exact (clientPinFront_spec hreached.1 hreached.2 _ hrun).1
    · simp at h

theorem error_effect (htoken : d'.pin.tokenState = d.pin.tokenState)
    {status : UInt8} (hstatus : status ≠ 0x00) :
    PinEffect d c (d'.reply [status]) :=
  .quiet rfl rfl htoken (by simp [hstatus])

theorem setPin_effect (hfront : FrontPassed d c 0x03 d') :
    (setPin d' 1 (c.reqLen - 1)).Returns c.req
      fun o => PinEffect d c o ∧ o.verified = none := by
  unfold setPin
  refine Returns.bind_run fun checked hrun => ?_
  cases checked with
  | error status =>
      exact Returns.pure ⟨error_effect hfront.token
        (setPinChecks_failsNonzero _ hrun status rfl), rfl⟩
  | ok pinHash =>
      refine Returns.pure ⟨.saved pinHash ?_ rfl rfl hfront.token hfront.sub, rfl⟩
      rw [← hfront.flash]
      exact setPinChecks_unset _ hrun pinHash rfl

theorem changePinOutcome_effect (hlen : c.reqLen ≠ 0) (hcmd : c.req 0 = 0x06)
    (hfront : FrontPassed d c 0x04 d') {newPinEnc : List UInt8}
    {currentHash : Bytes 16}
    (hchecks : (changePinChecks d'.pin 1 (c.reqLen - 1)).run c.req =
      some (.ok (newPinEnc, currentHash))) :
    PinEffect d c (changePinOutcome d' newPinEnc currentHash) := by
  have hrequest := changeRequest_eq hlen hcmd hfront hchecks
  have hreached : (changeRequest d c).isSome := by simp [hrequest]
  unfold changePinOutcome
  rw [hfront.flash]
  cases hload : pinLoad d.flash.mem with
  | none =>
      refine .quiet ?_ rfl hfront.token (by simp)
      change pinDecrementRetriesOps d.flash.mem = []
      simp [pinDecrementRetriesOps, hload]
  | some p =>
      dsimp only
      split
      · rename_i hne
        exact .wrong p currentHash hload hne (fun _ => hreached) rfl rfl
          hfront.token (by simp)
      · rename_i heq
        rw [not_not] at heq
        cases hnew : d'.pin.newPinHash newPinEnc with
        | error status =>
            have hstatus := newPinHash_failsNonzero _ _ status hnew
            exact .refused p hload hreached rfl (congrArg some heq) hfront.token
              (by simp [hstatus])
        | ok pinHash =>
            exact .changed p d'.pin newPinEnc pinHash hload (heq ▸ hrequest) hnew
              rfl (congrArg some heq) hfront.token hfront.sub

theorem changePinOutcome_verified (d : Device) (newPinEnc : List UInt8)
    (currentHash : Bytes 16) :
    (changePinOutcome d newPinEnc currentHash).verified = none := by
  unfold changePinOutcome
  split
  · rfl
  · split
    · rfl
    · split <;> rfl

theorem pinTokenOutcome_verified (env : Env) (d : Device) (subCmd : ℕ)
    (currentHash : Bytes 16) :
    (pinTokenOutcome env d subCmd currentHash).verified = none := by
  unfold pinTokenOutcome
  split
  · rfl
  · split
    · rfl
    · split <;> rfl

theorem pinTokenOutcome_effect (hfront : FrontPassed d c subCmd d')
    (hsub : subCmd = 0x05 ∨ subCmd = 0x09) (currentHash : Bytes 16) :
    PinEffect d c (pinTokenOutcome c.env d' subCmd currentHash) := by
  unfold pinTokenOutcome
  rw [hfront.flash]
  cases hload : pinLoad d.flash.mem with
  | none => exact error_effect hfront.token (by decide)
  | some p =>
      dsimp only
      split
      · exact error_effect hfront.token (by decide)
      · rename_i hretries
        split
        · rename_i hne
          exact .wrong p currentHash hload (Ne.symm hne)
            (fun h => absurd h hretries) rfl rfl hfront.token (by simp)
        · rename_i heq
          rw [not_not] at heq
          refine .issued p hload hretries rfl (congrArg some heq.symm) rfl ?_ ?_ rfl
          · simp only [Device.replyGuess, PinSession.issueToken]
            split <;> norm_num
          · rw [hfront.sub]
            exact hsub.imp (congrArg some) (congrArg some)

theorem processClientPin_effect (hlen : c.reqLen ≠ 0) (hcmd : c.req 0 = 0x06) :
    (processClientPin c.env (d.onChannel c.cid) 1 (c.reqLen - 1)).Returns c.req
      fun o => PinEffect d c o ∧ o.verified = none := by
  unfold processClientPin
  refine Returns.bind_run fun front hrun => ?_
  have hspec := clientPinFront_spec hlen hcmd front hrun
  cases front with
  | error o => exact Returns.pure hspec
  | ok front =>
      rcases front with ⟨subCmd, d'⟩
      obtain ⟨hsub, hknown, hflash, htoken⟩ := hspec
      have hfront : FrontPassed d c subCmd d' := ⟨hrun, hsub, hflash, htoken⟩
      refine Returns.ite ?_ fun hset => Returns.ite ?_ fun hchange => ?_
      · rintro rfl
        exact setPin_effect hfront
      · rintro rfl
        unfold changePin
        refine Returns.bind_run fun checked hchecks => ?_
        cases checked with
        | error status =>
            exact Returns.pure ⟨error_effect hfront.token
              (changePinChecks_failsNonzero _ hchecks status rfl), rfl⟩
        | ok request =>
            refine Returns.pure
              ⟨changePinOutcome_effect hlen hcmd hfront hchecks, ?_⟩
            exact changePinOutcome_verified d' request.1 request.2
      · have htoken : subCmd = 0x05 ∨ subCmd = 0x09 := by tauto
        unfold getPinToken
        refine Returns.bind_run fun guess hguess => ?_
        cases guess with
        | error status =>
            exact Returns.pure ⟨error_effect hfront.token
              (tokenGuess_failsNonzero _ hguess status rfl), rfl⟩
        | ok currentHash =>
            refine Returns.pure
              ⟨pinTokenOutcome_effect hfront htoken currentHash, ?_⟩
            exact pinTokenOutcome_verified c.env d' subCmd currentHash

end

/-! ## All commands -/

theorem storedPin_factoryReset (m : Mem) :
    storedPin (m.after flashFactoryReset) = none := by
  have hlast : flashFactoryReset = (.unlock :: (List.range 5).map fun i =>
      .erasePage (passkeyFlashStart + passkeyPageSize * i)) ++
        [.erasePage pinFlashAddr] := rfl
  rw [hlast, Mem.after_append]
  apply storedPin_of_erased
  intro i hi
  have hsize : passkeyPageSize = 256 := rfl
  rw [Mem.after_cons, Mem.after_nil]
  exact if_pos (by omega)

/-- A reset request which meets its time window and a touch. -/
def Command.ResetTaken (c : Command) : Prop :=
  c.reqLen ≠ 0 ∧ c.req 0 = 0x07 ∧ c.env.sysTick ≤ resetWindow ∧
    c.env.presence = .confirmed

instance (c : Command) : Decidable c.ResetTaken :=
  inferInstanceAs (Decidable (_ ∧ _ ∧ _ ∧ _))

/-- What any command has done. -/
inductive Effect (d : Device) (c : Command) (o : Outcome) : Prop
  | keeps (hother : c.reqLen ≠ 0 → c.req 0 ≠ 0x06) (h : o.KeepsPin d.pin)
      (hreset : c.reqLen ≠ 0 → c.req 0 = 0x07 → o.status ≠ some 0x00)
  | clientPin (hlen : c.reqLen ≠ 0) (hcmd : c.req 0 = 0x06)
      (h : PinEffect d c o) (hverified : o.verified = none)
  | reset (htaken : c.ResetTaken) (hstatus : o.status = some 0x00)
      (hpin : o.pin = d.pin) (hops : o.ops = flashFactoryReset)
      (hguess : o.guess = none) (hverified : o.verified = none)

theorem presence_status_eq_zero_iff (p : Presence) :
    p.status = 0x00 ↔ p = .confirmed := by
  cases p <;> decide

theorem authenticatorReset_effect {d : Device} {c : Command}
    (hlen : c.reqLen ≠ 0) (hcmd : c.req 0 = 0x07) :
    Effect d c (authenticatorReset c.env (d.onChannel c.cid)) := by
  have hother : c.reqLen ≠ 0 → c.req 0 ≠ 0x06 := by
    intro _
    rw [hcmd]
    decide
  unfold authenticatorReset
  split
  · exact .keeps hother ⟨rfl, .none, rfl, verifies_none _⟩ (by simp)
  · rename_i hwindow
    dsimp only
    split
    · rename_i hpresence
      exact .keeps hother ⟨rfl, .none, rfl, verifies_none _⟩ (by simp [hpresence])
    · rename_i hpresence
      rw [not_not] at hpresence
      exact .reset ⟨hlen, hcmd, Nat.le_of_not_lt hwindow,
        (presence_status_eq_zero_iff _).1 hpresence⟩ rfl rfl rfl rfl rfl

theorem touchDebug_keepsPin {env : Env} {d : Device} :
    (touchDebug env d).KeepsPin d.pin := by
  unfold touchDebug
  split <;> exact ⟨rfl, .none, rfl, verifies_none _⟩

theorem processCommand_effect {d : Device} {c : Command}
    (hlen : c.reqLen ≠ 0) :
    (processCommand c.env (d.onChannel c.cid) c.reqLen (c.req 0)).Returns c.req
      fun o => Effect d c o := by
  have hkeeps : c.req 0 ≠ 0x06 → c.req 0 ≠ 0x07 → ∀ o : Outcome,
      o.KeepsPin d.pin → Effect d c o := by
    intro hpin hreset o ho
    exact .keeps (fun _ => hpin) ho fun _ hcmd => absurd hcmd hreset
  unfold processCommand
  refine Returns.ite ?_ fun _ => Returns.ite ?_ fun _ => Returns.ite ?_ fun _ =>
    Returns.ite ?_ fun _ => Returns.ite ?_ fun hpin => Returns.ite ?_ fun _ =>
    Returns.ite ?_ fun hreset => Returns.ite ?_ ?_
  · intro hcmd
    rw [hcmd] at hkeeps
    exact Returns.pure (hkeeps (by decide) (by decide) _
      (reply_keepsPin (d := d.onChannel c.cid)))
  · intro hcmd o ho
    rw [hcmd] at hkeeps
    exact hkeeps (by decide) (by decide) o
      (makeCredential_keepsPin (d := d.onChannel c.cid) o ho)
  · intro hcmd o ho
    rw [hcmd] at hkeeps
    exact hkeeps (by decide) (by decide) o
      (getAssertion_keepsPin (d := d.onChannel c.cid) o ho)
  · intro hcmd
    rw [hcmd] at hkeeps
    exact Returns.pure
      (hkeeps (by decide) (by decide) _
        (getNextAssertion_keepsPin (d := d.onChannel c.cid)))
  · intro hcmd o ho
    have heffect := processClientPin_effect hlen hcmd o ho
    exact .clientPin hlen hcmd heffect.1 heffect.2
  · intro hcmd o ho
    rw [hcmd] at hkeeps
    exact hkeeps (by decide) (by decide) o
      (credentialManagement_keepsPin (d := d.onChannel c.cid) o ho)
  · intro hcmd
    exact Returns.pure (authenticatorReset_effect hlen hcmd)
  · intro _
    exact Returns.pure (hkeeps hpin hreset _
      (touchDebug_keepsPin (d := d.onChannel c.cid)))
  · intro _
    exact Returns.pure (hkeeps hpin hreset _
      (reply_keepsPin (d := d.onChannel c.cid)))

theorem outcome_eq {d : Device} {c : Command} (hlen : c.reqLen ≠ 0) :
    d.outcome c = (processCommand c.env (d.onChannel c.cid) c.reqLen
      (c.req 0)).run c.req := by
  unfold Device.outcome fido2ProcessCbor
  rw [if_neg hlen, run_bind, run_byte, Option.bind_some]

theorem outcome_effect {d : Device} {c : Command} {o : Outcome}
    (h : d.outcome c = some o) : Effect d c o := by
  by_cases hlen : c.reqLen = 0
  · unfold Device.outcome fido2ProcessCbor at h
    rw [if_pos hlen, run_pure, Option.some.injEq] at h
    rw [← h]
    exact .keeps (fun hne => absurd hlen hne) reply_keepsPin
      fun hne => absurd hlen hne
  · rw [outcome_eq hlen] at h
    exact processCommand_effect hlen o h

end UnsoloKey
