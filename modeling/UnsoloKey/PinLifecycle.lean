import UnsoloKey.HostSession
import Mathlib.Tactic

/-!
# A PIN from one protocol to the other

A PIN set under one protocol is kept as a hash and compared under any protocol later,
after any commands which do not replace it and any loss of power in between.
-/

namespace UnsoloKey

open Rd Trace

/-- The request names protocol `p`, and the host's key in it and the device's key pair
give the x-coordinate `z`. -/
structure KeyAgreement (d : Device) (c : Command) (p : ℕ) (z : Bytes 32) : Prop where
  keyValid : d.pin.ecdhKeyValid = true
  known : p = 1 ∨ p = 2
  protocol : ∃ proto, (getCborMapInt 1 (c.reqLen - 1) 0x01).run c.req = some proto ∧
    proto.getD d.pin.activePinProtocol = p
  secret : ∃ hostPub, (hostPublicKey c.env 1 (c.reqLen - 1)).run c.req = some (.ok hostPub) ∧
    c.env.sharedSecret hostPub d.pin.ecdhPrivateKey = z

/-- The request sets the PIN, or changes it from the one which is stored. -/
inductive SetsPin (d : Device) (c : Command) (pin : List UInt8) : Prop
  | set (p : ℕ) (z : Bytes 32) (iv : Aes.Block) (hsub : c.pinSubCmd = some 0x03)
      (hagreed : KeyAgreement d c p z) (hbefore : d.storedPin = none)
      (hnew : c.HasString 0x05 ((hostSession p z).encrypt iv (pad64 pin)))
      (hauth : c.HasString 0x04 ((hostSession p z).authenticate
        ((hostSession p z).encrypt iv (pad64 pin))))
  | change (p : ℕ) (z : Bytes 32) (iv iv' : Aes.Block) (old : Bytes 16) (retries : UInt8)
      (hsub : c.pinSubCmd = some 0x04) (hagreed : KeyAgreement d c p z)
      (hbefore : d.storedPin = some (old, retries))
      (hnew : c.HasString 0x05 ((hostSession p z).encrypt iv (pad64 pin)))
      (hold : c.HasString 0x06 ((hostSession p z).encrypt iv' old.val))
      (hauth : c.HasString 0x04 ((hostSession p z).authenticate
        ((hostSession p z).encrypt iv (pad64 pin) ++
          (hostSession p z).encrypt iv' old.val)))

/-- A token request with the hash `pinHash`. -/
structure RequestsToken (d : Device) (c : Command) (pinHash : Bytes 16) : Prop where
  sub : c.pinSubCmd = some 0x05 ∨ c.pinSubCmd = some 0x09
  claims : ∃ p z iv, KeyAgreement d c p z ∧
    c.HasString 0x06 ((hostSession p z).encrypt iv pinHash.val)

/-- A changePIN with the old hash `pinHash`, whatever its new PIN. -/
structure RequestsChange (d : Device) (c : Command) (pinHash : Bytes 16) : Prop where
  sub : c.pinSubCmd = some 0x04
  claims : ∃ p z iv newPinEnc, KeyAgreement d c p z ∧
    newPinEnc.length = (if p = 2 then 80 else 64) ∧ c.HasString 0x05 newPinEnc ∧
    c.HasString 0x06 ((hostSession p z).encrypt iv pinHash.val) ∧
    c.HasString 0x04 ((hostSession p z).authenticate
      (newPinEnc ++ (hostSession p z).encrypt iv pinHash.val))

inductive HostEvent where
  | command (c : Command)
  | powerCycle

def Device.event (d : Device) : HostEvent → Option Device
  | .command c => d.step c
  | .powerCycle => some (Device.powerUp d.flash.mem)

/-- Neither a reset nor a change of the PIN. -/
def LeavesPin (d : Device) : HostEvent → Prop
  | .command c => NoReset d c ∧
      (c.pinSubCmd = some 0x04 → ∀ o, d.outcome c = some o → o.status ≠ some 0x00)
  | .powerCycle => True

/-! ## What the device makes of such requests -/

section

variable {d : Device} {c : Command} {p subCmd : ℕ} {z : Bytes 32}

/-- The device in its command, with the keys agreed on. -/
def Device.agreed (d : Device) (c : Command) (p : ℕ) (z : Bytes 32) : Device :=
  { d.onChannel c.cid with pin := { d.pin with activePinProtocol := p }.agree z }

theorem agreed_sharedWith (h : KeyAgreement d c p z) :
    (d.agreed c p z).pin.SharedWith (hostSession p z) :=
  agree_sharedWith rfl h.known z

theorem hostSession_protocol (p : ℕ) (z : Bytes 32) : (hostSession p z).protocol = p := by
  unfold hostSession
  split_ifs <;> rfl

theorem clientPinFront_agreed (h : KeyAgreement d c p z) (hsub : c.pinSubCmd = some subCmd)
    (hkind : subCmd = 0x03 ∨ subCmd = 0x04 ∨ subCmd = 0x05 ∨ subCmd = 0x09) :
    (clientPinFront c.env (d.onChannel c.cid) 1 (c.reqLen - 1)).run c.req =
      some (.ok (subCmd, d.agreed c p z)) := by
  obtain ⟨hlen, hcmd⟩ := pinSubCmd_reached hsub
  obtain ⟨proto, hproto, hp⟩ := h.protocol
  obtain ⟨hostPub, hhostPub, hsecret⟩ := h.secret
  have hfound := pinSubCmd_eq hlen hcmd
  rw [hsub, eq_comm, Option.join_eq_some_iff] at hfound
  have hlong : ¬ c.reqLen - 1 < 1 := by
    intro hshort
    have hzero : c.reqLen - 1 = 0 := by omega
    rw [hzero] at hfound
    cases hfound
  have hknown := h.known
  have hne : subCmd ≠ 0x01 ∧ subCmd ≠ 0x02 := by omega
  unfold clientPinFront
  rw [if_neg hlong]
  simp only [run_bind, hfound, Option.bind_some, hproto]
  have hsupported : ¬ (subCmd ≠ 0x01 ∧ p ≠ 1 ∧ p ≠ 2) := by omega
  have hkey : (d.onChannel c.cid).pin.ecdhKeyValid = true := h.keyValid
  have hactive : proto.getD (d.onChannel c.cid).pin.activePinProtocol = p := hp
  rw [hactive, run_ite, if_neg hsupported, run_ite, if_neg hne.1, run_ite, if_neg hne.2, run_ite,
    if_pos hkind, run_ite, if_neg (by simpa using hkey)]
  simp only [run_bind, hhostPub, Option.bind_some, run_pure]
  have hshared : c.env.sharedSecret hostPub (d.onChannel c.cid).pin.ecdhPrivateKey = z := hsecret
  rw [hshared]
  rfl

theorem outcome_agreed (h : KeyAgreement d c p z) (hsub : c.pinSubCmd = some subCmd)
    (hkind : subCmd = 0x03 ∨ subCmd = 0x04 ∨ subCmd = 0x05 ∨ subCmd = 0x09) :
    d.outcome c = (if subCmd = 0x03 then setPin (d.agreed c p z) 1 (c.reqLen - 1)
      else if subCmd = 0x04 then changePin (d.agreed c p z) 1 (c.reqLen - 1)
      else getPinToken c.env (d.agreed c p z) 1 (c.reqLen - 1) subCmd).run c.req := by
  obtain ⟨hlen, hcmd⟩ := pinSubCmd_reached hsub
  rw [outcome_eq hlen, hcmd]
  change (processClientPin c.env (d.onChannel c.cid) 1 (c.reqLen - 1)).run c.req = _
  unfold processClientPin
  rw [run_bind, clientPinFront_agreed h hsub hkind, Option.bind_some]

end

section

variable {c : Command} {s : PinSession} {h : HostSession} {enc pinHashEnc : List UInt8}

theorem authenticate_length (hshared : s.SharedWith h) (msg : List UInt8) :
    (h.authenticate msg).length = s.expectedAuthLen := by
  have hlen : s.expectedAuthLen ≤ 32 := by
    unfold PinSession.expectedAuthLen
    split_ifs <;> decide
  rw [hshared.authenticate_eq, List.length_take, Bytes.length_val, Nat.min_eq_left hlen]

/-- The length of an encrypted PIN passes the two tests of it. -/
theorem newPinEnc_length (hshared : s.SharedWith h)
    (hlen : enc.length = if h.protocol = 2 then 80 else 64) :
    ¬ (s.activePinProtocol = 1 ∧ enc.length ≠ 64) ∧
      ¬ (s.activePinProtocol = 2 ∧ enc.length ≠ 80) := by
  rw [hshared.protocol, hlen]
  rcases hshared.known with hone | htwo
  · simp [hone]
  · simp [htwo]

theorem setPinChecks_accepts {flash : Mem} (hshared : s.SharedWith h)
    (hunset : pinLoad flash = none) (hlen : enc.length = if h.protocol = 2 then 80 else 64)
    (hnew : c.HasString 0x05 enc) (hauth : c.HasString 0x04 (h.authenticate enc)) :
    (setPinChecks flash s 1 (c.reqLen - 1)).run c.req = some (s.newPinHash enc) := by
  obtain ⟨p, hp, hread⟩ := hnew
  obtain ⟨q, hq, hmac⟩ := hauth
  rw [authenticate_length hshared] at hq hmac
  obtain ⟨hone, htwo⟩ := newPinEnc_length hshared hlen
  unfold setPinChecks
  simp only [run_bind, hq, hp, Option.bind_some, hunset, Option.isSome_none, Bool.false_eq_true,
    if_false, run_ite, if_neg hone, if_neg htwo, ne_eq, not_true_eq_false, run_bytes, hread, hmac,
    hshared.authenticate_eq, run_pure]

theorem hashEnc_length (hshared : s.SharedWith h) (iv : Aes.Block) (pinHash : Bytes 16) :
    (h.encrypt iv pinHash.val).length = s.hashEncLen := by
  have hblock : pinHash.val.length = 16 * 1 := Bytes.length_val pinHash
  rw [HostSession.encrypt_length hblock, PinSession.hashEncLen, hshared.protocol]
  split_ifs <;> rfl

theorem decrypt_hashEnc (hshared : s.SharedWith h) (iv : Aes.Block) (pinHash : Bytes 16) :
    s.decrypt 1 (h.encrypt iv pinHash.val) = pinHash :=
  Subtype.ext (hshared.decrypt_encrypt (Bytes.length_val pinHash))

theorem changePinChecks_accepts (hshared : s.SharedWith h)
    (hlen : enc.length = if h.protocol = 2 then 80 else 64) (hnew : c.HasString 0x05 enc)
    (hhash : c.HasString 0x06 pinHashEnc) (hhashLen : pinHashEnc.length = s.hashEncLen)
    (hauth : c.HasString 0x04 (h.authenticate (enc ++ pinHashEnc))) :
    (changePinChecks s 1 (c.reqLen - 1)).run c.req =
      some (.ok (enc, s.decrypt 1 pinHashEnc)) := by
  obtain ⟨p, hp, hread⟩ := hnew
  obtain ⟨r, hr, hclaim⟩ := hhash
  obtain ⟨q, hq, hmac⟩ := hauth
  rw [authenticate_length hshared] at hq hmac
  obtain ⟨hone, htwo⟩ := newPinEnc_length hshared hlen
  have hone' : ¬ (s.activePinProtocol = 1 ∧ (enc.length ≠ 64 ∨ pinHashEnc.length ≠ 16)) := by
    rw [hhashLen, PinSession.hashEncLen]
    rintro ⟨hproto, hbad⟩
    rw [hproto] at hone hbad
    simp at hone hbad
    exact hbad hone
  have htwo' : ¬ (s.activePinProtocol = 2 ∧ (enc.length ≠ 80 ∨ pinHashEnc.length ≠ 32)) := by
    rw [hhashLen, PinSession.hashEncLen]
    rintro ⟨hproto, hbad⟩
    rw [hproto] at htwo hbad
    simp at htwo hbad
    exact hbad htwo
  unfold changePinChecks
  simp only [run_bind, hq, hp, hr, Option.bind_some, run_ite, ne_eq, not_true_eq_false, if_false,
    if_neg hone', if_neg htwo', run_bytes, hread, hclaim, hmac, hshared.authenticate_eq, run_pure]

theorem tokenGuess_accepts (hhash : c.HasString 0x06 pinHashEnc)
    (hhashLen : pinHashEnc.length = s.hashEncLen) :
    (tokenGuess s 1 (c.reqLen - 1)).run c.req = some (.ok (s.decrypt 1 pinHashEnc)) := by
  obtain ⟨r, hr, hclaim⟩ := hhash
  have hone : ¬ (s.activePinProtocol = 1 ∧ pinHashEnc.length < 16) := by
    rw [hhashLen, PinSession.hashEncLen]
    split_ifs <;> omega
  have htwo : ¬ (s.activePinProtocol = 2 ∧ pinHashEnc.length < 32) := by
    rw [hhashLen, PinSession.hashEncLen]
    split_ifs <;> omega
  have hwanted : (if s.activePinProtocol = 2 then 32 else 16) = pinHashEnc.length := hhashLen.symm
  unfold tokenGuess
  simp only [run_bind, hr, Option.bind_some, if_neg hone, if_neg htwo, run_bytes, hwanted,
    hclaim, run_pure]

end

/-! ## The life of a PIN -/

section

variable {d d' : Device} {c : Command} {pin : List UInt8}

theorem newPinHash_error {s : PinSession} {newPinEnc : List UInt8} {status : UInt8}
    (h : s.newPinHash newPinEnc = .error status) : status = 0x37 := by
  unfold PinSession.newPinHash at h
  dsimp only at h
  split_ifs at h
  exact (Except.error.inj h).symm

theorem encrypt_pad64_length (h : HostSession) (iv : Bytes 16) (hlong : pin.length ≤ 64) :
    (h.encrypt iv (pad64 pin)).length = if h.protocol = 2 then 80 else 64 := by
  rw [HostSession.encrypt_length (n := 4) (pad64_length hlong)]
  split_ifs <;> rfl

theorem agreed_mem (d : Device) (c : Command) (p : ℕ) (z : Bytes 32) :
    (d.agreed c p z).flash = d.flash := rfl

/-- The request is answered with success, and the hash of the PIN is stored. -/
theorem setsPin_stores (hshort : 4 ≤ pin.length) (hlong : pin.length ≤ 64)
    (hlast : pin.getLast? ≠ some 0) (h : SetsPin d c pin) :
    ∃ o, d.outcome c = some o ∧ o.resp = [0x00] ∧
      (d.after o).storedPin = some (pinHashOf pin, 8) := by
  cases h with
  | set p z iv hsub hagreed hbefore hnew hauth =>
      have hshared := agreed_sharedWith hagreed
      have hlen := encrypt_pad64_length (hostSession p z) iv hlong
      have hunset : pinLoad (d.agreed c p z).flash.mem = none :=
        storedPin_eq_none_iff.1 hbefore
      have hchecks := setPinChecks_accepts hshared hunset hlen hnew hauth
      rw [newPinHash_encrypt hshared hshort hlong hlast] at hchecks
      rw [outcome_agreed hagreed hsub (by simp), if_pos rfl, setPin, run_bind, hchecks]
      refine ⟨_, rfl, rfl, ?_⟩
      rw [after_storedPin]
      exact storedPin_pinSave _ _
  | change p z iv iv' old retries hsub hagreed hbefore hnew hold hauth =>
      have hshared := agreed_sharedWith hagreed
      have hlen := encrypt_pad64_length (hostSession p z) iv hlong
      have hchecks := changePinChecks_accepts hshared hlen hnew hold
        (hashEnc_length hshared iv' old) hauth
      rw [decrypt_hashEnc hshared] at hchecks
      obtain ⟨q, hload, hq⟩ := Option.map_eq_some_iff.1 hbefore
      obtain ⟨rfl, -⟩ := Prod.mk.inj hq
      rw [outcome_agreed hagreed hsub (by simp), if_neg (by decide), if_pos rfl, changePin,
        run_bind, hchecks]
      refine ⟨changePinOutcome (d.agreed c p z) _ q.pinHash, rfl, ?_⟩
      unfold changePinOutcome
      rw [agreed_mem, hload]
      dsimp only
      rw [if_neg (not_not.2 rfl), newPinHash_encrypt hshared hshort hlong hlast]
      refine ⟨rfl, ?_⟩
      rw [after_storedPin]
      exact storedPin_pinSave _ _

def HasPin (pin : List UInt8) (d : Device) : Prop :=
  ∃ retries, d.storedPin = some (pinHashOf pin, retries)

theorem hasPin_event {e : HostEvent} (h : HasPin pin d) (hleaves : LeavesPin d e)
    (hstep : d.event e = some d') : HasPin pin d' := by
  obtain ⟨retries, hpin⟩ := h
  cases e with
  | powerCycle =>
      cases hstep
      exact ⟨retries, hpin⟩
  | command c =>
      obtain ⟨o, ho, rfl⟩ := step_iff.1 hstep
      obtain ⟨hreset, hchange⟩ := hleaves
      cases pinPage_transition ho hreset with
      | unchanged _ hstored => exact ⟨retries, hstored.trans hpin⟩
      | wrong s subCmd guess stored before left _ _ _ _ _ hbefore hafter =>
          rw [hpin, Option.some.injEq, Prod.mk.injEq] at hbefore
          exact ⟨left, hbefore.1 ▸ hafter⟩
      | token s subCmd stored before _ _ _ _ _ hbefore hafter =>
          rw [hpin, Option.some.injEq, Prod.mk.injEq] at hbefore
          exact ⟨8, hbefore.1 ▸ hafter⟩
      | set _ _ _ _ _ _ _ _ hbefore =>
          rw [hpin] at hbefore
          cases hbefore
      | changed _ _ _ _ _ _ hsub _ _ _ _ _ _ _ _ hresp =>
          exact absurd (by rw [Outcome.status, hresp]; rfl) (hchange hsub o ho)

/-- A token request succeeds just with the stored hash, while there are retries left. -/
theorem requestsToken_status {pinHash stored : Bytes 16} {retries : UInt8}
    (hpin : d.storedPin = some (stored, retries)) (h : RequestsToken d c pinHash) :
    ∃ o, d.outcome c = some o ∧
      (o.status = some 0x00 ↔ pinHash = stored ∧ retries ≠ 0) := by
  obtain ⟨p, z, iv, hagreed, hclaim⟩ := h.claims
  have hshared := agreed_sharedWith hagreed
  obtain ⟨q, hload, hq⟩ := Option.map_eq_some_iff.1 hpin
  obtain ⟨rfl, rfl⟩ := Prod.mk.inj hq
  obtain ⟨subCmd, hsub, hkind⟩ : ∃ subCmd, c.pinSubCmd = some subCmd ∧
      (subCmd = 0x05 ∨ subCmd = 0x09) := by
    rcases h.sub with hsub | hsub
    · exact ⟨_, hsub, .inl rfl⟩
    · exact ⟨_, hsub, .inr rfl⟩
  have hguess := tokenGuess_accepts (s := (d.agreed c p z).pin) hclaim
    (hashEnc_length hshared iv pinHash)
  rw [decrypt_hashEnc hshared] at hguess
  rw [outcome_agreed hagreed hsub (by omega), if_neg (by omega), if_neg (by omega), getPinToken,
    run_bind, hguess]
  refine ⟨pinTokenOutcome c.env (d.agreed c p z) subCmd pinHash, rfl, ?_⟩
  unfold pinTokenOutcome
  rw [agreed_mem, hload]
  dsimp only
  by_cases hzero : q.retries = 0
  · rw [if_pos hzero]
    simp [hzero]
  · rw [if_neg hzero]
    by_cases hsame : q.pinHash = pinHash
    · rw [if_neg (not_not.2 hsame)]
      exact iff_of_true rfl ⟨hsame.symm, hzero⟩
    · rw [if_pos hsame]
      simp [Ne.symm hsame]

/-- A changePIN passes the comparison just with the stored hash. -/
theorem requestsChange_status {pinHash stored : Bytes 16} {retries : UInt8}
    (hpin : d.storedPin = some (stored, retries)) (h : RequestsChange d c pinHash) :
    ∃ o, d.outcome c = some o ∧
      (o.status = some 0x00 ∨ o.status = some 0x37 ↔ pinHash = stored) ∧
      (o.status = some 0x31 ↔ pinHash ≠ stored) := by
  obtain ⟨p, z, iv, newPinEnc, hagreed, hlen, hnew, hclaim, hauth⟩ := h.claims
  have hshared := agreed_sharedWith hagreed
  obtain ⟨q, hload, hq⟩ := Option.map_eq_some_iff.1 hpin
  obtain ⟨rfl, -⟩ := Prod.mk.inj hq
  rw [← hostSession_protocol p z] at hlen
  have hchecks := changePinChecks_accepts hshared hlen hnew hclaim
    (hashEnc_length hshared iv pinHash) hauth
  rw [decrypt_hashEnc hshared] at hchecks
  rw [outcome_agreed hagreed h.sub (by simp), if_neg (by decide), if_pos rfl, changePin, run_bind,
    hchecks]
  refine ⟨changePinOutcome (d.agreed c p z) newPinEnc pinHash, rfl, ?_⟩
  unfold changePinOutcome
  rw [agreed_mem, hload]
  dsimp only
  by_cases hsame : pinHash = q.pinHash
  · rw [if_neg (not_not.2 hsame)]
    cases hpolicy : (d.agreed c p z).pin.newPinHash newPinEnc with
    | error status =>
        rw [newPinHash_error hpolicy]
        simp [hsame]
    | ok pinHash' => simp [hsame]
  · rw [if_pos hsame]
    simp [hsame]

/-- A PIN which has been set is the one which is asked for later, whichever protocols the
two sides have used. -/
theorem pinLifecycle {o : Outcome} {events : List HostEvent} (hshort : 4 ≤ pin.length)
    (hlong : pin.length ≤ 64) (hlast : pin.getLast? ≠ some 0) (hset : SetsPin d c pin)
    (ho : d.outcome c = some o) (hrun : Run Device.event (d.after o) events d')
    (hleaves : Run.Guarded Device.event LeavesPin (d.after o) events) :
    o.resp = [0x00] ∧ ∃ retries, d'.storedPin = some (pinHashOf pin, retries) ∧
      (∀ c' pinHash, RequestsToken d' c' pinHash → ∃ o', d'.outcome c' = some o' ∧
        (o'.status = some 0x00 ↔ pinHash = pinHashOf pin ∧ retries ≠ 0)) ∧
      ∀ c' pinHash, RequestsChange d' c' pinHash → ∃ o', d'.outcome c' = some o' ∧
        (o'.status = some 0x00 ∨ o'.status = some 0x37 ↔ pinHash = pinHashOf pin) ∧
        (o'.status = some 0x31 ↔ pinHash ≠ pinHashOf pin) := by
  obtain ⟨o', ho', hresp, hstored⟩ := setsPin_stores hshort hlong hlast hset
  rw [ho, Option.some.injEq] at ho'
  subst ho'
  obtain ⟨retries, hpin⟩ := Run.invariant_of_guard (P := HasPin pin)
    (fun _ _ _ => hasPin_event) hrun hleaves ⟨8, hstored⟩
  exact ⟨hresp, retries, hpin, fun c' pinHash => requestsToken_status hpin,
    fun c' pinHash => requestsChange_status hpin⟩

end

/-! ## A PIN which is set under protocol 1 and asked for under protocol 2 -/

/-- What the shared secret of `hostEnv` is. -/
def hostX : Bytes 32 := Bytes.fill 7 32 []

def hostPin : List UInt8 := ascii "1234"

def hostNewPinEnc : List UInt8 := (hostSession 1 hostX).encrypt (Bytes.zero 16) (pad64 hostPin)

def setPinTemplate : Mem := fun a =>
  ([0x06, 0xA5, 0x01, 0x01, 0x02, 0x03] ++ hostKey ++ [0x04, 0x50] ++ List.replicate 16 0 ++
    [0x05, 0x58, 0x40]).getD a 0

/-- setPIN under protocol 1. -/
def setPinCommand : Command where
  req := (setPinTemplate.put 87 16 ((hostSession 1 hostX).authenticate hostNewPinEnc)).put
    106 64 hostNewPinEnc
  reqLen := 170
  cid := 1
  env := hostEnv

def hostPinHashEnc : List UInt8 :=
  (hostSession 2 hostX).encrypt (Bytes.zero 16) (pinHashOf hostPin).val

def tokenTemplate : Mem := fun a =>
  ([0x06, 0xA4, 0x01, 0x02, 0x02, 0x05] ++ hostKey ++ [0x06, 0x58, 0x20]).getD a 0

/-- getPinToken under protocol 2. -/
def tokenUnder2 : Command where
  req := tokenTemplate.put 88 32 hostPinHashEnc
  reqLen := 120
  cid := 1
  env := hostEnv

theorem hostNewPinEnc_length : hostNewPinEnc.length = 64 :=
  HostSession.encrypt_length (n := 4) rfl

theorem hostPinHashEnc_length : hostPinHashEnc.length = 32 :=
  HostSession.encrypt_length (n := 1) (Bytes.length_val _)

theorem hasString_at {c : Command} {key p n : ℕ} {bs : List UInt8} (hlen : bs.length = n)
    (hfound : (getCborMapString 1 (c.reqLen - 1) key).run c.req = some (some (p, n)))
    (hread : c.req.slice p n = bs) : c.HasString key bs := by
  subst hlen
  exact ⟨p, hfound, hread⟩

theorem setsPin_hostPin {d : Device} (hvalid : d.pin.ecdhKeyValid = true)
    (hunset : d.storedPin = none) : SetsPin d setPinCommand hostPin := by
  have hauth : ((hostSession 1 hostX).authenticate hostNewPinEnc).length = 16 := by
    unfold HostSession.authenticate
    rw [List.length_take, Bytes.length_val, hostSession_protocol]
    rfl
  have hagreed : KeyAgreement d setPinCommand 1 hostX :=
    ⟨hvalid, .inl rfl, ⟨some 1, by decide +kernel, rfl⟩, ⟨_, rfl, rfl⟩⟩
  have hnew : setPinCommand.HasString 0x05 hostNewPinEnc :=
    hasString_at hostNewPinEnc_length (by decide +kernel) (put_slice _ 106 hostNewPinEnc_length)
  have hmac : setPinCommand.HasString 0x04
      ((hostSession 1 hostX).authenticate hostNewPinEnc) :=
    hasString_at hauth (by decide +kernel)
      ((put_slice_before _ _ (by decide)).trans (put_slice _ 87 hauth))
  exact .set 1 hostX (Bytes.zero 16) (by decide +kernel) hagreed hunset hnew hmac

theorem requestsToken_hostPin {d : Device} (hvalid : d.pin.ecdhKeyValid = true) :
    RequestsToken d tokenUnder2 (pinHashOf hostPin) := by
  have hagreed : KeyAgreement d tokenUnder2 2 hostX :=
    ⟨hvalid, .inr rfl, ⟨some 2, by decide +kernel, rfl⟩, ⟨_, rfl, rfl⟩⟩
  have hclaim : tokenUnder2.HasString 0x06 hostPinHashEnc :=
    hasString_at hostPinHashEnc_length (by decide +kernel) (put_slice _ 88 hostPinHashEnc_length)
  exact ⟨.inl (by decide +kernel), 2, hostX, Bytes.zero 16, hagreed, hclaim⟩

def agreeUnder2 : Command := hostCommand [0x06, 0xA2, 0x01, 0x02, 0x02, 0x02]

theorem agreeUnder2_step (d : Device) : ∃ d', d.step agreeUnder2 = some d' ∧
    d'.storedPin = d.storedPin ∧ d'.pin.ecdhKeyValid = true :=
  ⟨_, rfl, rfl, rfl⟩

/-- The key loses its power after the PIN has been set. -/
theorem pinLifecycle_hostPin : ∃ (d d' : Device) (o o' : Outcome),
    d.outcome setPinCommand = some o ∧
      Run Device.event (d.after o) [.powerCycle, .command agreeUnder2] d' ∧
      d'.outcome tokenUnder2 = some o' ∧ o'.status = some 0x00 := by
  obtain ⟨d, -, hpin, hvalid⟩ := agreeUnder2_step (Device.powerUp fun _ => 0xFF)
  have hunset : d.storedPin = none := by
    rw [hpin]
    decide +kernel
  have hset := setsPin_hostPin hvalid hunset
  obtain ⟨o, ho, -, hstored⟩ := setsPin_stores (by decide) (by decide) (by decide) hset
  obtain ⟨d', hd', hpin', hvalid'⟩ :=
    agreeUnder2_step (Device.powerUp (d.after o).flash.mem)
  have hrun : Run Device.event (d.after o) [.powerCycle, .command agreeUnder2] d' :=
    Run.cons_iff.2 ⟨_, rfl, .single hd'⟩
  have hleaves : Run.Guarded Device.event LeavesPin (d.after o)
      [.powerCycle, .command agreeUnder2] := by
    refine .of_forall fun e he t => ?_
    rcases List.mem_pair.1 he with rfl | rfl
    · trivial
    · refine ⟨noReset_of_cmd (by decide), fun hsub => absurd hsub ?_⟩
      decide +kernel
  obtain ⟨-, retries, hkept, htoken, -⟩ := pinLifecycle (by decide) (by decide) (by decide)
    hset ho hrun hleaves
  obtain ⟨o', ho', hstatus⟩ := htoken tokenUnder2 (pinHashOf hostPin)
    (requestsToken_hostPin hvalid')
  refine ⟨d, d', o, o', ho, hrun, ho', hstatus.2 ⟨rfl, ?_⟩⟩
  rw [hpin'] at hkept
  obtain rfl : retries = 8 := by
    have hsame := hkept.symm.trans hstored
    rw [Option.some.injEq, Prod.mk.injEq] at hsame
    exact hsame.2
  decide

end UnsoloKey
