import UnsoloKey.PinLockout
import Mathlib.Tactic

/-!
# How the stored PIN can change

Every change of the PIN page is one of four, and each rests on what the request
carried: a claimed hash of the old PIN, decrypted under the session keys of the
request, or an HMAC under them, or both.  Every other way through every command
leaves the page byte for byte as it was.
-/

namespace UnsoloKey

open Rd

/-! ## What a ClientPIN request carries -/

/-- The value of the key is the string `bs`. -/
def Command.HasString (c : Command) (key : ℕ) (bs : List UInt8) : Prop :=
  ∃ p, (getCborMapString 1 (c.reqLen - 1) key).run c.req =
    some (some (p, bs.length)) ∧ c.req.slice p bs.length = bs

/-- The session keys which the device agrees on for the request. -/
structure SessionAgreed (d : Device) (c : Command) (s : PinSession) : Prop where
  keyValid : d.pin.ecdhKeyValid = true
  protocol : s.activePinProtocol = 1 ∨ s.activePinProtocol = 2
  keys : ∃ proto hostPub,
    (getCborMapInt 1 (c.reqLen - 1) 0x01).run c.req = some proto ∧
    (hostPublicKey c.env 1 (c.reqLen - 1)).run c.req = some (.ok hostPub) ∧
    s = PinSession.agree
      { d.pin with activePinProtocol := proto.getD d.pin.activePinProtocol }
      (c.env.sharedSecret hostPub d.pin.ecdhPrivateKey)

/-- The pinUvAuthParam is the HMAC of the message under the session keys. -/
def Command.CarriesMac (c : Command) (s : PinSession) (msg : List UInt8) : Prop :=
  c.HasString 0x04 ((s.mac msg).val.take s.expectedAuthLen)

def PinSession.hashEncLen (s : PinSession) : ℕ :=
  if s.activePinProtocol = 2 then 32 else 16

/-- The pinHashEnc of the request decrypts to the hash. -/
def Command.ClaimsHash (c : Command) (s : PinSession) (pinHash : Bytes 16) : Prop :=
  ∃ p n, (getCborMapString 1 (c.reqLen - 1) 0x06).run c.req = some (some (p, n)) ∧
    s.hashEncLen ≤ n ∧ pinHash = s.decrypt 1 (c.req.slice p s.hashEncLen)

def PinSession.newPin (s : PinSession) (newPinEnc : List UInt8) : List UInt8 :=
  ((s.decrypt 4 newPinEnc).val.reverse.dropWhile (· = 0)).reverse

theorem newPinHash_ok {s : PinSession} {newPinEnc : List UInt8}
    {pinHash : Bytes 16} (h : s.newPinHash newPinEnc = .ok pinHash) :
    pinHash.val = (sha256 (s.newPin newPinEnc)).val.take 16 := by
  unfold PinSession.newPinHash at h
  dsimp only at h
  split at h
  · cases h
  · rw [← Except.ok.inj h]
    exact Bytes.fill_val (by simp)

theorem hasString_of_read {c : Command} {key p n : ℕ} {bs : List UInt8}
    (hfound : (getCborMapString 1 (c.reqLen - 1) key).run c.req =
      some (some (p, n))) (hread : (bytes p n).run c.req = some bs) :
    c.HasString key bs := by
  rw [run_bytes, Option.some.injEq] at hread
  have hlength : bs.length = n := by rw [← hread, Mem.slice_length]
  exact ⟨p, by rw [hlength]; exact hfound, by rw [hlength]; exact hread⟩

section

variable {d : Device} {c : Command} {s : PinSession}

theorem setPinChecks_spec {flash : Mem} :
    (setPinChecks flash s 1 (c.reqLen - 1)).Returns c.req fun r =>
      ∀ pinHash, r = .ok pinHash → pinLoad flash = none ∧ ∃ newPinEnc,
        c.HasString 0x05 newPinEnc ∧ c.CarriesMac s newPinEnc ∧
        s.newPinHash newPinEnc = .ok pinHash := by
  unfold setPinChecks
  refine Returns.bind_run fun pinAuth hpinAuth =>
    Returns.bind_run fun newPin hnewPin => ?_
  split
  · exact Returns.pure (by simp)
  · rename_i auth authLen
    refine Returns.ite (fun _ => Returns.pure (by simp)) fun hunset => ?_
    rw [Option.not_isSome_iff_eq_none] at hunset
    split
    · exact Returns.pure (by simp)
    · refine Returns.ite (fun _ => Returns.pure (by simp)) fun _ =>
        Returns.ite (fun _ => Returns.pure (by simp)) fun _ =>
        Returns.ite (fun _ => Returns.pure (by simp)) fun hlength => ?_
      rw [not_not] at hlength
      subst hlength
      refine Returns.bind_run fun enc henc => Returns.bind_run fun mac hmac =>
        Returns.ite (fun _ => Returns.pure (by simp)) fun hvalid => ?_
      rw [not_not] at hvalid
      refine Returns.pure fun pinHash hpinHash => ⟨hunset, enc, ?_, ?_, hpinHash⟩
      · exact hasString_of_read hnewPin henc
      · exact hasString_of_read hpinAuth (hvalid ▸ hmac)

theorem changePinChecks_spec (hprotocol : s.activePinProtocol = 1 ∨
      s.activePinProtocol = 2) :
    (changePinChecks s 1 (c.reqLen - 1)).Returns c.req fun r =>
      ∀ newPinEnc guess, r = .ok (newPinEnc, guess) → ∃ pinHashEnc,
        c.HasString 0x05 newPinEnc ∧ c.HasString 0x06 pinHashEnc ∧
        pinHashEnc.length = s.hashEncLen ∧
        c.CarriesMac s (newPinEnc ++ pinHashEnc) ∧ guess = s.decrypt 1 pinHashEnc := by
  unfold changePinChecks
  refine Returns.bind_run fun pinAuth hpinAuth =>
    Returns.bind_run fun newPin hnewPin =>
    Returns.bind_run fun pinHash hpinHash => ?_
  split
  · rename_i auth authLen newPin newPinLen pinHash pinHashLen
    refine Returns.ite (fun _ => Returns.pure (by simp)) fun hlength => ?_
    rw [not_not] at hlength
    subst hlength
    refine Returns.ite (fun _ => Returns.pure (by simp)) fun hone =>
      Returns.ite (fun _ => Returns.pure (by simp)) fun htwo =>
      Returns.bind_run fun enc henc => Returns.bind_run fun hashEnc hhashEnc =>
      Returns.bind_run fun mac hmac =>
      Returns.ite (fun _ => Returns.pure (by simp)) fun hvalid => ?_
    rw [not_not] at hvalid
    refine Returns.pure fun newPinEnc guess heq => ?_
    rw [Except.ok.injEq, Prod.mk.injEq] at heq
    obtain ⟨rfl, rfl⟩ := heq
    have hlen : hashEnc.length = s.hashEncLen := by
      rw [run_bytes, Option.some.injEq] at hhashEnc
      rw [← hhashEnc, Mem.slice_length, PinSession.hashEncLen]
      rcases hprotocol with h | h <;> simp_all
    exact ⟨hashEnc, hasString_of_read hnewPin henc,
      hasString_of_read hpinHash hhashEnc, hlen,
      hasString_of_read hpinAuth (hvalid ▸ hmac), rfl⟩
  · exact Returns.pure (by simp)

theorem tokenGuess_spec (hprotocol : s.activePinProtocol = 1 ∨
      s.activePinProtocol = 2) :
    (tokenGuess s 1 (c.reqLen - 1)).Returns c.req fun r =>
      ∀ guess, r = .ok guess → c.ClaimsHash s guess := by
  unfold tokenGuess
  refine Returns.bind_run fun pinHashEnc hpinHashEnc => ?_
  split
  · exact Returns.pure (by simp)
  · rename_i p n
    refine Returns.ite (fun _ => Returns.pure (by simp)) fun hone =>
      Returns.ite (fun _ => Returns.pure (by simp)) fun htwo =>
      Returns.bind_run fun enc henc => Returns.pure fun guess hguess => ?_
    rw [run_bytes, Option.some.injEq] at henc
    rw [Except.ok.injEq] at hguess
    refine ⟨p, n, hpinHashEnc, ?_, ?_⟩
    · unfold PinSession.hashEncLen
      split
      · rename_i hproto
        exact Nat.le_of_not_lt fun h => htwo ⟨hproto, h⟩
      · rename_i hproto
        exact Nat.le_of_not_lt fun h => hone ⟨hprotocol.resolve_right hproto, h⟩
    · rw [← hguess, ← henc]
      rfl

/-! ## The changes -/

theorem agree_protocol (s : PinSession) (shared : Bytes 32) :
    (s.agree shared).activePinProtocol = s.activePinProtocol := by
  unfold PinSession.agree
  split <;> rfl

theorem getPinRetries_ops (d : Device) : (getPinRetries d).ops = [] := by
  unfold getPinRetries
  split <;> rfl

theorem clientPinFront_session (hlen : c.reqLen ≠ 0) (hcmd : c.req 0 = 0x06) :
    (clientPinFront c.env (d.onChannel c.cid) 1 (c.reqLen - 1)).Returns c.req
      fun r => match r with
        | .error o => o.ops = []
        | .ok (subCmd, d') => c.pinSubCmd = some subCmd ∧ d'.flash = d.flash ∧
            SessionAgreed d c d'.pin := by
  have hsub := pinSubCmd_eq hlen hcmd
  unfold clientPinFront
  refine Returns.ite (fun _ => Returns.pure rfl) fun _ =>
    Returns.bind_run fun subCmd hsubCmd => ?_
  rw [hsubCmd, Option.join_some] at hsub
  cases subCmd with
  | none => exact Returns.pure rfl
  | some subCmd =>
      refine Returns.bind_run fun proto hproto =>
        Returns.ite (fun _ => Returns.pure rfl) fun hknown =>
        Returns.ite (fun _ => Returns.pure ?_) fun hother =>
        Returns.ite (fun _ => Returns.pure rfl) fun _ =>
        Returns.ite (fun _ => ?_) fun _ => Returns.pure rfl
      · exact getPinRetries_ops _
      · refine Returns.ite (fun _ => Returns.pure rfl) fun hvalid =>
          Returns.bind_run fun hostPub hhostPub => ?_
        rw [not_not] at hvalid
        cases hostPub with
        | error status => exact Returns.pure rfl
        | ok hostPub =>
            refine Returns.pure ⟨hsub, rfl, hvalid, ?_, proto, hostPub, hproto,
              hhostPub, rfl⟩
            rw [agree_protocol]
            tauto

end

/-- What a command has done to the stored PIN. -/
inductive PinTransition (d : Device) (c : Command) (o : Outcome) : Prop
  | unchanged
      (hpage : ∀ a, pinFlashAddr ≤ a → (d.after o).flash.mem a = d.flash.mem a)
      (hstored : (d.after o).storedPin = d.storedPin)
  | wrong (s : PinSession) (subCmd : ℕ) (guess pinHash : Bytes 16)
      (retries left : UInt8) (hsub : c.pinSubCmd = some subCmd)
      (hkind : subCmd = 0x04 ∨ subCmd = 0x05 ∨ subCmd = 0x09)
      (hsession : SessionAgreed d c s) (hclaim : c.ClaimsHash s guess)
      (hne : guess ≠ pinHash) (hbefore : d.storedPin = some (pinHash, retries))
      (hafter : (d.after o).storedPin = some (pinHash, left))
      (hleft : left.toNat = retries.toNat - 1) (hresp : o.resp = [0x31])
  | token (s : PinSession) (subCmd : ℕ) (pinHash : Bytes 16) (retries : UInt8)
      (hsub : c.pinSubCmd = some subCmd) (hkind : subCmd = 0x05 ∨ subCmd = 0x09)
      (hsession : SessionAgreed d c s) (hclaim : c.ClaimsHash s pinHash)
      (hretries : retries ≠ 0) (hbefore : d.storedPin = some (pinHash, retries))
      (hafter : (d.after o).storedPin = some (pinHash, 8))
      (hstatus : o.status = some 0x00)
  | set (s : PinSession) (newPinEnc : List UInt8) (pinHash : Bytes 16)
      (hsub : c.pinSubCmd = some 0x03) (hsession : SessionAgreed d c s)
      (hparam : c.HasString 0x05 newPinEnc) (hmac : c.CarriesMac s newPinEnc)
      (hnew : pinHash.val = (sha256 (s.newPin newPinEnc)).val.take 16)
      (hbefore : d.storedPin = none)
      (hafter : (d.after o).storedPin = some (pinHash, 8)) (hresp : o.resp = [0x00])
  | changed (s : PinSession) (newPinEnc pinHashEnc : List UInt8)
      (old pinHash : Bytes 16) (retries : UInt8) (hsub : c.pinSubCmd = some 0x04)
      (hsession : SessionAgreed d c s) (hparam : c.HasString 0x05 newPinEnc)
      (hhash : c.HasString 0x06 pinHashEnc)
      (hmac : c.CarriesMac s (newPinEnc ++ pinHashEnc))
      (hold : old = s.decrypt 1 pinHashEnc)
      (hnew : pinHash.val = (sha256 (s.newPin newPinEnc)).val.take 16)
      (hbefore : d.storedPin = some (old, retries))
      (hafter : (d.after o).storedPin = some (pinHash, 8)) (hresp : o.resp = [0x00])

namespace PinTransition

variable {d : Device} {c : Command} {o : Outcome}

theorem of_slotOps (h : SlotOps o.ops) : PinTransition d c o := by
  refine .unchanged (fun a ha => ?_) (storedPin_keeps h)
  simp only [Device.after, Flash.run_mem]
  exact Mem.after_below h.below ha d.flash.mem

theorem of_noOps (h : o.ops = []) : PinTransition d c o :=
  of_slotOps (h ▸ .none)

end PinTransition

section

variable {d d' : Device} {c : Command}

theorem setPin_transition (hsub : c.pinSubCmd = some 0x03)
    (hflash : d'.flash = d.flash) (hsession : SessionAgreed d c d'.pin) :
    (setPin d' 1 (c.reqLen - 1)).Returns c.req (PinTransition d c) := by
  unfold setPin
  refine Returns.bind_of setPinChecks_spec fun checked hspec => ?_
  cases checked with
  | error status => exact Returns.pure (.of_noOps rfl)
  | ok pinHash =>
      obtain ⟨hload, newPinEnc, hparam, hmac, hnew⟩ := hspec pinHash rfl
      rw [hflash] at hload
      refine Returns.pure (.set d'.pin newPinEnc pinHash hsub hsession hparam hmac
        (newPinHash_ok hnew) (storedPin_eq_none_iff.2 hload) ?_ rfl)
      rw [after_storedPin]
      exact storedPin_pinSave _ pinHash

theorem wrong_transition {s : PinSession} {subCmd : ℕ} {guess : Bytes 16}
    {p : PinState} {o : Outcome} (hsub : c.pinSubCmd = some subCmd)
    (hkind : subCmd = 0x04 ∨ subCmd = 0x05 ∨ subCmd = 0x09)
    (hsession : SessionAgreed d c s) (hclaim : c.ClaimsHash s guess)
    (hne : guess ≠ p.pinHash) (hload : pinLoad d.flash.mem = some p)
    (hops : o.ops = pinDecrementRetriesOps d.flash.mem) (hresp : o.resp = [0x31]) :
    PinTransition d c o := by
  refine .wrong s subCmd guess p.pinHash p.retries p.decremented.retries hsub hkind
    hsession hclaim hne (storedPin_some hload) ?_ (decremented_retries p) hresp
  rw [after_storedPin, hops, storedPin_pinDecrementRetries hload]
  rfl

theorem changePin_transition (hsub : c.pinSubCmd = some 0x04)
    (hflash : d'.flash = d.flash) (hsession : SessionAgreed d c d'.pin) :
    (changePin d' 1 (c.reqLen - 1)).Returns c.req (PinTransition d c) := by
  unfold changePin
  refine Returns.bind_of (changePinChecks_spec hsession.protocol)
    fun checked hspec => ?_
  cases checked with
  | error status => exact Returns.pure (.of_noOps rfl)
  | ok request =>
      rcases request with ⟨newPinEnc, guess⟩
      obtain ⟨pinHashEnc, hparam, hhash, hlen, hmac, hguess⟩ := hspec _ _ rfl
      refine Returns.pure ?_
      unfold changePinOutcome
      rw [hflash]
      cases hload : pinLoad d.flash.mem with
      | none => exact .of_noOps (by simp [pinDecrementRetriesOps, hload, Device.replyGuess])
      | some p =>
          dsimp only
          split
          · rename_i hne
            obtain ⟨q, hfound, hbytes⟩ := hhash
            refine wrong_transition hsub (.inl rfl) hsession ⟨q, _, hfound, hlen.ge, ?_⟩
              hne hload rfl rfl
            rw [← hlen, hbytes]
            exact hguess
          · rename_i heq
            rw [not_not] at heq
            cases hnew : d'.pin.newPinHash newPinEnc with
            | error status => exact .of_noOps rfl
            | ok pinHash =>
                refine .changed d'.pin newPinEnc pinHashEnc p.pinHash pinHash p.retries
                  hsub hsession hparam hhash hmac (heq ▸ hguess) (newPinHash_ok hnew)
                  (storedPin_some hload) ?_ rfl
                rw [after_storedPin]
                exact storedPin_pinSave _ pinHash

theorem getPinToken_transition {subCmd : ℕ} (hsub : c.pinSubCmd = some subCmd)
    (hkind : subCmd = 0x05 ∨ subCmd = 0x09) (hflash : d'.flash = d.flash)
    (hsession : SessionAgreed d c d'.pin) :
    (getPinToken c.env d' 1 (c.reqLen - 1) subCmd).Returns c.req
      (PinTransition d c) := by
  unfold getPinToken
  refine Returns.bind_of (tokenGuess_spec hsession.protocol) fun claimed hspec => ?_
  cases claimed with
  | error status => exact Returns.pure (.of_noOps rfl)
  | ok guess =>
      have hclaim := hspec guess rfl
      refine Returns.pure ?_
      unfold pinTokenOutcome
      rw [hflash]
      cases hload : pinLoad d.flash.mem with
      | none => exact .of_noOps rfl
      | some p =>
          dsimp only
          split
          · exact .of_noOps rfl
          · rename_i hretries
            split
            · rename_i hne
              exact wrong_transition hsub (.inr hkind) hsession hclaim (Ne.symm hne)
                hload rfl rfl
            · rename_i heq
              rw [not_not] at heq
              refine .token d'.pin subCmd p.pinHash p.retries hsub hkind hsession
                (heq ▸ hclaim) hretries (storedPin_some hload) ?_ rfl
              rw [after_storedPin]
              exact storedPin_pinResetRetries hload

theorem processClientPin_transition (hlen : c.reqLen ≠ 0) (hcmd : c.req 0 = 0x06) :
    (processClientPin c.env (d.onChannel c.cid) 1 (c.reqLen - 1)).Returns c.req
      (PinTransition d c) := by
  have hkind := clientPinFront_spec (d := d) hlen hcmd
  unfold processClientPin
  refine Returns.bind_run fun front hrun => ?_
  have hsession := clientPinFront_session hlen hcmd front hrun
  cases front with
  | error o => exact Returns.pure (.of_noOps hsession)
  | ok front =>
      rcases front with ⟨subCmd, d'⟩
      obtain ⟨hsub, hflash, hsession⟩ := hsession
      have hkind := (hkind _ hrun).2.1
      refine Returns.ite ?_ fun hset => Returns.ite ?_ fun hchange => ?_
      · rintro rfl
        exact setPin_transition hsub hflash hsession
      · rintro rfl
        exact changePin_transition hsub hflash hsession
      · exact getPinToken_transition hsub (by tauto) hflash hsession

/-- Every command but a reset moves the stored PIN in one of these ways. -/
theorem pinPage_transition {o : Outcome} (ho : d.outcome c = some o)
    (hreset : NoReset d c) : PinTransition d c o := by
  cases outcome_effect ho with
  | keeps _ h _ => exact .of_slotOps h.ops
  | reset htaken hstatus => exact absurd ⟨htaken, hstatus⟩ (no_reset_effect hreset ho)
  | clientPin hlen hcmd _ _ =>
      rw [outcome_eq hlen, hcmd] at ho
      exact processClientPin_transition hlen hcmd o ho

end

theorem pinPage_transition_token : ∃ d o,
    (Device.powerUp (pinFlash 3)).step agreeCommand = some d ∧
      d.outcome tokenCommand = some o ∧ PinTransition d tokenCommand o := by
  have hruns : ((Device.powerUp (pinFlash 3)).step agreeCommand |>.bind
      fun d => d.outcome tokenCommand).isSome := by decide +kernel
  obtain ⟨o, ho⟩ := Option.isSome_iff_exists.1 hruns
  obtain ⟨d, hd, ho⟩ := Option.bind_eq_some_iff.1 ho
  exact ⟨d, o, hd, ho, pinPage_transition ho (noReset_of_cmd (by decide))⟩

end UnsoloKey
