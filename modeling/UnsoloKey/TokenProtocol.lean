import UnsoloKey.Assertion
import UnsoloKey.Management
import UnsoloKey.PinTransitions
import UnsoloKey.Registration
import UnsoloKey.UserVerification
import Mathlib.Tactic

/-!
# The protocol of a token

A token belongs to the PIN protocol under which it was issued, but the device
remembers the protocol of the last ClientPIN request in `active_pin_protocol`, and
CredentialManagement takes it from its own request.  As long as every request names
the protocol of the token or none, the requests in between do not matter and the
three commands accept just the HMAC of the prescribed length.
-/

namespace UnsoloKey

open Rd Trace

/-! ## The three checks -/

/-- The check of MakeCredential and GetAssertion, `none` without a parameter. -/
def pinAuthCheck (s : PinSession) (reqLen cdhKey paramKey : ℕ) : Rd (Option Bool) := do
  let cdh ← getCborMapString 1 (reqLen - 1) cdhKey
  match ← getCborMapString 1 (reqLen - 1) paramKey with
  | none => return none
  | some (p, n) =>
      let valid ← pinAuthValid s cdh p n
      return some valid

/-- The check which the command makes of its pinUvAuthParam. -/
def paramCheck (env : Env) (s : PinSession) (reqLen : ℕ) (cmd : UInt8) :
    Rd (Option Bool) :=
  if cmd = 0x01 then pinAuthCheck s reqLen 0x01 0x08
  else if cmd = 0x02 then pinAuthCheck s reqLen 0x02 0x06
  else do
    let subCmd ← cmSubCmd reqLen
    let authorized ← cmAuthorized env s reqLen subCmd
    return some authorized

/-- The key of the parameter. -/
def paramKey (cmd : UInt8) : ℕ :=
  if cmd = 0x01 then 0x08 else if cmd = 0x02 then 0x06 else 0x04

/-- The clientDataHash as the message of the HMAC. -/
def cdhMessage (reqLen cdhKey : ℕ) : Rd (List UInt8) := do
  match ← getCborMapString 1 (reqLen - 1) cdhKey with
  | none => return []
  | some (p, _) => bytes p 32

/-- The message which the parameter is to authenticate. -/
def authMessage (env : Env) (reqLen : ℕ) (cmd : UInt8) : Rd (List UInt8) :=
  if cmd = 0x01 then cdhMessage reqLen 0x01
  else if cmd = 0x02 then cdhMessage reqLen 0x02
  else do
    let subCmd ← cmSubCmd reqLen
    cmMessage env reqLen subCmd

def prescribedLen (p : ℕ) : ℕ := if p = 2 then 32 else 16

section

variable {s : PinSession} {d : Device} {env : Env} {reqLen cdhKey key : ℕ} {m : Mem}

theorem pinAuthValid_spec {cdh : Option (ℕ × ℕ)} {p n : ℕ} :
    (pinAuthValid s cdh p n).Returns m fun valid => valid = true →
      n = prescribedLen s.activePinProtocol ∧ ∃ q len, cdh = some (q, len) ∧
        m.slice p n = (hmacSha256 s.tokenKey (m.slice q 32)).val.take n := by
  unfold pinAuthValid
  cases cdh with
  | none => exact Returns.pure (by simp)
  | some found =>
      rcases found with ⟨q, len⟩
      refine Returns.ite (fun _ => Returns.pure (by simp)) fun _ =>
        Returns.bind_run fun cdh hcdh => ?_
      rw [run_bytes, Option.some.injEq] at hcdh
      subst hcdh
      refine Returns.ite (fun htwo => Returns.bind_run fun param hparam => ?_) fun _ =>
        Returns.ite (fun hone => Returns.bind_run fun param hparam => ?_) fun _ =>
          Returns.pure (by simp)
      · obtain ⟨hproto, rfl⟩ := htwo
        rw [run_bytes, Option.some.injEq] at hparam
        refine Returns.pure fun hmac => ⟨by simp [prescribedLen, hproto], q, len, rfl, ?_⟩
        rw [hparam, ← of_decide_eq_true hmac, List.take_of_length_le (by simp)]
      · obtain ⟨hproto, rfl⟩ := hone
        rw [run_bytes, Option.some.injEq] at hparam
        refine Returns.pure fun hmac => ⟨by simp [prescribedLen, hproto], q, len, rfl, ?_⟩
        rw [hparam, ← of_decide_eq_true hmac]

theorem pinAuthCheck_spec :
    (pinAuthCheck s reqLen cdhKey key).Returns m fun check => check = some true →
      ∃ p msg, (cdhMessage reqLen cdhKey).run m = some msg ∧
        (getCborMapString 1 (reqLen - 1) key).run m =
          some (some (p, prescribedLen s.activePinProtocol)) ∧
        m.slice p (prescribedLen s.activePinProtocol) =
          (hmacSha256 s.tokenKey msg).val.take (prescribedLen s.activePinProtocol) := by
  unfold pinAuthCheck
  refine Returns.bind_run fun cdh hcdh => Returns.bind_run fun param hparam => ?_
  cases param with
  | none => exact Returns.pure (by simp)
  | some found =>
      rcases found with ⟨p, n⟩
      refine Returns.bind_of pinAuthValid_spec fun valid hvalid =>
        Returns.pure fun hcheck => ?_
      obtain ⟨rfl, q, len, rfl, hmac⟩ := hvalid (Option.some.inj hcheck)
      have hmsg : (cdhMessage reqLen cdhKey).run m = some (m.slice q 32) := by
        simp [cdhMessage, hcdh]
      exact ⟨p, _, hmsg, hparam, hmac⟩

/-! ## What the commands make of the checks -/

theorem mcDecision_check :
    (mcDecision d reqLen).Returns m fun decision => match decision with
      | .error status => status ≠ 0x00
      | .ok (_, verified) => (pinAuthCheck d.pin reqLen 0x01 0x08).run m =
          some (verified.map fun _ => true) := by
  unfold mcDecision
  refine Returns.bind_run fun cdh hcdh => Returns.bind_run fun param hparam => ?_
  cases param with
  | some p =>
      refine Returns.ite (fun _ => Returns.pure ?_) fun _ => Returns.bind fun _ =>
        Returns.bind_run fun valid hvalid => Returns.ite (fun _ => Returns.pure ?_)
          fun hok => Returns.pure ?_
      · dsimp only
        split <;> decide
      · exact show (0x33 : UInt8) ≠ 0x00 by decide
      · rw [not_not] at hok
        subst hok
        simp [pinAuthCheck, hcdh, hparam, hvalid]
  | none =>
      have hcheck : (pinAuthCheck d.pin reqLen 0x01 0x08).run m = some none := by
        simp [pinAuthCheck, hcdh, hparam]
      refine Returns.bind fun options => ?_
      cases options with
      | none => exact Returns.pure hcheck
      | some v =>
          refine Returns.bind_of optionsRefused_nonzero fun refused hrefused => ?_
          cases refused with
          | some status => exact Returns.pure (hrefused status rfl)
          | none => exact Returns.pure hcheck

/-- The check decides: an outcome under a token has passed it, and a failed check
is an error. -/
structure DecidedBy (o : Outcome) (check : Option (Option Bool)) : Prop where
  passed : o.verified.isSome → check = some (some true)
  failed : check = some (some false) → o.status ≠ some 0x00

theorem decidedBy_error {o : Outcome} {check : Option (Option Bool)}
    (hverified : o.verified = none) (hstatus : o.status ≠ some 0x00) :
    DecidedBy o check :=
  ⟨by simp [hverified], fun _ => hstatus⟩

theorem decidedBy_map {o : Outcome} {check : Option (Option Bool)}
    {verified : Option (List UInt8)} (hverified : o.verified = verified)
    (hcheck : check = some (verified.map fun _ => true)) : DecidedBy o check := by
  subst hcheck
  constructor
  · intro hsome
    rw [hverified] at hsome
    obtain ⟨key, rfl⟩ := Option.isSome_iff_exists.1 hsome
    rfl
  · cases verified <;> simp

theorem makeCredential_decided :
    (makeCredential env d reqLen).Returns m fun o =>
      DecidedBy o ((pinAuthCheck d.pin reqLen 0x01 0x08).run m) := by
  intro o ho
  cases makeCredential_effect o ho with
  | refused status hstatus _ ho =>
      subst ho
      exact decidedBy_error rfl (by simpa using hstatus)
  | untouched cdh verified hdecision _ ho =>
      subst ho
      exact decidedBy_map rfl (mcDecision_check _ hdecision)
  | registered cdh verified hdecision _ h =>
      have hcheck := mcDecision_check _ hdecision
      cases h with
      | excluded _ ho => exact decidedBy_map (by rw [ho]; rfl) hcheck
      | full _ _ _ ho => exact decidedBy_map (by rw [ho]; rfl) hcheck
      | saved _ _ _ _ _ _ _ ho => exact decidedBy_map (by rw [ho]; rfl) hcheck

theorem gaOptions_verified {rpIdHash : Bytes 32} {cdh : Option (ℕ × ℕ)} {i : Slot}
    {total : ℕ} {verified : Option (List UInt8)} {hasPinAuth : Bool} :
    (gaOptions d reqLen rpIdHash cdh i total verified hasPinAuth).Returns m
      fun decision => match decision with
        | .refuse verified' _ => verified' = verified
        | .assert plan => plan.verified = verified := by
  unfold gaOptions
  refine Returns.bind fun _ => Returns.bind fun decision => ?_
  cases decision <;> exact Returns.pure rfl

theorem gaDecision_check :
    (gaDecision d reqLen).Returns m fun r => match r.2 with
      | .refuse verified status => status ≠ 0x00 ∧
          (verified.isSome → (pinAuthCheck d.pin reqLen 0x02 0x06).run m =
            some (some true))
      | .assert plan => (pinAuthCheck d.pin reqLen 0x02 0x06).run m =
          some (plan.verified.map fun _ => true) := by
  unfold gaDecision
  refine Returns.bind fun rpId => Returns.bind_run fun cdh hcdh => Returns.bind
    fun allowList => Returns.bind fun rpIdHash => Returns.bind fun selection =>
    Returns.bind_run fun r hr => Returns.pure ?_
  have hstatus := gaSelected_spec r hr
  obtain ⟨selected, ctap⟩ := selection
  cases selected with
  | none =>
      obtain rfl : GaDecision.refuse none 0x2E = r := Option.some.inj hr
      exact ⟨by decide, by simp⟩
  | some found =>
      simp only [gaSelected, run_bind_eq_some] at hr
      obtain ⟨param, hparam, hr⟩ := hr
      cases param with
      | none =>
          have hcheck : (pinAuthCheck d.pin reqLen 0x02 0x06).run m = some none := by
            simp [pinAuthCheck, hcdh, hparam]
          have hverified := gaOptions_verified r hr
          cases r with
          | refuse verified status => exact ⟨hstatus, by simp [hverified]⟩
          | assert plan => simpa [hverified] using hcheck
      | some p =>
          simp only [run_bind_eq_some] at hr
          obtain ⟨valid, hvalid, hr⟩ := hr
          have hcheck : (pinAuthCheck d.pin reqLen 0x02 0x06).run m =
              some (some valid) := by
            simp only [pinAuthCheck, run_bind, run_pure, hcdh, hparam, hvalid,
              Option.bind_some]
          cases valid with
          | false =>
              obtain rfl : GaDecision.refuse none 0x33 = r := Option.some.inj hr
              exact ⟨by decide, by simp⟩
          | true =>
              have hverified := gaOptions_verified r hr
              cases r with
              | refuse verified status => exact ⟨hstatus, fun _ => hcheck⟩
              | assert plan => simpa [hverified] using hcheck

theorem getAssertion_decided :
    (getAssertion env d reqLen).Returns m fun o =>
      DecidedBy o ((pinAuthCheck d.pin reqLen 0x02 0x06).run m) := by
  intro o hrun
  have ho := hrun
  rw [getAssertion_run, run_bind_eq_some] at ho
  obtain ⟨⟨ctap, decision⟩, hdecision, ho⟩ := ho
  have hcheck := gaDecision_check _ hdecision
  cases decision with
  | refuse verified status =>
      obtain rfl := Option.some.inj ho
      exact ⟨hcheck.2, fun _ => by simpa using hcheck.1⟩
  | assert plan =>
      exact decidedBy_map (getAssertion_verified hdecision o hrun) hcheck

theorem credentialManagement_decided (hset : (pinLoad d.flash.mem).isSome) :
    (credentialManagement env d reqLen).Returns m fun o =>
      DecidedBy o ((paramCheck env d.pin reqLen 0x0A).run m) := by
  intro o ho
  rcases credentialManagement_cases hset o ho with
    rfl | ⟨subCmd, msg, param, o', hsub, hauthorized, -, -, rfl⟩
  · exact decidedBy_error rfl (by simp)
  · have hcheck : (paramCheck env d.pin reqLen 0x0A).run m = some (some true) := by
      have hmake : ¬ (0x0A : UInt8) = 0x01 := by decide
      have hget : ¬ (0x0A : UInt8) = 0x02 := by decide
      simp only [paramCheck, if_neg hmake, if_neg hget, run_bind, run_pure, hsub,
        hauthorized, Option.bind_some]
    exact ⟨fun _ => hcheck, by simp [hcheck]⟩

end

/-! ## ClientPIN and the protocol -/

section

variable {d d' : Device} {c : Command} {p : ℕ}

/-- The protocol which a ClientPIN request leaves active. -/
def Command.ActivatesProtocol (c : Command) (d : Device) (p : ℕ) : Prop :=
  c.pinSubCmd ≠ none →
    ∀ proto, (getCborMapInt 1 (c.reqLen - 1) 0x01).run c.req = some proto →
      proto.getD d.pin.activePinProtocol = p

theorem getPinRetries_pin (d : Device) : (getPinRetries d).pin = d.pin := by
  unfold getPinRetries
  split <;> rfl

theorem clientPinFront_frame (hlen : c.reqLen ≠ 0) (hcmd : c.req 0 = 0x06)
    (hp : c.ActivatesProtocol d p) :
    (clientPinFront c.env (d.onChannel c.cid) 1 (c.reqLen - 1)).Returns c.req
      fun r => match r with
        | .error o =>
            (o.pin.activePinProtocol = p ∨ c.pinSubCmd = none ∧
              o.pin.activePinProtocol = d.pin.activePinProtocol) ∧
            (o.pin.tokenState = d.pin.tokenState ∨ o.status = some 0x00) ∧
            (o.status = some 0x00 → c.pinSubCmd = some 0x01 ∨ c.pinSubCmd = some 0x02)
        | .ok (_, d') => d'.pin.activePinProtocol = p ∧ (p = 1 ∨ p = 2) := by
  have hsub := pinSubCmd_eq hlen hcmd
  unfold clientPinFront
  refine Returns.ite (fun hshort => Returns.pure ?_) fun _ =>
    Returns.bind_run fun subCmd hsubCmd => ?_
  · have hnone : c.pinSubCmd = none := by
      have hzero : c.reqLen - 1 = 0 := by omega
      rw [hsub, hzero]
      rfl
    exact ⟨.inr ⟨hnone, rfl⟩, .inl rfl, by simp [Outcome.status, Device.reply]⟩
  rw [hsubCmd, Option.join_some] at hsub
  cases subCmd with
  | none => exact Returns.pure ⟨.inr ⟨hsub, rfl⟩, .inl rfl, by simp⟩
  | some subCmd =>
      refine Returns.bind_run fun proto hproto => ?_
      have hactive := hp (by simp [hsub]) proto hproto
      refine Returns.ite (fun _ => Returns.pure ⟨.inl hactive, .inl rfl, by simp⟩)
        fun hknown => Returns.ite (fun hretries => Returns.pure ?_) fun hother =>
        Returns.ite (fun hagree => Returns.pure ⟨.inl hactive, .inr rfl, ?_⟩) fun _ =>
        Returns.ite (fun _ => ?_) fun _ =>
          Returns.pure ⟨.inl hactive, .inl rfl, by simp⟩
      · have hfirst : c.pinSubCmd = some 0x01 := by rw [hsub, hretries]
        refine ⟨.inl ?_, .inl ?_, fun _ => .inl hfirst⟩
        · rw [getPinRetries_pin]
          exact hactive
        · rw [getPinRetries_pin]
          rfl
      · exact fun _ => .inr (by rw [hsub, hagree])
      · refine Returns.ite
          (fun _ => Returns.pure ⟨.inl hactive, .inl rfl, by simp⟩) fun _ =>
          Returns.bind_of hostPublicKey_failsNonzero fun hostPub hnonzero => ?_
        cases hostPub with
        | error status =>
            have hstatus := hnonzero status rfl
            exact Returns.pure ⟨.inl hactive, .inl rfl, by simp [hstatus]⟩
        | ok hostPub =>
            refine Returns.pure ⟨by rw [agree_protocol]; exact hactive, ?_⟩
            rw [← hactive]
            tauto

/-- The protocol and the keys which a session has agreed on. -/
def PinSession.keyState (s : PinSession) : ℕ × Bytes 32 × Bytes 32 :=
  (s.activePinProtocol, s.pinSharedSecret, s.hmacKey)

theorem setPin_keyState : (setPin d' 1 (c.reqLen - 1)).Returns c.req fun o =>
    o.pin.keyState = d'.pin.keyState := by
  unfold setPin
  refine Returns.bind fun checked => ?_
  cases checked <;> exact Returns.pure rfl

theorem changePin_keyState : (changePin d' 1 (c.reqLen - 1)).Returns c.req fun o =>
    o.pin.keyState = d'.pin.keyState := by
  unfold changePin
  refine Returns.bind fun checked => ?_
  cases checked with
  | error status => exact Returns.pure rfl
  | ok request =>
      refine Returns.pure ?_
      unfold changePinOutcome
      split
      · rfl
      · split
        · rfl
        · split <;> rfl

theorem getPinToken_keyState (env : Env) (subCmd : ℕ) :
    (getPinToken env d' 1 (c.reqLen - 1) subCmd).Returns c.req fun o =>
      o.pin.keyState = d'.pin.keyState := by
  unfold getPinToken
  refine Returns.bind fun claimed => ?_
  cases claimed with
  | error status => exact Returns.pure rfl
  | ok guess =>
      refine Returns.pure ?_
      unfold pinTokenOutcome
      split
      · rfl
      · split
        · rfl
        · split <;> rfl

/-- The subcommands keep the keys which were agreed on for them. -/
theorem processClientPin_keyState {subCmd : ℕ}
    (hfront : (clientPinFront c.env (d.onChannel c.cid) 1 (c.reqLen - 1)).run c.req =
      some (.ok (subCmd, d'))) :
    (processClientPin c.env (d.onChannel c.cid) 1 (c.reqLen - 1)).Returns c.req fun o =>
      o.pin.keyState = d'.pin.keyState := by
  unfold processClientPin
  refine Returns.bind_run fun front hrun => ?_
  rw [hfront, Option.some.injEq] at hrun
  subst hrun
  exact Returns.ite (fun _ => setPin_keyState) fun _ => Returns.ite
    (fun _ => changePin_keyState) fun _ => getPinToken_keyState _ _

/-- What a ClientPIN request does to the protocol, and when getKeyAgreement and the
token subcommands succeed. -/
structure ClientPinFrame (d : Device) (c : Command) (p : ℕ) (o : Outcome) : Prop where
  protocol : c.pinSubCmd ≠ none ∨ d.pin.activePinProtocol = p →
    o.pin.activePinProtocol = p
  agreed : c.pinSubCmd = some 0x02 →
    o.pin.tokenState = d.pin.tokenState ∨ o.status = some 0x00
  issued : c.pinSubCmd = some 0x05 ∨ c.pinSubCmd = some 0x09 →
    o.status = some 0x00 → p = 1 ∨ p = 2

theorem processClientPin_frame (hlen : c.reqLen ≠ 0) (hcmd : c.req 0 = 0x06)
    (hp : c.ActivatesProtocol d p) :
    (processClientPin c.env (d.onChannel c.cid) 1 (c.reqLen - 1)).Returns c.req
      (ClientPinFrame d c p) := by
  have hspec := clientPinFront_spec (d := d) hlen hcmd
  unfold processClientPin
  refine Returns.bind_run fun front hrun => ?_
  have hframe := clientPinFront_frame hlen hcmd hp front hrun
  cases front with
  | error o =>
      obtain ⟨hprotocol, htoken, hstatus⟩ := hframe
      refine Returns.pure ⟨fun h => ?_, fun _ => htoken, fun h hok => ?_⟩
      · rcases hprotocol with hactive | ⟨hnone, hsame⟩
        · exact hactive
        · exact hsame.trans (h.resolve_left fun hne => hne hnone)
      · rcases hstatus hok with hsub | hsub <;> simp [hsub] at h
  | ok front =>
      rcases front with ⟨subCmd, d'⟩
      obtain ⟨hactive, hknown⟩ := hframe
      obtain ⟨hsub, hkind, -, -⟩ := hspec _ hrun
      have hkept : ∀ o : Outcome, o.pin.keyState = d'.pin.keyState →
          ClientPinFrame d c p o := by
        intro o ho
        have hprotocol : o.pin.activePinProtocol = d'.pin.activePinProtocol :=
          congrArg Prod.fst ho
        refine ⟨fun _ => hprotocol.trans hactive, fun hagree => ?_, fun _ _ => hknown⟩
        rw [hsub, Option.some.injEq] at hagree
        omega
      refine Returns.ite ?_ fun _ => Returns.ite ?_ fun _ => ?_
      · exact fun _ o ho => hkept o (setPin_keyState o ho)
      · exact fun _ o ho => hkept o (changePin_keyState o ho)
      · exact fun o ho => hkept o (getPinToken_keyState _ _ o ho)

end

/-! ## Requests between the token and its use -/

/-- The state right after a token has been issued under protocol `p`. -/
structure TokenIssued (d : Device) (p : ℕ) : Prop where
  issue : ∃ (d₀ : Device) (c : Command) (o : Outcome), d₀.outcome c = some o ∧ d₀.after o = d ∧
    (c.pinSubCmd = some 0x05 ∨ c.pinSubCmd = some 0x09) ∧ o.status = some 0x00 ∧
    ∃ proto, (getCborMapInt 1 (c.reqLen - 1) 0x01).run c.req = some proto ∧
      proto.getD d₀.pin.activePinProtocol = p

/-- A ClientPIN request which neither issues a token nor invalidates one:
getPINRetries, and every request answered with an error. -/
def LeavesToken (d : Device) (c : Command) : Prop :=
  c.reqLen ≠ 0 ∧ c.req 0 = 0x06 ∧ (c.pinSubCmd = some 0x01 ∨
    ∀ o, d.outcome c = some o → o.status ≠ some 0x00)

/-- Under this key the request names the protocol `p`, or nothing. -/
def Command.NamesProtocol (c : Command) (key p : ℕ) : Prop :=
  ∀ proto, (getCborMapInt 1 (c.reqLen - 1) key).run c.req = some proto →
    proto.getD p = p

/-- The token is kept, with its protocol, and so is the PIN. -/
structure KeepsSession (state : Bool × Bytes 32 × ℕ) (p : ℕ) (d : Device) : Prop where
  token : d.pin.tokenState = state
  protocol : d.pin.activePinProtocol = p
  pinSet : d.storedPin.isSome

section

variable {d d' : Device} {c : Command} {p : ℕ}

theorem TokenIssued.session (h : TokenIssued d p) :
    d.pin.hasPinToken = true ∧ 0 < d.pin.pinTokenLen ∧ (p = 1 ∨ p = 2) ∧
      KeepsSession d.pin.tokenState p d := by
  obtain ⟨d₀, c, o, ho, rfl, hsub, hok, proto, hproto, hp⟩ := h.issue
  have hactivates : c.ActivatesProtocol d₀ p := by
    intro _ proto' hproto'
    rw [hproto, Option.some.injEq] at hproto'
    rwa [← hproto']
  obtain ⟨hlen, hcmd⟩ := hsub.elim pinSubCmd_reached pinSubCmd_reached
  rw [outcome_eq hlen, hcmd] at ho
  have hframe := processClientPin_frame hlen hcmd hactivates o ho
  have hprotocol : o.pin.activePinProtocol = p :=
    hframe.protocol (.inl (by rcases hsub with hsub | hsub <;> simp [hsub]))
  cases (processClientPin_effect hlen hcmd o ho).1 with
  | issued q hload _ hops _ htoken hlength _ _ =>
      refine ⟨htoken, hlength, hframe.issued hsub hok, rfl, hprotocol, ?_⟩
      rw [after_storedPin, hops, storedPin_pinResetRetries hload]
      rfl
  | quiet _ _ _ hstatus => simp [hstatus hok] at hsub
  | agreed _ _ _ hagree => simp [hagree] at hsub
  | saved _ _ _ _ _ hset => simp [hset] at hsub
  | changed _ _ _ _ _ _ _ _ _ _ hchange => simp [hchange] at hsub
  | refused _ _ _ _ _ _ hstatus => exact absurd hok hstatus
  | wrong _ _ _ _ _ _ _ _ hstatus => exact absurd hok hstatus

theorem PinTransition.isSet {o : Outcome} (h : PinTransition d c o)
    (hset : d.storedPin.isSome) : (d.after o).storedPin.isSome := by
  cases h with
  | unchanged _ hstored => rwa [hstored]
  | wrong _ _ _ _ _ _ _ _ _ _ _ _ hafter => simp [hafter]
  | token _ _ _ _ _ _ _ _ _ _ hafter => simp [hafter]
  | set _ _ _ _ _ _ _ _ _ hafter => simp [hafter]
  | changed _ _ _ _ _ _ _ _ _ _ _ _ _ _ hafter => simp [hafter]

theorem keepsSession_step {state : Bool × Bytes 32 × ℕ} (h : KeepsSession state p d)
    (hleaves : LeavesToken d c)
    (hnames : c.pinSubCmd ≠ none → c.NamesProtocol 0x01 p)
    (hstep : d.step c = some d') : KeepsSession state p d' := by
  obtain ⟨o, ho, rfl⟩ := step_iff.1 hstep
  obtain ⟨hlen, hcmd, hkind⟩ := hleaves
  have hset := (pinPage_transition ho (noReset_of_cmd (by rw [hcmd]; decide))).isSet
    h.pinSet
  have hnot : ∀ subCmd, subCmd ≠ 0x01 → c.pinSubCmd = some subCmd →
      o.status ≠ some 0x00 := by
    intro subCmd hne hsub
    rcases hkind with hretries | hfailed
    · rw [hretries, Option.some.injEq] at hsub
      exact absurd hsub.symm hne
    · exact hfailed o ho
  rw [outcome_eq hlen, hcmd] at ho
  have hactivates : c.ActivatesProtocol d p := by
    rw [Command.ActivatesProtocol, h.protocol]
    exact hnames
  have hframe := processClientPin_frame hlen hcmd hactivates o ho
  refine ⟨?_, hframe.protocol (.inr h.protocol), hset⟩
  rw [← h.token]
  cases (processClientPin_effect hlen hcmd o ho).1 with
  | quiet _ _ htoken => exact htoken
  | agreed _ _ _ hagree =>
      exact (hframe.agreed hagree).resolve_right (hnot 0x02 (by decide) hagree)
  | saved _ _ _ _ htoken => exact htoken
  | changed _ _ _ _ _ _ _ _ _ htoken => exact htoken
  | refused _ _ _ _ _ htoken => exact htoken
  | wrong _ _ _ _ _ _ _ htoken => exact htoken
  | issued _ _ _ _ _ _ _ hsub hok =>
      rcases hsub with hsub | hsub
      · exact absurd hok (hnot 0x05 (by decide) hsub)
      · exact absurd hok (hnot 0x09 (by decide) hsub)

theorem keepsSession_run {state : Bool × Bytes 32 × ℕ} {sequence : List Command}
    (h : KeepsSession state p d) (hrun : Run Device.step d sequence d')
    (hleaves : Run.Guarded Device.step LeavesToken d sequence)
    (hnames : ∀ c ∈ sequence, c.pinSubCmd ≠ none → c.NamesProtocol 0x01 p) :
    KeepsSession state p d' := by
  have hguard : Run.Guarded Device.step (fun _ c => c.pinSubCmd ≠ none →
      c.NamesProtocol 0x01 p) d sequence := .of_forall fun c hc _ => hnames c hc
  refine Run.invariant_of_guard (P := KeepsSession state p) ?_ hrun
    (hleaves.and hguard) h
  intro s c t hs hboth hstep
  exact keepsSession_step hs hboth.1 hboth.2 hstep

end

/-! ## The result -/

theorem paramCheck_congr {env : Env} {s t : PinSession} {reqLen : ℕ} {cmd : UInt8}
    (htoken : s.tokenState = t.tokenState)
    (hprotocol : s.activePinProtocol = t.activePinProtocol) :
    paramCheck env s reqLen cmd = paramCheck env t reqLen cmd := by
  simp only [PinSession.tokenState, Prod.mk.injEq] at htoken
  obtain ⟨hhas, hkey, hlength⟩ := htoken
  have htokenKey : s.tokenKey = t.tokenKey := by
    rw [PinSession.tokenKey, PinSession.tokenKey, hkey, hlength, hprotocol]
  have hcmKey : s.cmKey = t.cmKey := by
    rw [PinSession.cmKey, PinSession.cmKey, hkey, hlength]
  simp only [paramCheck, pinAuthCheck, pinAuthValid, cmAuthorized, hhas, htokenKey,
    hcmKey, hprotocol]

/-- The parameter of the request is the HMAC of its message under the key, cut to
the length prescribed by protocol `p`. -/
def Command.AuthenticUnder (c : Command) (key : List UInt8) (p : ℕ) : Prop :=
  ∃ msg param, (authMessage c.env c.reqLen (c.req 0)).run c.req = some msg ∧
    c.HasString (paramKey (c.req 0)) param ∧ param.length = prescribedLen p ∧
    param = (hmacSha256 key msg).val.take (prescribedLen p)

section

variable {d d' : Device} {c : Command} {s : PinSession} {p : ℕ}

theorem pinAuthCheck_authentic {cdhKey key : ℕ}
    (hcheck : (pinAuthCheck s c.reqLen cdhKey key).run c.req = some (some true)) :
    ∃ msg param, (cdhMessage c.reqLen cdhKey).run c.req = some msg ∧
      c.HasString key param ∧ param.length = prescribedLen s.activePinProtocol ∧
      param = (hmacSha256 s.tokenKey msg).val.take
        (prescribedLen s.activePinProtocol) := by
  obtain ⟨q, msg, hmsg, hfound, hmac⟩ := pinAuthCheck_spec _ hcheck rfl
  have hlength : (c.req.slice q (prescribedLen s.activePinProtocol)).length =
      prescribedLen s.activePinProtocol := Mem.slice_length ..
  refine ⟨msg, _, hmsg, ⟨q, ?_, ?_⟩, hlength, hmac⟩
  · rw [hlength]
    exact hfound
  · rw [hlength]

theorem cmAuthorized_authentic {subCmd : ℕ}
    (hauthorized : (cmAuthorized c.env s c.reqLen subCmd).run c.req = some true)
    (hnames : c.NamesProtocol 0x03 s.activePinProtocol) :
    ∃ msg param, (cmMessage c.env c.reqLen subCmd).run c.req = some msg ∧
      c.HasString 0x04 param ∧ param.length = prescribedLen s.activePinProtocol ∧
      param = (hmacSha256 s.cmKey msg).val.take
        (prescribedLen s.activePinProtocol) := by
  obtain ⟨msg, param, h⟩ := cmAuthorized_accepts _ hauthorized rfl
  obtain ⟨proto, hproto, hlength⟩ := h.length
  rw [hnames proto hproto] at hlength
  have hprescribed : param.length = prescribedLen s.activePinProtocol := hlength
  exact ⟨msg, param, h.message, h.found, hprescribed, hprescribed ▸ h.mac⟩

theorem paramCheck_authentic (hhas : 0 < s.pinTokenLen)
    (hcmd : c.req 0 = 0x01 ∨ c.req 0 = 0x02 ∨ c.req 0 = 0x0A)
    (hnames : c.req 0 = 0x0A → c.NamesProtocol 0x03 s.activePinProtocol)
    (hcheck : (paramCheck c.env s c.reqLen (c.req 0)).run c.req = some (some true)) :
    c.AuthenticUnder (s.pinToken.val.take s.pinTokenLen) s.activePinProtocol := by
  have htokenKey : s.tokenKey = s.pinToken.val.take s.pinTokenLen := by
    rw [PinSession.tokenKey, if_pos hhas]
  have hcmKey : s.cmKey = s.pinToken.val.take s.pinTokenLen := by
    rw [PinSession.cmKey, if_pos hhas]
  unfold Command.AuthenticUnder
  rcases hcmd with hcmd | hcmd | hcmd
  · rw [hcmd] at hcheck ⊢
    rw [← htokenKey]
    exact pinAuthCheck_authentic hcheck
  · rw [hcmd] at hcheck ⊢
    rw [← htokenKey]
    exact pinAuthCheck_authentic hcheck
  · have hmanage := hnames hcmd
    rw [hcmd] at hcheck ⊢
    have hmake : ¬ (0x0A : UInt8) = 0x01 := by decide
    have hget : ¬ (0x0A : UInt8) = 0x02 := by decide
    simp only [paramCheck, if_neg hmake, if_neg hget, run_bind_eq_some, run_pure,
      Option.some.injEq] at hcheck
    obtain ⟨subCmd, hsub, authorized, hauthorized, rfl⟩ := hcheck
    obtain ⟨msg, param, hmsg, hparam⟩ := cmAuthorized_authentic hauthorized hmanage
    rw [← hcmKey]
    refine ⟨msg, param, ?_, hparam⟩
    simp only [authMessage, if_neg hmake, if_neg hget, run_bind, hsub,
      Option.bind_some, hmsg]

theorem outcome_decided {o : Outcome} (hset : d.storedPin.isSome) (hlen : c.reqLen ≠ 0)
    (hcmd : c.req 0 = 0x01 ∨ c.req 0 = 0x02 ∨ c.req 0 = 0x0A)
    (ho : d.outcome c = some o) :
    DecidedBy o ((paramCheck c.env d.pin c.reqLen (c.req 0)).run c.req) := by
  rw [outcome_eq hlen] at ho
  rcases hcmd with hcmd | hcmd | hcmd
  · rw [hcmd] at ho ⊢
    exact makeCredential_decided (d := d.onChannel c.cid) o ho
  · rw [hcmd] at ho ⊢
    exact getAssertion_decided (d := d.onChannel c.cid) o ho
  · rw [hcmd] at ho ⊢
    have hload : (pinLoad d.flash.mem).isSome := storedPin_isSome_iff.1 hset
    exact credentialManagement_decided (d := d.onChannel c.cid) hload o ho

end

/-- Where every request names the protocol of the token or none, the sequence does
not change what the three commands make of a pinUvAuthParam, and they accept only the
HMAC of the length prescribed by that protocol. -/
theorem tokenProtocol {d d' : Device} {p : ℕ} {sequence : List Command} {c : Command}
    (hissued : TokenIssued d p) (hrun : Run Device.step d sequence d')
    (hleaves : Run.Guarded Device.step LeavesToken d sequence)
    (hnames : ∀ c ∈ sequence, c.pinSubCmd ≠ none → c.NamesProtocol 0x01 p)
    (hlen : c.reqLen ≠ 0)
    (hcmd : c.req 0 = 0x01 ∨ c.req 0 = 0x02 ∨ c.req 0 = 0x0A)
    (hmanage : c.req 0 = 0x0A → c.NamesProtocol 0x03 p) :
    (paramCheck c.env d'.pin c.reqLen (c.req 0)).run c.req =
        (paramCheck c.env d.pin c.reqLen (c.req 0)).run c.req ∧
      ((paramCheck c.env d'.pin c.reqLen (c.req 0)).run c.req = some (some true) →
        c.AuthenticUnder (d.pin.pinToken.val.take d.pin.pinTokenLen) p) ∧
      ∀ o, d'.outcome c = some o →
        DecidedBy o ((paramCheck c.env d.pin c.reqLen (c.req 0)).run c.req) := by
  obtain ⟨-, hlength, -, hissue⟩ := hissued.session
  have hkept := keepsSession_run hissue hrun hleaves hnames
  have hsame : paramCheck c.env d'.pin c.reqLen (c.req 0) =
      paramCheck c.env d.pin c.reqLen (c.req 0) :=
    paramCheck_congr hkept.token (hkept.protocol.trans hissue.protocol.symm)
  rw [hsame]
  refine ⟨rfl, fun hcheck => ?_, fun o ho => ?_⟩
  · have hauthentic := paramCheck_authentic hlength hcmd
      (by rw [hissue.protocol]; exact hmanage) hcheck
    rwa [hissue.protocol] at hauthentic
  · rw [← hsame]
    exact outcome_decided hkept.pinSet hlen hcmd ho

def retriesUnder (proto : UInt8) : Command :=
  hostCommand [0x06, 0xA2, 0x01, proto, 0x02, 0x01]

/-- MakeCredential is accepted under the token, no longer after getPINRetries under
protocol 2, and still after getPINRetries under protocol 1. -/
theorem retriesUnder_runs : ((exec Device.step (Device.powerUp (pinFlash 8))
    [agreeCommand]).any fun d₀ => (d₀.outcome tokenCommand).any fun o =>
      decide (o.status = some 0x00 ∧
        (paramCheck hostEnv (d₀.after o).pin uvCommand.reqLen 0x01).run uvCommand.req =
          some (some true)) &&
      (((d₀.after o).step (retriesUnder 1)).isSome &&
      ((d₀.after o).step (retriesUnder 2)).any fun d' =>
        decide ((paramCheck hostEnv d'.pin uvCommand.reqLen 0x01).run uvCommand.req ≠
          some (some true)))) = true := by
  decide +kernel

theorem token_then_retries : ∃ d₁ d₂ d : Device, TokenIssued d 1 ∧
    d.step (retriesUnder 1) = some d₁ ∧ d.step (retriesUnder 2) = some d₂ ∧
    (paramCheck hostEnv d.pin uvCommand.reqLen 0x01).run uvCommand.req =
      some (some true) ∧
    (paramCheck hostEnv d₂.pin uvCommand.reqLen 0x01).run uvCommand.req ≠
      some (some true) := by
  obtain ⟨d₀, -, h⟩ := (Option.any_eq_true _ _).1 retriesUnder_runs
  obtain ⟨o, ho, h⟩ := (Option.any_eq_true _ _).1 h
  obtain ⟨hissue, h⟩ := Bool.and_eq_true_iff.1 h
  obtain ⟨hone, htwo⟩ := Bool.and_eq_true_iff.1 h
  obtain ⟨hok, hbefore⟩ := of_decide_eq_true hissue
  obtain ⟨d₁, hd₁⟩ := Option.isSome_iff_exists.1 hone
  obtain ⟨d₂, hd₂, hafter⟩ := (Option.any_eq_true _ _).1 htwo
  have hissued : TokenIssued (d₀.after o) 1 :=
    ⟨d₀, tokenCommand, o, ho, rfl, .inl (by decide +kernel), hok, some 1,
      by decide +kernel, rfl⟩
  exact ⟨d₁, d₂, _, hissued, hd₁, hd₂, hbefore, of_decide_eq_true hafter⟩

theorem leavesToken_retriesUnder (d : Device) {proto : UInt8}
    (hproto : proto = 1 ∨ proto = 2) :
    Run.Guarded Device.step LeavesToken d [retriesUnder proto] := by
  refine .single ?_
  rcases hproto with rfl | rfl <;>
    exact ⟨by decide, by decide, .inl (by decide +kernel)⟩

theorem tokenProtocol_retries : ∃ d d' : Device,
    d.step (retriesUnder 1) = some d' ∧
      (paramCheck hostEnv d'.pin uvCommand.reqLen 0x01).run uvCommand.req =
        some (some true) := by
  obtain ⟨d', -, d, hissued, hd', -, hbefore, -⟩ := token_then_retries
  have hnames : ∀ c ∈ [retriesUnder 1], c.pinSubCmd ≠ none →
      c.NamesProtocol 0x01 1 := by
    intro c hc _ proto hproto
    rw [List.mem_singleton] at hc
    subst hc
    have hone : (getCborMapInt 1 ((retriesUnder 1).reqLen - 1) 0x01).run
        (retriesUnder 1).req = some (some 1) := by decide +kernel
    rw [hone, Option.some.injEq] at hproto
    rw [← hproto]
    rfl
  refine ⟨d, d', hd', ?_⟩
  rw [← hbefore]
  exact (tokenProtocol (c := uvCommand) hissued (.single hd')
    (leavesToken_retriesUnder d (.inl rfl)) hnames (by decide)
    (.inl (by decide)) (fun hcm => absurd hcm (by decide))).1

/-- After getPINRetries under protocol 2 the token of protocol 1 is rejected. -/
theorem retries_switch_protocol :
    ¬ ∀ (d d' : Device) (p : ℕ) (sequence : List Command) (c : Command),
      TokenIssued d p → Run Device.step d sequence d' →
      Run.Guarded Device.step LeavesToken d sequence → c.reqLen ≠ 0 →
      (c.req 0 = 0x01 ∨ c.req 0 = 0x02 ∨ c.req 0 = 0x0A) →
      (paramCheck c.env d'.pin c.reqLen (c.req 0)).run c.req =
        (paramCheck c.env d.pin c.reqLen (c.req 0)).run c.req := by
  intro hclaim
  obtain ⟨-, d', d, hissued, -, hd', hbefore, hafter⟩ := token_then_retries
  have hsame := hclaim d d' 1 [retriesUnder 2] uvCommand hissued
    (.single hd') (leavesToken_retriesUnder d (.inr rfl)) (by decide) (.inl (by decide))
  exact hafter (hsame.trans hbefore)

end UnsoloKey
