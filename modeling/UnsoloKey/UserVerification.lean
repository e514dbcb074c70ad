import UnsoloKey.Assertion
import UnsoloKey.Management
import UnsoloKey.Registration
import Mathlib.Tactic

/-!
# User verification and the stored PIN

A response with the UV bit, or a CredentialManagement request accepted while a
PIN is set, rests on a pinUvAuthToken.  The results follow the token back to the
command which issued it.  changePIN and authenticatorReset leave a token valid,
so the runs considered are those in which neither takes effect under one.
-/

namespace UnsoloKey

open Rd Trace

/-- The token as the HMAC key of a later command. -/
def PinSession.token (s : PinSession) : List UInt8 :=
  s.pinToken.val.take s.pinTokenLen

/-- A changePIN request which saves a new PIN. -/
def ChangeTaken (d : Device) (c : Command) : Prop :=
  ∃ s newPinEnc p pinHash, changeRequest d c = some (s, newPinEnc, p.pinHash) ∧
    pinLoad d.flash.mem = some p ∧ s.newPinHash newPinEnc = .ok pinHash

/-- While a token is valid the command neither changes the PIN nor resets. -/
def KeepsToken (d : Device) (c : Command) : Prop :=
  d.pin.hasPinToken = true → ¬ ChangeTaken d c ∧ ¬ c.ResetTaken

/-- The command is no successful setPIN, changePIN or reset. -/
def NoPinChange (d : Device) (c : Command) : Prop :=
  ∀ o, d.outcome c = some o → o.status = some 0x00 →
    c.pinSubCmd ≠ some 0x03 ∧ c.pinSubCmd ≠ some 0x04 ∧
      (c.reqLen ≠ 0 → c.req 0 ≠ 0x07)

/-- In the run `before` from power-up the token was issued by a command which
matched `pinHash`, and the PIN has not been changed since. -/
inductive TokenIssue (mem : Mem) (before : List Command) (pinHash : Bytes 16)
    (token : List UInt8) : Prop
  | issue (earlier later : List Command) (c : Command) (d : Device) (o : Outcome)
      (hsplit : before = earlier ++ c :: later)
      (hrun : Run Device.step (Device.powerUp mem) earlier d)
      (ho : d.outcome c = some o)
      (hsub : c.pinSubCmd = some 0x05 ∨ c.pinSubCmd = some 0x09)
      (hstatus : o.status = some 0x00) (hcorrect : d.correctEntry o = true)
      (hguess : o.guess = some pinHash) (htoken : o.pin.token = token)
      (hlater : Run.Guarded Device.step NoPinChange (d.after o) later)

/-- What a valid token guarantees after the run `before`. -/
def TokenFresh (mem : Mem) (before : List Command) (d : Device) : Prop :=
  d.pin.hasPinToken = true → 0 < d.pin.pinTokenLen ∧
    ∃ pinHash retries, d.storedPin = some (pinHash, retries) ∧
      TokenIssue mem before pinHash d.pin.token

theorem token_eq {s t : PinSession} (h : s.tokenState = t.tokenState) :
    s.hasPinToken = t.hasPinToken ∧ s.pinTokenLen = t.pinTokenLen ∧
      s.token = t.token := by
  simp only [PinSession.tokenState, Prod.mk.injEq] at h
  exact ⟨h.1, h.2.2, by rw [PinSession.token, PinSession.token, h.2.1, h.2.2]⟩

section

variable {mem : Mem} {before : List Command} {d : Device} {c : Command}
  {o : Outcome}

theorem TokenIssue.snoc {pinHash : Bytes 16} {token : List UInt8}
    (h : TokenIssue mem before pinHash token)
    (hrun : Run Device.step (Device.powerUp mem) before d)
    (hkeep : NoPinChange d c) : TokenIssue mem (before ++ [c]) pinHash token := by
  obtain ⟨earlier, later, c₀, d₀, o₀, hsplit, hrun₀, ho, hsub, hstatus, hcorrect,
    hguess, htoken, hlater⟩ := h
  refine .issue earlier (later ++ [c]) c₀ d₀ o₀ (by simp [hsplit]) hrun₀ ho hsub
    hstatus hcorrect hguess htoken (hlater.append fun t ht => ?_)
  have hall : Run Device.step (Device.powerUp mem) before t := by
    rw [hsplit]
    exact hrun₀.append (Run.cons_iff.2 ⟨_, step_iff.2 ⟨o₀, ho, rfl⟩, ht⟩)
  rw [hall.unique hrun]
  exact .single hkeep

theorem TokenFresh.snoc_same (h : TokenFresh mem before d)
    (hrun : Run Device.step (Device.powerUp mem) before d)
    (htoken : o.pin.tokenState = d.pin.tokenState)
    (hpin : ∀ pinHash retries, d.storedPin = some (pinHash, retries) →
      ∃ retries', (d.after o).storedPin = some (pinHash, retries'))
    (hkeep : NoPinChange d c) : TokenFresh mem (before ++ [c]) (d.after o) := by
  obtain ⟨hhas, hlen, hsame⟩ := token_eq htoken
  intro hvalid
  have hbefore : d.pin.hasPinToken = true := hhas ▸ hvalid
  obtain ⟨hpos, pinHash, retries, hstored, hissue⟩ := h hbefore
  obtain ⟨retries', hafter⟩ := hpin pinHash retries hstored
  refine ⟨hlen ▸ hpos, pinHash, retries', hafter, ?_⟩
  change TokenIssue mem (before ++ [c]) pinHash o.pin.token
  rw [hsame]
  exact hissue.snoc hrun hkeep

theorem noPinChange_of (ho : d.outcome c = some o)
    (h : o.status = some 0x00 → c.pinSubCmd ≠ some 0x03 ∧
      c.pinSubCmd ≠ some 0x04 ∧ (c.reqLen ≠ 0 → c.req 0 ≠ 0x07)) :
    NoPinChange d c := by
  intro o' ho' hstatus
  rw [ho, Option.some.injEq] at ho'
  exact h (ho' ▸ hstatus)

theorem tokenFresh_step (h : TokenFresh mem before d)
    (hrun : Run Device.step (Device.powerUp mem) before d)
    (hguard : KeepsToken d c) (ho : d.outcome c = some o) :
    TokenFresh mem (before ++ [c]) (d.after o) := by
  have hsame : (d.after o).storedPin = d.storedPin → ∀ pinHash retries,
      d.storedPin = some (pinHash, retries) →
      ∃ retries', (d.after o).storedPin = some (pinHash, retries') :=
    fun heq pinHash retries hstored => ⟨retries, heq.trans hstored⟩
  cases outcome_effect ho with
  | keeps hother hk hreset =>
      refine h.snoc_same hrun (by rw [hk.pin]) (hsame (storedPin_keeps hk.ops))
        (noPinChange_of ho fun hstatus => ?_)
      have hsub : c.pinSubCmd = none := by
        unfold Command.pinSubCmd
        by_cases hlen : c.reqLen = 0
        · simp [hlen]
        · simp [hother hlen]
      exact ⟨by simp [hsub], by simp [hsub], fun hlen hcmd =>
        hreset hlen hcmd hstatus⟩
  | reset htaken _ hpin =>
      intro hvalid
      have hbefore : d.pin.hasPinToken = true := by
        rw [← hpin]
        exact hvalid
      exact absurd htaken (hguard hbefore).2
  | clientPin hlen hcmd hp _ =>
      have hnoreset : c.reqLen ≠ 0 → c.req 0 ≠ 0x07 := by
        intro _
        rw [hcmd]
        decide
      cases hp with
      | quiet hops _ htoken hstatus =>
          refine h.snoc_same hrun htoken (hsame (storedPin_quiet hops))
            (noPinChange_of ho fun hzero => ?_)
          rw [hstatus hzero]
          exact ⟨by simp, by simp, hnoreset⟩
      | agreed _ _ htoken =>
          intro hvalid
          change o.pin.hasPinToken = true at hvalid
          rw [htoken] at hvalid
          cases hvalid
      | saved pinHash hload _ _ htoken =>
          intro hvalid
          have hbefore : d.pin.hasPinToken = true := (token_eq htoken).1 ▸ hvalid
          obtain ⟨_, _, _, hstored, _⟩ := h hbefore
          rw [Device.storedPin, storedPin_eq_none_iff.2 hload] at hstored
          cases hstored
      | changed p s newPinEnc pinHash hload hrequest hnew _ _ htoken =>
          intro hvalid
          have hbefore : d.pin.hasPinToken = true := (token_eq htoken).1 ▸ hvalid
          exact absurd ⟨s, newPinEnc, p, pinHash, hrequest, hload, hnew⟩
            (hguard hbefore).1
      | refused p _ _ hops _ htoken hstatus =>
          exact h.snoc_same hrun htoken (hsame (storedPin_quiet hops))
            (noPinChange_of ho fun hzero => absurd hzero hstatus)
      | wrong p guess hload _ _ hops _ htoken hstatus =>
          refine h.snoc_same hrun htoken (fun pinHash retries hstored => ?_)
            (noPinChange_of ho fun hzero => absurd hzero hstatus)
          rw [storedPin_some hload, Option.some.injEq, Prod.mk.injEq] at hstored
          refine ⟨p.decremented.retries, ?_⟩
          rw [after_storedPin, hops, storedPin_pinDecrementRetries hload, ← hstored.1]
          rfl
      | issued p hload _ hops hguess _ hlen hsub hstatus =>
          intro _
          refine ⟨hlen, p.pinHash, 8, ?_, ?_⟩
          · rw [after_storedPin, hops, storedPin_pinResetRetries hload]
          · refine .issue before [] c d o rfl hrun ho hsub hstatus ?_ hguess rfl .nil
            simp [Device.correctEntry, storedPin_some hload, hguess]

theorem tokenFresh_run (hrun : Run Device.step (Device.powerUp mem) before d)
    (hguard : Run.Guarded Device.step KeepsToken (Device.powerUp mem) before) :
    TokenFresh mem before d := by
  generalize hs : Device.powerUp mem = s at hrun hguard
  induction hrun with
  | nil =>
      intro hvalid
      rw [← hs] at hvalid
      cases hvalid
  | @snoc t u as a hrun hstep ih =>
      subst hs
      obtain ⟨o, ho, rfl⟩ := step_iff.1 hstep
      exact tokenFresh_step (ih hguard.left) hrun
        (hguard as a [] t rfl hrun) ho

end

/-! ## The commands which consume the token -/

section

variable {m : Mem} {env : Env} {d : Device} {reqLen : ℕ}

/-- The UV bit is set only after a pinUvAuthParam has verified. -/
def Outcome.UvVerified (o : Outcome) : Prop :=
  SaysUv o.resp → o.verified.isSome

theorem error_uvVerified {o : Outcome} {status : UInt8} (hresp : o.resp = [status])
    (h : status ≠ 0x00) : o.UvVerified := by
  intro huv
  rw [hresp] at huv
  exact absurd huv (not_saysUv_error h)

theorem makeCredential_uv :
    (makeCredential env d reqLen).Returns m Outcome.UvVerified := by
  intro o ho
  cases makeCredential_effect o ho with
  | refused status hstatus _ ho =>
      subst ho
      exact error_uvVerified rfl hstatus
  | untouched cdh verified _ hpresence ho =>
      subst ho
      exact error_uvVerified rfl (mt (presence_status_eq_zero_iff _).1 hpresence)
  | registered cdh verified _ _ h =>
      cases h with
      | excluded _ ho =>
          subst ho
          exact error_uvVerified rfl (by decide)
      | full _ _ _ ho =>
          subst ho
          exact error_uvVerified rfl (by decide)
      | saved _ _ _ _ _ _ _ ho =>
          subst ho
          exact saysUv_attestation

theorem getAssertion_uv :
    (getAssertion env d reqLen).Returns m Outcome.UvVerified := by
  intro o ho
  cases getAssertion_effect o ho with
  | refused status hstatus hresp _ => exact error_uvVerified hresp hstatus
  | asserted ctap plan cdhBuf hdecision hselect _ _ hresp _ _ =>
      intro huv
      rw [hresp] at huv
      rw [getAssertion_verified hdecision o ho]
      exact saysUv_assertion hselect.total_lt huv

theorem credentialManagement_verified (hset : d.storedPin.isSome) :
    (credentialManagement env d reqLen).Returns m fun o =>
      o.status ≠ some 0x33 → o.verified.isSome := by
  intro o ho haccepted
  rcases credentialManagement_cases (storedPin_isSome_iff.1 hset) o ho with
    rfl | ⟨subCmd, msg, param, o', -, -, -, -, rfl⟩
  · exact absurd rfl haccepted
  · rfl

end

/-- The command claims that the user has been verified, or is accepted only if
the user has been. -/
def RestsOnUv (d : Device) (c : Command) (o : Outcome) : Prop :=
  c.reqLen ≠ 0 ∧ ((c.req 0 = 0x01 ∨ c.req 0 = 0x02) ∧ SaysUv o.resp ∨
    c.req 0 = 0x0A ∧ d.storedPin.isSome ∧ o.status ≠ some 0x33)

theorem outcome_verified {d : Device} {c : Command} {o : Outcome}
    (ho : d.outcome c = some o) (h : RestsOnUv d c o) : o.verified.isSome := by
  obtain ⟨hlen, h⟩ := h
  rw [outcome_eq hlen] at ho
  rcases h with ⟨hcmd | hcmd, huv⟩ | ⟨hcmd, hset, haccepted⟩
  · rw [hcmd] at ho
    exact makeCredential_uv o ho huv
  · rw [hcmd] at ho
    exact getAssertion_uv o ho huv
  · rw [hcmd] at ho
    exact credentialManagement_verified (d := d.onChannel c.cid) hset o ho haccepted

/-- User verification rests on the PIN now stored. -/
theorem uv_rests_on_pin {mem : Mem} {before : List Command} {d : Device}
    {c : Command} {o : Outcome}
    (hrun : Run Device.step (Device.powerUp mem) before d)
    (hguard : Run.Guarded Device.step KeepsToken (Device.powerUp mem) before)
    (ho : d.outcome c = some o) (huv : RestsOnUv d c o) :
    ∃ token pinHash retries, o.verified = some token ∧
      d.storedPin = some (pinHash, retries) ∧
      TokenIssue mem before pinHash token := by
  obtain ⟨key, hkey⟩ := Option.isSome_iff_exists.1 (outcome_verified ho huv)
  cases outcome_effect ho with
  | reset _ _ _ _ _ hnone =>
      rw [hnone] at hkey
      cases hkey
  | clientPin _ _ _ hnone =>
      rw [hnone] at hkey
      cases hkey
  | keeps _ h _ =>
      obtain ⟨hvalid, hsource⟩ := h.verified key hkey
      obtain ⟨hlen, pinHash, retries, hstored, hissue⟩ :=
        tokenFresh_run hrun hguard hvalid
      have htoken : key = d.pin.token := by
        rcases hsource with rfl | rfl
        · rw [PinSession.tokenKey, if_pos hlen, PinSession.token]
        · rw [PinSession.cmKey, if_pos hlen, PinSession.token]
      exact ⟨key, pinHash, retries, hkey, hstored, htoken ▸ hissue⟩

/-- MakeCredential with a pinUvAuthParam under the host's token. -/
def uvCommand : Command :=
  hostCommand ([0x01, 0xA5, 0x01, 0x58, 0x20] ++ List.replicate 32 0xC5 ++
    [0x02, 0xA1, 0x62, 0x69, 0x64, 0x61, 0x61] ++
    [0x03, 0xA1, 0x62, 0x69, 0x64, 0x41, 0x01] ++
    [0x04, 0x81, 0xA2, 0x63, 0x61, 0x6C, 0x67, 0x26, 0x64, 0x74, 0x79, 0x70, 0x65,
      0x6A, 0x70, 0x75, 0x62, 0x6C, 0x69, 0x63, 0x2D, 0x6B, 0x65, 0x79] ++
    [0x08, 0x50, 0xC1, 0xBF, 0x8A, 0x06, 0xE1, 0x59, 0x0C, 0x79, 0xC2, 0x6B, 0xD6,
      0x30, 0x2B, 0xFE, 0xC3, 0xEF])

def resetCommand : Command := hostCommand [0x07]

theorem saysUv_of_any {resp : List UInt8}
    (h : ((responseAuthData resp).any fun a => authDataFlags a &&& 0x04 ≠ 0) = true) :
    SaysUv resp := by
  obtain ⟨authData, hauth, hflags⟩ := (Option.any_eq_true _ _).1 h
  exact ⟨authData, hauth, of_decide_eq_true hflags⟩

theorem uvCommand_verified : ((exec Device.step (Device.powerUp (pinFlash 8))
    [agreeCommand, tokenCommand]).any fun d =>
      ((d.outcome uvCommand).any fun o => (responseAuthData o.resp).any fun a =>
        authDataFlags a &&& 0x04 ≠ 0) &&
      ((d.step resetCommand).any fun d' => (d'.outcome uvCommand).any fun o =>
        (responseAuthData o.resp).any fun a => authDataFlags a &&& 0x04 ≠ 0)) =
    true := by
  decide +kernel

theorem restsOnUv_uvCommand {d : Device} {o : Outcome} (h : SaysUv o.resp) :
    RestsOnUv d uvCommand o :=
  ⟨by decide, .inl ⟨.inl (by decide), h⟩⟩

theorem keepsToken_of_sub {d : Device} {c : Command} (hsub : c.pinSubCmd ≠ some 0x04)
    (hcmd : c.req 0 ≠ 0x07) : KeepsToken d c := by
  intro _
  refine ⟨?_, fun htaken => hcmd htaken.2.1⟩
  rintro ⟨s, newPinEnc, p, pinHash, hrequest, -, -⟩
  exact hsub (changeRequest_sub (by rw [hrequest]; rfl))

theorem uv_rests_on_pin_token : ∃ d o pinHash token,
    Run Device.step (Device.powerUp (pinFlash 8)) [agreeCommand, tokenCommand] d ∧
      d.outcome uvCommand = some o ∧ o.verified = some token ∧
      TokenIssue (pinFlash 8) [agreeCommand, tokenCommand] pinHash token := by
  obtain ⟨d, hd, hboth⟩ := (Option.any_eq_true _ _).1 uvCommand_verified
  obtain ⟨o, ho, huv⟩ := (Option.any_eq_true _ _).1 (Bool.and_eq_true_iff.1 hboth).1
  have hguard : Run.Guarded Device.step KeepsToken (Device.powerUp (pinFlash 8))
      [agreeCommand, tokenCommand] :=
    hostRun_guarded (fun _ => keepsToken_of_sub (by decide +kernel) (by decide))
      fun _ => keepsToken_of_sub (by decide +kernel) (by decide)
  obtain ⟨token, pinHash, _, hverified, _, hissue⟩ := uv_rests_on_pin
    (Run.exec_iff.1 hd) hguard ho (restsOnUv_uvCommand (saysUv_of_any huv))
  exact ⟨d, o, pinHash, token, Run.exec_iff.1 hd, ho, hverified, hissue⟩

/-- After a reset there is no PIN, but the token still sets the UV bit. -/
theorem uv_survives_reset :
    ¬ ∀ (mem : Mem) (before : List Command) (d : Device) (c : Command)
      (o : Outcome), Run Device.step (Device.powerUp mem) before d →
      d.outcome c = some o → RestsOnUv d c o →
      ∃ token pinHash retries, o.verified = some token ∧
        d.storedPin = some (pinHash, retries) ∧
        TokenIssue mem before pinHash token := by
  intro hclaim
  obtain ⟨d, hd, hboth⟩ := (Option.any_eq_true _ _).1 uvCommand_verified
  obtain ⟨d', hd', huv⟩ := (Option.any_eq_true _ _).1 (Bool.and_eq_true_iff.1 hboth).2
  obtain ⟨o, ho, huv⟩ := (Option.any_eq_true _ _).1 huv
  have hrun := (Run.exec_iff.1 hd).snoc hd'
  obtain ⟨_, _, _, _, hstored, _⟩ := hclaim (pinFlash 8) _ d' uvCommand o hrun ho
    (restsOnUv_uvCommand (saysUv_of_any huv))
  have hnone : d'.storedPin = none := by
    obtain ⟨r, hr, rfl⟩ := step_iff.1 hd'
    have hreset : d.outcome resetCommand =
        some (authenticatorReset hostEnv (d.onChannel 1)) := rfl
    rw [hreset, Option.some.injEq] at hr
    rw [after_storedPin, ← hr]
    exact storedPin_factoryReset d.flash.mem
  rw [hnone] at hstored
  cases hstored

end UnsoloKey
