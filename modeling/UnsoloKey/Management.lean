import UnsoloKey.PinLockout
import Mathlib.Tactic

/-!
# CredentialManagement behind the token

With a PIN set, every CredentialManagement request goes through one check of its
pinUvAuthParam.  A request which passes it carries the truncated HMAC, under the
token of the session, of a message which starts with its subcommand; any other
request is answered with one status byte and leaves no trace.
-/

namespace UnsoloKey

open Rd

/-- The check has found the parameter to be the truncated HMAC of the message. -/
structure CmAccepts (env : Env) (s : PinSession) (reqLen subCmd : ℕ) (m : Mem)
    (msg param : List UInt8) : Prop where
  token : s.hasPinToken = true
  message : (cmMessage env reqLen subCmd).run m = some msg
  found : ∃ p, (getCborMapString 1 (reqLen - 1) 0x04).run m =
    some (some (p, param.length)) ∧ m.slice p param.length = param
  length : ∃ proto, (getCborMapInt 1 (reqLen - 1) 0x03).run m = some proto ∧
    param.length = if proto.getD s.activePinProtocol = 2 then 32 else 16
  mac : param = (hmacSha256 s.cmKey msg).val.take param.length

section

variable {env : Env} {s : PinSession} {d : Device} {reqLen subCmd : ℕ} {m : Mem}

theorem cmAuthorized_accepts :
    (cmAuthorized env s reqLen subCmd).Returns m fun ok =>
      ok = true → ∃ msg param, CmAccepts env s reqLen subCmd m msg param := by
  unfold cmAuthorized
  refine Returns.bind_run fun proto hproto => Returns.bind_run fun msg hmsg =>
    Returns.bind_run fun pinAuth hpinAuth => ?_
  cases pinAuth with
  | none => exact Returns.pure (by simp)
  | some found =>
      rcases found with ⟨p, n⟩
      apply Returns.ite
      · intro _
        exact Returns.pure (by simp)
      · intro hok
        rw [not_or, not_not, not_not] at hok
        obtain ⟨htoken, rfl⟩ := hok
        refine Returns.bind_run fun param hparam => Returns.pure fun hmac => ?_
        rw [run_bytes, Option.some.injEq] at hparam
        have hlength : param.length =
            if proto.getD s.activePinProtocol = 2 then 32 else 16 := by
          rw [← hparam, Mem.slice_length]
        rw [← hlength] at hpinAuth hparam hmac
        exact ⟨msg, param, htoken, hmsg, ⟨p, hpinAuth, hparam⟩,
          ⟨proto, hproto, hlength⟩, (of_decide_eq_true hmac).symm⟩

theorem cmMessage_head :
    (cmMessage env reqLen subCmd).Returns m fun msg =>
      ∃ rest, msg = UInt8.ofNat subCmd :: rest := by
  unfold cmMessage
  apply Returns.ite
  · intro _
    refine Returns.bind fun item => ?_
    cases item.pointer env with
    | none => exact Returns.pure ⟨[], rfl⟩
    | some found =>
        apply Returns.ite
        · intro _
          exact Returns.bind fun params => Returns.pure ⟨params, rfl⟩
        · intro _
          exact Returns.pure ⟨[], rfl⟩
  · intro _
    exact Returns.pure ⟨[], rfl⟩

def cmSubCmd (reqLen : ℕ) : Rd ℕ := do
  return u8 ((← getCborMapInt 1 (reqLen - 1) 0x01).getD 0)

theorem credentialManagement_cases (hset : (pinLoad d.flash.mem).isSome) :
    (credentialManagement env d reqLen).Returns m fun o =>
      o = d.reply [0x33] ∨ ∃ subCmd msg param o',
        (cmSubCmd reqLen).run m = some subCmd ∧
        (cmAuthorized env d.pin reqLen subCmd).run m = some true ∧
        CmAccepts env d.pin reqLen subCmd m msg param ∧
        (cmDispatch env d reqLen subCmd).run m = some o' ∧
        o = { o' with verified := some d.pin.cmKey } := by
  unfold credentialManagement
  refine Returns.bind_run fun sub hsub => ?_
  have hread : (cmSubCmd reqLen).run m = some (u8 (sub.getD 0)) := by
    simp [cmSubCmd, hsub]
  rw [if_pos hset]
  refine Returns.bind_run fun authorized hauthorized => ?_
  apply Returns.ite
  · intro _
    exact Returns.pure (.inl rfl)
  · intro hok
    rw [not_not] at hok
    subst hok
    obtain ⟨msg, param, haccepts⟩ := cmAuthorized_accepts _ hauthorized rfl
    refine Returns.bind_run fun o' ho' => Returns.pure (.inr ?_)
    exact ⟨_, msg, param, o', hread, hauthorized, haccepts, ho', rfl⟩

end

/-- The pinUvAuthParam of the request is the 16- or 32-byte prefix of the HMAC of
some message which starts with the subcommand byte. -/
def Command.AuthenticParam (c : Command) (s : PinSession) : Prop :=
  ∃ subCmd p n rest, (cmSubCmd c.reqLen).run c.req = some subCmd ∧
    (getCborMapString 1 (c.reqLen - 1) 0x04).run c.req = some (some (p, n)) ∧
    (n = 16 ∨ n = 32) ∧
    c.req.slice p n =
      (hmacSha256 s.cmKey (UInt8.ofNat subCmd :: rest)).val.take n

theorem CmAccepts.authentic {c : Command} {s : PinSession} {subCmd : ℕ}
    {msg param : List UInt8} (h : CmAccepts c.env s c.reqLen subCmd c.req msg param)
    (hsub : (cmSubCmd c.reqLen).run c.req = some subCmd) : c.AuthenticParam s := by
  obtain ⟨rest, hmsg⟩ := cmMessage_head msg h.message
  obtain ⟨p, hfound, hparam⟩ := h.found
  obtain ⟨proto, -, hlength⟩ := h.length
  refine ⟨subCmd, p, param.length, rest, hsub, hfound, ?_, ?_⟩
  · split at hlength
    · exact .inr hlength
    · exact .inl hlength
  · rw [hparam, ← hmsg]
    exact h.mac

/-- Flash and the cursors of the enumerations are as they were. -/
structure LeavesStore (d d' : Device) : Prop where
  flash : d'.flash = d.flash
  enumRpIdx : d'.ctap.gEnumRpIdx = d.ctap.gEnumRpIdx
  enumCredIdx : d'.ctap.gEnumCredIdx = d.ctap.gEnumCredIdx
  enumRpHash : d'.ctap.gEnumRpHash = d.ctap.gEnumRpHash

/-- Without a token, or without an authentic parameter, CredentialManagement
says nothing and changes nothing. -/
theorem credentialManagement_closed {d : Device} {c : Command} {o : Outcome}
    (hset : d.storedPin.isSome) (hlen : c.reqLen ≠ 0) (hcmd : c.req 0 = 0x0A)
    (ho : d.outcome c = some o)
    (hclosed : d.pin.hasPinToken = false ∨ ¬ c.AuthenticParam d.pin) :
    o.resp = [0x33] ∧ LeavesStore d (d.after o) := by
  rw [outcome_eq hlen, hcmd] at ho
  have hload : (pinLoad d.flash.mem).isSome := storedPin_isSome_iff.1 hset
  rcases credentialManagement_cases (d := d.onChannel c.cid) hload o ho with
    rfl | ⟨subCmd, msg, param, o', hsub, -, haccepts, -, -⟩
  · exact ⟨rfl, rfl, rfl, rfl, rfl⟩
  · rcases hclosed with hnone | hparam
    · have htoken : d.pin.hasPinToken = true := haccepts.token
      rw [hnone] at htoken
      cases htoken
    · exact absurd (haccepts.authentic hsub) hparam

theorem credentialManagement_closed_enumerate : ∃ o,
    (Device.powerUp (pinFlash 8)).outcome (hostCommand [0x0A, 0xA1, 0x01, 0x02]) =
      some o ∧ o.resp = [0x33] := by
  have hruns : ((Device.powerUp (pinFlash 8)).outcome
      (hostCommand [0x0A, 0xA1, 0x01, 0x02])).isSome := by decide +kernel
  obtain ⟨o, ho⟩ := Option.isSome_iff_exists.1 hruns
  have hset : (Device.powerUp (pinFlash 8)).storedPin.isSome := by
    rw [pinFlash_storedPin]
    rfl
  exact ⟨o, ho, (credentialManagement_closed hset (by decide) (by decide) ho
    (.inl rfl)).1⟩

end UnsoloKey
