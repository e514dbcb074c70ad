import UnsoloKey.CborExtent
import UnsoloKey.Management
import UnsoloKey.PinTransitions
import UnsoloKey.UserVerification
import Mathlib.Tactic

/-!
# What the MAC of CredentialManagement binds

The pinUvAuthParam is to authenticate the subcommand and the raw subCommandParams.
The span which is authenticated comes from `skip_cbor_item`, and over 1024 bytes
nothing of it is; the operation parses the parameters anew.  For parameters of an
extent of at most 1024 bytes the two agree, and equal messages name the same
target.
-/

namespace UnsoloKey

open Rd Trace

/-! ## Where an accessor stops -/

/-- The value under the key, and how many bytes are left from there. -/
def walkPlace (key data len : ℕ) : Rd (Option (ℕ × ℕ)) :=
  walkMap (isUintKey key) placeFound none none data len

/-! ## The message -/

/-- The subCommandParams of the request take at most 1024 bytes, or are missing. -/
def Command.ParamsCovered (c : Command) : Prop :=
  ∀ p remaining, (walkPlace 0x02 1 (c.reqLen - 1)).run c.req =
    some (some (p, remaining)) → c.req.extent p remaining ≤ 1024

/-- The message is the subcommand and all of the parameters. -/
inductive CmMessage (c : Command) (subCmd : ℕ) (msg : List UInt8) : Prop
  | bare (r : ItemResult) (hr : r = .null ∨ r = .fallsOff)
      (hitem : (getCborMapItem 1 (c.reqLen - 1) 0x02).run c.req = some r)
      (hmsg : msg = [UInt8.ofNat subCmd])
  | params (p e : ℕ) (hpos : 0 < e) (hle : e ≤ 1024) (hself : c.req.extent p e = e)
      (hitem : (getCborMapItem 1 (c.reqLen - 1) 0x02).run c.req = some (.item p e))
      (hmsg : msg = UInt8.ofNat subCmd :: c.req.slice p e)

section

variable {c c' : Command} {d : Device} {subCmd : ℕ} {msg : List UInt8}

theorem pointer_cases {env : Env} {r : ItemResult} (hr : r = .null ∨ r = .fallsOff) :
    r.pointer env = none ∨ ∃ p, r.pointer env = some (p, 0) := by
  rcases hr with rfl | rfl
  · exact .inl rfl
  · rw [ItemResult.pointer]
    cases env.strayItem with
    | none => exact .inl rfl
    | some p => exact .inr ⟨p, rfl⟩

theorem cmMessage_cases (hsub : subCmd = 0x04 ∨ subCmd = 0x06)
    (hcovered : c.ParamsCovered)
    (hmsg : (cmMessage c.env c.reqLen subCmd).run c.req = some msg) :
    CmMessage c subCmd msg := by
  have htaken : subCmd = 0x04 ∨ subCmd = 0x05 ∨ subCmd = 0x06 := by tauto
  rw [cmMessage, if_pos htaken] at hmsg
  obtain ⟨r, hitem, hmsg⟩ := run_bind_eq_some.1 hmsg
  rcases walkMap_place hitem with ⟨hr, -⟩ | ⟨p, remaining, hpos, hplace, hfound⟩
  · refine .bare r hr hitem ?_
    rcases pointer_cases hr with hnull | ⟨stray, hnull⟩
    · rw [hnull] at hmsg
      exact (Option.some.inj hmsg).symm
    · rw [hnull] at hmsg
      exact (Option.some.inj hmsg).symm
  · have hle := hcovered p remaining hplace
    have hskip : (skipCborItem p remaining).run c.req =
        some (c.req.extent p remaining) := Mem.skip_of_extent (by omega)
    rw [run_bind, hskip] at hfound
    obtain rfl : ItemResult.item p (c.req.extent p remaining) = r :=
      Option.some.inj hfound
    have hextent : 0 < c.req.extent p remaining :=
      Mem.extentDepth_pos hpos (Nat.lt_succ_self _)
    have hspan : c.req.extent p remaining > 0 ∧ c.req.extent p remaining ≤ 1024 :=
      ⟨hextent, hle⟩
    refine .params p _ hextent hle Mem.extent_self hitem ?_
    dsimp only [ItemResult.pointer] at hmsg
    rw [if_pos hspan, run_bind, run_bytes] at hmsg
    exact (Option.some.inj hmsg).symm

/-- The parameters of two requests are the same bytes, or missing in both. -/
inductive SameParams (c c' : Command) : Prop
  | missing (r r' : ItemResult) (hr : r = .null ∨ r = .fallsOff)
      (hr' : r' = .null ∨ r' = .fallsOff)
      (hitem : (getCborMapItem 1 (c.reqLen - 1) 0x02).run c.req = some r)
      (hitem' : (getCborMapItem 1 (c'.reqLen - 1) 0x02).run c'.req = some r')
  | same (p p' e : ℕ) (hle : e ≤ 1024) (hself : c.req.extent p e = e)
      (hagree : c.req.Agree p c'.req p' e)
      (hitem : (getCborMapItem 1 (c.reqLen - 1) 0x02).run c.req = some (.item p e))
      (hitem' : (getCborMapItem 1 (c'.reqLen - 1) 0x02).run c'.req = some (.item p' e))

theorem CmMessage.sameParams (h : CmMessage c subCmd msg) (h' : CmMessage c' subCmd msg) :
    SameParams c c' := by
  cases h with
  | bare r hr hitem hmsg =>
      cases h' with
      | bare r' hr' hitem' _ => exact .missing r r' hr hr' hitem hitem'
      | params p' e' hpos' _ _ _ hmsg' =>
          have hlength := congrArg List.length (hmsg.symm.trans hmsg')
          rw [List.length_singleton, List.length_cons, Mem.slice_length] at hlength
          omega
  | params p e hpos hle hself hitem hmsg =>
      cases h' with
      | bare _ _ _ hmsg' =>
          have hlength := congrArg List.length (hmsg.symm.trans hmsg')
          rw [List.length_singleton, List.length_cons, Mem.slice_length] at hlength
          omega
      | params p' e' _ _ _ hitem' hmsg' =>
          have hslice := (List.cons.inj (hmsg.symm.trans hmsg')).2
          have hlength := congrArg List.length hslice
          rw [Mem.slice_length, Mem.slice_length] at hlength
          subst hlength
          exact .same p p' e hle hself (Mem.agree_of_slice hslice) hitem hitem'

/-! ## The target -/

def deleteId (env : Env) (reqLen : ℕ) : Rd (Option (Bytes 32)) := do
  match ← deleteTarget env reqLen with
  | none => return none
  | some (p, n) =>
      if n < 32 then return none
      return some (Bytes.fill 0 32 (← bytes p 32))

/-- The rpIDHash or the credential id on which the operation acts. -/
def cmTarget (env : Env) (d : Device) (reqLen subCmd : ℕ) : Rd (Option (Bytes 32)) :=
  if subCmd = 0x04 then do
    let param ← enumRpHashParam env reqLen
    return some (param.getD d.ctap.gEnumRpHash)
  else deleteId env reqLen

/-- The operation on its target. -/
def actOn (d : Device) (subCmd : ℕ) : Option (Bytes 32) → Outcome
  | none => d.reply [0x2E]
  | some id =>
      if subCmd = 0x04 then
        let ctap := { d.ctap with gEnumRpHash := id, gEnumCredIdx := 0 }
        listCredential { d with ctap := ctap } subCmd
      else
        let deleted := passkeyDeleteByCredId d.flash.mem id
        d.replyUnder none deleted.2 [if deleted.1 ≠ 0 then 0x2E else 0x00]

theorem deleteCredential_target {m : Mem} {reqLen : ℕ} {env : Env} :
    (deleteCredential env d reqLen).Returns m fun o => ∃ target,
      (deleteId env reqLen).run m = some target ∧ o = actOn d 0x06 target := by
  unfold deleteCredential deleteId
  refine Returns.bind_run fun found hfound => ?_
  rw [run_bind, hfound, Option.bind_some]
  cases found with
  | none => exact Returns.pure ⟨none, rfl, rfl⟩
  | some target =>
      rcases target with ⟨p, n⟩
      refine Returns.ite (fun hshort => Returns.pure ⟨none, ?_, rfl⟩) fun hlong =>
        Returns.bind_run fun id hid => Returns.pure ⟨some (Bytes.fill 0 32 id), ?_, ?_⟩
      · simp [hshort]
      · dsimp only
        rw [if_neg hlong, run_bind, hid]
        rfl
      · have hdelete : ¬ (0x06 : ℕ) = 0x04 := by decide
        rw [actOn, if_neg hdelete]

theorem cmDispatch_target (m : Mem) (reqLen : ℕ) (env : Env)
    (hsub : subCmd = 0x04 ∨ subCmd = 0x06) :
    (cmDispatch env d reqLen subCmd).Returns m fun o => ∃ target,
      (cmTarget env d reqLen subCmd).run m = some target ∧ o = actOn d subCmd target := by
  unfold cmDispatch
  refine Returns.bind fun _ => ?_
  rcases hsub with rfl | rfl
  · refine Returns.bind_run fun param hparam => Returns.pure ?_
    exact ⟨_, by rw [cmTarget, if_pos rfl, run_bind, hparam]; rfl, rfl⟩
  · exact deleteCredential_target

theorem pointer_item (env : Env) (p e : ℕ) :
    (ItemResult.item p e).pointer env = some (p, e) := rfl

theorem getCborMapString_empty (p key : ℕ) (m : Mem) :
    (getCborMapString p 0 key).run m = some none := rfl

theorem getCborMapItem_empty (p key : ℕ) (m : Mem) :
    (getCborMapItem p 0 key).run m = some .null := rfl

theorem descriptor_missing {r : ItemResult} (hr : r = .null ∨ r = .fallsOff) (env : Env)
    (m : Mem) :
    Rd.run (match r.pointer env with
      | none => pure none
      | some (cm, cmLen) => getCborMapString cm cmLen 0x01) m = some none := by
  rcases pointer_cases hr with hnull | ⟨stray, hnull⟩
  · rw [hnull]
    rfl
  · rw [hnull]
    exact getCborMapString_empty stray 0x01 m

theorem enumRpHashParam_missing {r : ItemResult} (hr : r = .null ∨ r = .fallsOff)
    (hitem : (getCborMapItem 1 (c.reqLen - 1) 0x02).run c.req = some r) :
    (enumRpHashParam c.env c.reqLen).run c.req = some none := by
  rw [enumRpHashParam, run_bind, hitem, Option.bind_some]
  rcases pointer_cases hr with hnull | ⟨stray, hnull⟩
  · rw [hnull]
    rfl
  · rw [hnull]
    dsimp only
    rw [run_bind, getCborMapString_empty]
    rfl

theorem deleteId_missing {r : ItemResult} (hr : r = .null ∨ r = .fallsOff)
    (hitem : (getCborMapItem 1 (c.reqLen - 1) 0x02).run c.req = some r) :
    (deleteId c.env c.reqLen).run c.req = some none := by
  have htarget : (deleteTarget c.env c.reqLen).run c.req = some none := by
    rw [deleteTarget, run_bind, hitem, Option.bind_some]
    rcases pointer_cases hr with hnull | ⟨stray, hnull⟩
    · rw [hnull]
      rfl
    · rw [hnull]
      dsimp only
      rw [run_bind, getCborMapItem_empty]
      rfl
  rw [deleteId, run_bind, htarget]
  rfl

theorem enumRpHashParam_same (h : SameParams c c') :
    (enumRpHashParam c.env c.reqLen).run c.req =
      (enumRpHashParam c'.env c'.reqLen).run c'.req := by
  cases h with
  | missing r r' hr hr' hitem hitem' =>
      rw [enumRpHashParam_missing hr hitem, enumRpHashParam_missing hr' hitem']
  | same p p' e hle hself hagree hitem hitem' =>
      rw [enumRpHashParam, enumRpHashParam, run_bind, run_bind, hitem, hitem',
        Option.bind_some, Option.bind_some]
      dsimp only [ItemResult.pointer]
      rw [run_bind, run_bind]
      rcases getCborMapString_move hagree (by omega) hself with
        ⟨hnone, hnone'⟩ | ⟨k, n, hfits, hfound, hfound'⟩
      · rw [hnone, hnone']
        rfl
      · rw [hfound, hfound', Option.bind_some, Option.bind_some]
        dsimp only
        by_cases hlong : n ≥ 32
        · have hslice : c.req.slice (p + k) 32 = c'.req.slice (p' + k) 32 :=
            hagree.slice (by omega)
          simp [hlong, hslice]
        · simp [hlong]

theorem deleteId_same (h : SameParams c c') :
    (deleteId c.env c.reqLen).run c.req = (deleteId c'.env c'.reqLen).run c'.req := by
  cases h with
  | missing r r' hr hr' hitem hitem' =>
      rw [deleteId_missing hr hitem, deleteId_missing hr' hitem']
  | same p p' e hle hself hagree hitem hitem' =>
      rw [deleteId, deleteId, run_bind, run_bind, deleteTarget, deleteTarget, run_bind,
        run_bind, hitem, hitem', Option.bind_some, Option.bind_some, pointer_item,
        pointer_item]
      dsimp only
      rw [run_bind, run_bind]
      rcases getCborMapItem_move hagree (by omega) hself with
        ⟨r, hr, hitem, hitem'⟩ | ⟨i, len, hinner, hself, hitem, hitem'⟩
      · rw [hitem, hitem', Option.bind_some, Option.bind_some]
        have hnone := descriptor_missing hr c.env c.req
        have hnone' := descriptor_missing hr c'.env c'.req
        refine Eq.trans (b := some none) ?_ (Eq.symm ?_)
        · exact Option.bind_eq_some_iff.2 ⟨none, hnone, rfl⟩
        · exact Option.bind_eq_some_iff.2 ⟨none, hnone', rfl⟩
      · rw [hitem, hitem', Option.bind_some, Option.bind_some, pointer_item,
          pointer_item]
        dsimp only
        rcases getCborMapString_move (hagree.shift hinner) (by omega)
          hself with ⟨hnone, hnone'⟩ | ⟨k, n, hfits, hfound, hfound'⟩
        · rw [hnone, hnone']
          rfl
        · rw [hfound, hfound', Option.bind_some, Option.bind_some]
          dsimp only
          by_cases hshort : n < 32
          · simp [hshort]
          · have hslice : c.req.slice (p + i + k) 32 = c'.req.slice (p' + i + k) 32 :=
              (hagree.shift hinner).slice (by omega)
            simp [hshort, hslice]

end

/-! ## The result -/

/-- The request is accepted with the parameter under the token of the session. -/
structure Command.AcceptedWith (c : Command) (d : Device) (subCmd : ℕ)
    (param : List UInt8) : Prop where
  reqLen : c.reqLen ≠ 0
  cmd : c.req 0 = 0x0A
  read : (cmSubCmd c.reqLen).run c.req = some subCmd
  authorized : (cmAuthorized c.env d.pin c.reqLen subCmd).run c.req = some true
  param : c.HasString 0x04 param

/-- The MAC, cut to `n` bytes, does not collide on the messages of the requests. -/
def NoCollision (key : List UInt8) (n subCmd : ℕ) (c c' : Command) : Prop :=
  ∀ msg msg', (cmMessage c.env c.reqLen subCmd).run c.req = some msg →
    (cmMessage c'.env c'.reqLen subCmd).run c'.req = some msg' →
    (hmacSha256 key msg).val.take n = (hmacSha256 key msg').val.take n → msg = msg'

section

variable {c c' : Command} {d : Device} {subCmd : ℕ} {param : List UInt8}

theorem noCollision_of_same {key : List UInt8} {n : ℕ}
    (h : (cmMessage c.env c.reqLen subCmd).run c.req =
      (cmMessage c'.env c'.reqLen subCmd).run c'.req) :
    NoCollision key n subCmd c c' := by
  intro msg msg' hmsg hmsg' _
  exact Option.some.inj (hmsg.symm.trans (h.trans hmsg'))

theorem Command.AcceptedWith.mac (h : c.AcceptedWith d subCmd param) :
    ∃ msg, (cmMessage c.env c.reqLen subCmd).run c.req = some msg ∧
      param = (hmacSha256 d.pin.cmKey msg).val.take param.length := by
  obtain ⟨msg, param', haccepts⟩ := cmAuthorized_accepts _ h.authorized rfl
  obtain ⟨p, hfound, hslice⟩ := haccepts.found
  obtain ⟨p', hfound', hslice'⟩ := h.param
  rw [hfound, Option.some.injEq, Option.some.injEq, Prod.mk.injEq] at hfound'
  obtain ⟨rfl, hlength⟩ := hfound'
  rw [← hlength, hslice] at hslice'
  subst hslice'
  exact ⟨msg, haccepts.message, haccepts.mac⟩

/-- With a PIN set, what is not answered with PIN_AUTH_INVALID has been accepted. -/
theorem acceptedWith_of_outcome {o : Outcome} (hset : d.storedPin.isSome)
    (hlen : c.reqLen ≠ 0) (hcmd : c.req 0 = 0x0A)
    (hread : (cmSubCmd c.reqLen).run c.req = some subCmd) (hparam : c.HasString 0x04 param)
    (ho : d.outcome c = some o) (hstatus : o.status ≠ some 0x33) :
    c.AcceptedWith d subCmd param := by
  rw [outcome_eq hlen, hcmd] at ho
  have hload : (pinLoad d.flash.mem).isSome := storedPin_isSome_iff.1 hset
  rcases credentialManagement_cases (d := d.onChannel c.cid) hload o ho with
    rfl | ⟨subCmd', msg, param', o', hsub, hauthorized, -, -, -⟩
  · exact absurd rfl hstatus
  · obtain rfl : subCmd' = subCmd := Option.some.inj (hsub.symm.trans hread)
    exact ⟨hlen, hcmd, hread, hauthorized, hparam⟩

theorem cmTarget_same (hsub : subCmd = 0x04 ∨ subCmd = 0x06) (h : SameParams c c') :
    (cmTarget c.env d c.reqLen subCmd).run c.req =
      (cmTarget c'.env d c'.reqLen subCmd).run c'.req := by
  rcases hsub with rfl | rfl
  · rw [cmTarget, cmTarget, if_pos rfl, if_pos rfl, run_bind, run_bind,
      enumRpHashParam_same h]
    rfl
  · exact deleteId_same h

theorem outcome_target {o : Outcome} (h : c.AcceptedWith d subCmd param)
    (hsub : subCmd = 0x04 ∨ subCmd = 0x06) (ho : d.outcome c = some o) :
    ∃ target, (cmTarget c.env d c.reqLen subCmd).run c.req = some target ∧
      o = { actOn (d.onChannel c.cid) subCmd target with verified := o.verified } := by
  rw [outcome_eq h.reqLen, h.cmd] at ho
  have hreturns : (credentialManagement c.env (d.onChannel c.cid) c.reqLen).Returns c.req
      fun o => ∃ target, (cmTarget c.env d c.reqLen subCmd).run c.req = some target ∧
        o = { actOn (d.onChannel c.cid) subCmd target with verified := o.verified } := by
    have hdispatch := cmDispatch_target (d := d.onChannel c.cid) c.req c.reqLen c.env hsub
    unfold credentialManagement
    refine Returns.bind_run fun sub hread => ?_
    obtain rfl : u8 (sub.getD 0) = subCmd := by
      have hsubCmd := h.read
      rw [cmSubCmd, run_bind, hread] at hsubCmd
      exact Option.some.inj hsubCmd
    refine Returns.ite (fun _ => Returns.bind_run fun authorized hauthorized => ?_)
      fun _ o ho => ?_
    · have hok : authorized = true :=
        Option.some.inj (hauthorized.symm.trans h.authorized)
      rw [hok, if_neg (by simp)]
      refine Returns.bind_of hdispatch fun o' ho' => Returns.pure ?_
      obtain ⟨target, htarget, rfl⟩ := ho'
      exact ⟨target, htarget, rfl⟩
    · obtain ⟨target, htarget, rfl⟩ := hdispatch o ho
      exact ⟨target, htarget, rfl⟩
  exact hreturns o ho

end

/-- Two requests accepted with the same parameter act on the same target, when their
subCommandParams take at most 1024 bytes. -/
theorem managementMac {d : Device} {c c' : Command} {subCmd : ℕ} {param : List UInt8}
    {o o' : Outcome} (hsub : subCmd = 0x04 ∨ subCmd = 0x06)
    (h : c.AcceptedWith d subCmd param) (h' : c'.AcceptedWith d subCmd param)
    (hmac : NoCollision d.pin.cmKey param.length subCmd c c')
    (hcovered : c.ParamsCovered) (hcovered' : c'.ParamsCovered)
    (ho : d.outcome c = some o) (ho' : d.outcome c' = some o') :
    ∃ target, (cmTarget c.env d c.reqLen subCmd).run c.req = some target ∧
      (cmTarget c'.env d c'.reqLen subCmd).run c'.req = some target ∧
      o = { actOn (d.onChannel c.cid) subCmd target with verified := o.verified } ∧
      o' = { actOn (d.onChannel c'.cid) subCmd target with verified := o'.verified } := by
  obtain ⟨msg, hmsg, hparam⟩ := h.mac
  obtain ⟨msg', hmsg', hparam'⟩ := h'.mac
  obtain rfl : msg = msg' := hmac msg msg' hmsg hmsg' (hparam.symm.trans hparam')
  have hsame := (cmMessage_cases hsub hcovered hmsg).sameParams
    (cmMessage_cases hsub hcovered' hmsg')
  obtain ⟨target, htarget, hacts⟩ := outcome_target h hsub ho
  obtain ⟨target', htarget', hacts'⟩ := outcome_target h' hsub ho'
  have htargets := cmTarget_same (d := d) hsub hsame
  obtain rfl : target = target' := by
    rw [htarget, htarget', Option.some.injEq] at htargets
    exact htargets
  exact ⟨target, htarget, htarget', hacts, hacts'⟩

/-- enumerateCredentialsBegin for an rpIDHash of 32 bytes, with the HMAC of the
subcommand and the parameters. -/
def boundParam : List UInt8 :=
  [0x68, 0x44, 0xE3, 0x19, 0x5B, 0x27, 0xFE, 0x90, 0x8C, 0x11, 0x44, 0xC3, 0xFA, 0x92,
    0x07, 0xD9]

def boundParams : List UInt8 :=
  [0xA1, 0x01, 0x58, 0x20] ++ List.replicate 32 0xAB

def paramsLast : Command :=
  hostCommand ([0x0A, 0xA3, 0x01, 0x04, 0x04, 0x50] ++ boundParam ++ [0x02] ++ boundParams)

def paramsFirst : Command :=
  hostCommand ([0x0A, 0xA3, 0x02] ++ boundParams ++ [0x01, 0x04, 0x04, 0x50] ++ boundParam)

/-- The HMAC of the subcommand alone. -/
def bareParam : List UInt8 :=
  [0x89, 0x7E, 0xED, 0x35, 0x46, 0x0E, 0x34, 0xA7, 0x3F, 0x16, 0x85, 0x3D, 0xA3, 0xD0,
    0xFE, 0x6A]

/-- enumerateCredentialsBegin for a string of declared length 1024. -/
def longParams (b : UInt8) : Command :=
  hostCommand ([0x0A, 0xA3, 0x01, 0x04, 0x04, 0x50] ++ bareParam ++
    [0x02, 0xA1, 0x01, 0x59, 0x04, 0x00] ++ List.replicate 32 b)

/-- Requests with the parameters which they are accepted with. -/
def enumerateRequests : List (Command × List UInt8) :=
  [(paramsLast, boundParam), (paramsFirst, boundParam), (longParams 0xAB, bareParam),
    (longParams 0xAC, bareParam)]

theorem enumerate_runs : ((exec Device.step (Device.powerUp (pinFlash 8))
    [agreeCommand, tokenCommand]).any fun d => d.storedPin.isSome &&
      enumerateRequests.all fun r =>
        (d.outcome r.1).any fun o => o.status ≠ some 0x33) = true := by
  decide +kernel

theorem enumerateRequests_param :
    ∀ r ∈ enumerateRequests, r.1.HasString 0x04 r.2 := by
  simp only [enumerateRequests, List.forall_mem_cons, List.not_mem_nil, false_implies,
    implies_true, and_true]
  exact ⟨⟨6, by decide +kernel, by decide⟩, ⟨43, by decide +kernel, by decide⟩,
    ⟨6, by decide +kernel, by decide⟩, ⟨6, by decide +kernel, by decide⟩⟩

theorem enumerate_accepted : ∃ d : Device, ∀ r ∈ enumerateRequests, ∃ o,
    d.outcome r.1 = some o ∧ r.1.AcceptedWith d 0x04 r.2 := by
  obtain ⟨d, -, h⟩ := (Option.any_eq_true _ _).1 enumerate_runs
  obtain ⟨hset, hall⟩ := Bool.and_eq_true_iff.1 h
  have hhead : ∀ r ∈ enumerateRequests, r.1.reqLen ≠ 0 ∧ r.1.req 0 = 0x0A ∧
      (cmSubCmd r.1.reqLen).run r.1.req = some 0x04 := by decide +kernel
  refine ⟨d, fun r hr => ?_⟩
  obtain ⟨o, ho, hstatus⟩ := (Option.any_eq_true _ _).1 (List.all_eq_true.1 hall r hr)
  obtain ⟨hlen, hcmd, hread⟩ := hhead r hr
  exact ⟨o, ho, acceptedWith_of_outcome hset hlen hcmd hread
    (enumerateRequests_param r hr) ho (of_decide_eq_true hstatus)⟩

theorem paramsCovered_of_place {c : Command} (p remaining : ℕ)
    (hplace : (walkPlace 0x02 1 (c.reqLen - 1)).run c.req = some (some (p, remaining)))
    (hle : c.req.extent p remaining ≤ 1024) : c.ParamsCovered := by
  intro p' remaining' hplace'
  rw [hplace, Option.some.injEq, Option.some.injEq, Prod.mk.injEq] at hplace'
  obtain ⟨rfl, rfl⟩ := hplace'
  exact hle

theorem managementMac_enumerate : ∃ (d : Device) (o o' : Outcome) (target : Option (Bytes 32)),
    d.outcome paramsLast = some o ∧ d.outcome paramsFirst = some o' ∧
      o = { actOn (d.onChannel 1) 0x04 target with verified := o.verified } ∧
      o' = { actOn (d.onChannel 1) 0x04 target with verified := o'.verified } := by
  obtain ⟨d, hall⟩ := enumerate_accepted
  obtain ⟨o, ho, hlast⟩ := hall (paramsLast, boundParam) (by simp [enumerateRequests])
  obtain ⟨o', ho', hfirst⟩ := hall (paramsFirst, boundParam) (by simp [enumerateRequests])
  have hmac : NoCollision d.pin.cmKey boundParam.length 0x04 paramsLast paramsFirst :=
    noCollision_of_same (by decide +kernel)
  have hcovered : paramsLast.ParamsCovered :=
    paramsCovered_of_place 23 36 (by decide +kernel) (by decide +kernel)
  have hcovered' : paramsFirst.ParamsCovered :=
    paramsCovered_of_place 3 56 (by decide +kernel) (by decide +kernel)
  obtain ⟨target, -, -, hacts, hacts'⟩ := managementMac (.inl rfl) hlast hfirst hmac
    hcovered hcovered' ho ho'
  exact ⟨d, o, o', target, ho, ho', hacts, hacts'⟩

/-- Over 1024 bytes of declared parameters the MAC covers none of them. -/
theorem longParams_unbound :
    ¬ ∀ (d : Device) (c c' : Command) (subCmd : ℕ) (param : List UInt8) (o o' : Outcome),
      (subCmd = 0x04 ∨ subCmd = 0x06) → c.reqLen ≤ 1024 → c'.reqLen ≤ 1024 →
      c.AcceptedWith d subCmd param → c'.AcceptedWith d subCmd param →
      NoCollision d.pin.cmKey param.length subCmd c c' →
      d.outcome c = some o → d.outcome c' = some o' →
      (cmTarget c.env d c.reqLen subCmd).run c.req =
        (cmTarget c'.env d c'.reqLen subCmd).run c'.req := by
  intro hclaim
  obtain ⟨d, hall⟩ := enumerate_accepted
  obtain ⟨o, ho, hleft⟩ := hall (longParams 0xAB, bareParam) (by simp [enumerateRequests])
  obtain ⟨o', ho', hright⟩ := hall (longParams 0xAC, bareParam)
    (by simp [enumerateRequests])
  have hmac : NoCollision d.pin.cmKey bareParam.length 0x04 (longParams 0xAB)
      (longParams 0xAC) := noCollision_of_same (by decide +kernel)
  have hsame := hclaim d (longParams 0xAB) (longParams 0xAC) 0x04 bareParam o o'
    (.inl rfl) (by decide) (by decide) hleft hright hmac ho ho'
  rw [cmTarget, cmTarget, if_pos rfl, if_pos rfl, run_bind, run_bind] at hsame
  have hparam : (enumRpHashParam hostEnv (longParams 0xAB).reqLen).run
      (longParams 0xAB).req = some (some (Bytes.fill 0 32 (List.replicate 32 0xAB))) := by
    decide +kernel
  have hparam' : (enumRpHashParam hostEnv (longParams 0xAC).reqLen).run
      (longParams 0xAC).req = some (some (Bytes.fill 0 32 (List.replicate 32 0xAC))) := by
    decide +kernel
  have henv : ∀ b, (longParams b).env = hostEnv := fun _ => rfl
  rw [henv, henv, hparam, hparam'] at hsame
  revert hsame
  simp
  decide

end UnsoloKey
