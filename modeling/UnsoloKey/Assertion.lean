import UnsoloKey.Effects
import UnsoloKey.Responses
import Mathlib.Tactic

/-!
# What an assertion is made of

GetAssertion decides on a credential and on whether it needs a touch; from then
on it only waits and signs.  The decision is a value of its own here, and the
command is the decision followed by that last part.
-/

namespace UnsoloKey

open Rd

/-- The assertion which is about to be made. -/
structure AssertionPlan where
  rpIdHash : Bytes 32
  cdh : Option (ℕ × ℕ)
  slot : Slot
  total : ℕ
  verified : Option (List UInt8)
  upRequired : Bool

inductive GaDecision where
  | refuse (verified : Option (List UInt8)) (status : UInt8)
  | assert (plan : AssertionPlan)

def gaOptions (d : Device) (reqLen : ℕ) (rpIdHash : Bytes 32)
    (cdh : Option (ℕ × ℕ)) (i : Slot) (total : ℕ)
    (verified : Option (List UInt8)) (hasPinAuth : Bool) : Rd GaDecision := do
  let options ← getCborMapValue 1 (reqLen - 1) 0x05
  let decision ← assertionOptions (pinLoad d.flash.mem).isSome hasPinAuth
    options reqLen
  match decision with
  | .error status => return .refuse verified status
  | .ok upRequired => return .assert ⟨rpIdHash, cdh, i, total, verified, upRequired⟩

def gaSelected (d : Device) (reqLen : ℕ) (rpIdHash : Bytes 32)
    (cdh : Option (ℕ × ℕ)) (selected : Option (Slot × ℕ)) : Rd GaDecision := do
  match selected with
  | none => return .refuse none 0x2E
  | some (i, total) =>
      match ← getCborMapString 1 (reqLen - 1) 0x06 with
      | none => gaOptions d reqLen rpIdHash cdh i total none false
      | some (pinAuth, pinAuthLen) =>
          let valid ← pinAuthValid d.pin cdh pinAuth pinAuthLen
          if ¬ valid then return .refuse none 0x33
          else gaOptions d reqLen rpIdHash cdh i total (some d.pin.tokenKey) true

/-- GetAssertion up to the touch wait, with the globals of the walk. -/
def gaDecision (d : Device) (reqLen : ℕ) : Rd (CtapSession × GaDecision) := do
  let rpId ← getCborMapValue 1 (reqLen - 1) 0x01
  let cdh ← getCborMapString 1 (reqLen - 1) 0x02
  let allowList ← getCborMapValue 1 (reqLen - 1) 0x03
  let rpIdHash ← rpIdHashOf (rpId.map fun v => (v.ptr, v.len))
  let selection ← selectCredential d reqLen rpIdHash cdh allowList
  let decision ← gaSelected { d with ctap := selection.2 } reqLen rpIdHash cdh
    selection.1
  return (selection.2, decision)

/-- The touch wait, if one is needed, and the response. -/
def AssertionPlan.finish (plan : AssertionPlan) (env : Env) (d : Device) :
    Rd Outcome := do
  let d := if plan.upRequired then d.waited env else d
  if plan.upRequired ∧ env.presence.status ≠ 0x00 then
    return d.replyUnder plan.verified [] [env.presence.status]
  else
    let cdhBuf ← signedCdh plan.cdh
    return d.replyUnder plan.verified [] (gaBuildResponse env d.flash.mem plan.slot
      (authDataHeader plan.rpIdHash (gaFlags plan.upRequired plan.verified.isSome))
      cdhBuf plan.total)

def gaFinish (env : Env) (d : Device) : GaDecision → Rd Outcome
  | .refuse verified status => return d.replyUnder verified [] [status]
  | .assert plan => plan.finish env d

section

variable {env : Env} {d : Device} {reqLen : ℕ} {m : Mem} {rpIdHash : Bytes 32}
  {cdh : Option (ℕ × ℕ)} {verified : Option (List UInt8)}

theorem assertCredential_run {i : Slot} {total : ℕ} {hasPinAuth : Bool} :
    (assertCredential env d reqLen rpIdHash cdh i total verified hasPinAuth).run m =
      (gaOptions d reqLen rpIdHash cdh i total verified hasPinAuth >>=
        gaFinish env d).run m := by
  simp only [assertCredential, gaOptions, run_bind, Option.bind_assoc]
  congr 1
  funext options
  congr 1
  funext decision
  cases decision <;> rfl

theorem assertSelected_run {selected : Option (Slot × ℕ)} :
    (assertSelected env d reqLen rpIdHash cdh selected).run m =
      (gaSelected d reqLen rpIdHash cdh selected >>= gaFinish env d).run m := by
  cases selected with
  | none => rfl
  | some found =>
      simp only [assertSelected, gaSelected, run_bind, Option.bind_assoc]
      congr 1
      funext pinAuth
      cases pinAuth with
      | none => exact assertCredential_run.trans (run_bind _ _ _)
      | some p =>
          simp only [run_bind, Option.bind_assoc]
          congr 1
          funext valid
          cases valid with
          | false => rfl
          | true => exact assertCredential_run.trans (run_bind _ _ _)

theorem getAssertion_run :
    (getAssertion env d reqLen).run m = (gaDecision d reqLen >>= fun r =>
      gaFinish env { d with ctap := r.1 } r.2).run m := by
  simp only [getAssertion, gaDecision, run_bind, run_pure, Option.bind_assoc,
    assertSelected_run, Option.bind_some]

/-! ## The decision -/

theorem gaOptions_spec {i : Slot} {total : ℕ} {hasPinAuth : Bool} :
    (gaOptions d reqLen rpIdHash cdh i total verified hasPinAuth).Returns m
      fun r => match r with
        | .refuse _ status => status ≠ 0x00
        | .assert plan => plan.rpIdHash = rpIdHash ∧ plan.cdh = cdh ∧
            plan.slot = i ∧ plan.total = total := by
  unfold gaOptions
  refine Returns.bind fun options =>
    Returns.bind_of assertionOptions_nonzero fun decision hdecision => ?_
  cases decision with
  | error status => exact Returns.pure (hdecision status rfl)
  | ok upRequired => exact Returns.pure ⟨rfl, rfl, rfl, rfl⟩

theorem gaSelected_spec {selected : Option (Slot × ℕ)} :
    (gaSelected d reqLen rpIdHash cdh selected).Returns m
      fun r => match r with
        | .refuse _ status => status ≠ 0x00
        | .assert plan => plan.rpIdHash = rpIdHash ∧ plan.cdh = cdh ∧
            selected = some (plan.slot, plan.total) := by
  cases selected with
  | none => exact Returns.pure (show (0x2E : UInt8) ≠ 0x00 by decide)
  | some found =>
      rcases found with ⟨i, total⟩
      have hoptions : ∀ verified hasPinAuth,
          (gaOptions d reqLen rpIdHash cdh i total verified hasPinAuth).Returns m
            fun r => match r with
              | .refuse _ status => status ≠ 0x00
              | .assert plan => plan.rpIdHash = rpIdHash ∧ plan.cdh = cdh ∧
                  some (i, total) = some (plan.slot, plan.total) := by
        intro verified hasPinAuth r hr
        have hspec := gaOptions_spec r hr
        cases r with
        | refuse verified status => exact hspec
        | assert plan =>
            obtain ⟨hrp, hcdh, hslot, htotal⟩ := hspec
            exact ⟨hrp, hcdh, by rw [hslot, htotal]⟩
      unfold gaSelected
      refine Returns.bind fun pinAuth => ?_
      cases pinAuth with
      | none => exact hoptions none false
      | some p =>
          refine Returns.bind fun valid => ?_
          apply Returns.ite
          · intro _
            exact Returns.pure (show (0x33 : UInt8) ≠ 0x00 by decide)
          · intro _
            exact hoptions _ true

theorem selectCredential_total {rpIdHash : Bytes 32} {allowList : Option MapValue} :
    (selectCredential d reqLen rpIdHash cdh allowList).Returns m fun selection =>
      ∀ i total, selection.1 = some (i, total) → total < 2 ^ 32 := by
  have hcount : passkeyCountForRp d.flash.mem rpIdHash < 2 ^ 32 := by
    have hle : passkeyCountForRp d.flash.mem rpIdHash ≤ slots.length :=
      List.countP_le_length
    have hslots : slots.length = 5 := by decide
    omega
  unfold selectCredential
  apply Returns.ite
  · intro _
    dsimp only
    split
    · exact Returns.pure (by simp)
    · apply Returns.ite
      · intro _
        exact Returns.pure (by simp)
      · intro _
        refine Returns.bind fun gGaCdh => Returns.pure fun i total h => ?_
        rw [Option.some.injEq, Prod.mk.injEq] at h
        exact h.2 ▸ hcount
  · intro _
    refine Returns.bind fun found => Returns.pure fun i total h => ?_
    obtain ⟨_, _, h⟩ := Option.map_eq_some_iff.1 h
    rw [← (Prod.mk.inj h).2]
    decide

/-- What GetAssertion has read of its request, and the credential selected. -/
structure Selected (d : Device) (reqLen : ℕ) (m : Mem) (ctap : CtapSession)
    (plan : AssertionPlan) : Prop where
  rpId : ∃ rpId, (getCborMapValue 1 (reqLen - 1) 0x01).run m = some rpId ∧
    (rpIdHashOf (rpId.map fun v => (v.ptr, v.len))).run m = some plan.rpIdHash
  cdh : (getCborMapString 1 (reqLen - 1) 0x02).run m = some plan.cdh
  selection : ∃ allowList,
    (getCborMapValue 1 (reqLen - 1) 0x03).run m = some allowList ∧
    (selectCredential d reqLen plan.rpIdHash plan.cdh allowList).run m =
      some (some (plan.slot, plan.total), ctap)

theorem Selected.total_lt {ctap : CtapSession} {plan : AssertionPlan}
    (h : Selected d reqLen m ctap plan) : plan.total < 2 ^ 32 := by
  obtain ⟨allowList, -, hselection⟩ := h.selection
  exact selectCredential_total _ hselection _ _ rfl

theorem gaDecision_spec :
    (gaDecision d reqLen).Returns m fun r => match r.2 with
      | .refuse _ status => status ≠ 0x00
      | .assert plan => Selected d reqLen m r.1 plan := by
  unfold gaDecision
  refine Returns.bind_run fun rpId hrpId => Returns.bind_run fun cdh hcdh =>
    Returns.bind_run fun allowList hallow => Returns.bind_run fun rpIdHash hhash =>
    Returns.bind_run fun selection hselect =>
    Returns.bind_of gaSelected_spec fun r hr => Returns.pure ?_
  cases r with
  | refuse verified status => exact hr
  | assert plan =>
      obtain ⟨rfl, rfl, hslot⟩ := hr
      refine ⟨⟨rpId, hrpId, hhash⟩, hcdh, allowList, hallow, hselect.trans ?_⟩
      rw [← hslot]

/-! ## The commands -/

def AssertionPlan.response (plan : AssertionPlan) (env : Env) (flash : Mem)
    (cdhBuf : Bytes 32) : List UInt8 :=
  gaBuildResponse env flash plan.slot
    (authDataHeader plan.rpIdHash (gaFlags plan.upRequired plan.verified.isSome))
    cdhBuf plan.total

def AssertionPlan.ctap (plan : AssertionPlan) (env : Env) (ctap : CtapSession) :
    CtapSession :=
  if plan.upRequired then ctap.waited env else ctap

/-- What GetAssertion has done. -/
inductive GetAssertionEffect (env : Env) (d : Device) (reqLen : ℕ) (m : Mem)
    (o : Outcome) : Prop
  | refused (status : UInt8) (hstatus : status ≠ 0x00) (hresp : o.resp = [status])
      (hops : o.ops = [])
  | asserted (ctap : CtapSession) (plan : AssertionPlan) (cdhBuf : Bytes 32)
      (hdecision : (gaDecision d reqLen).run m = some (ctap, .assert plan))
      (hselect : Selected d reqLen m ctap plan)
      (htouch : plan.upRequired = true → env.presence = .confirmed)
      (hsigned : (signedCdh plan.cdh).run m = some cdhBuf)
      (hresp : o.resp = plan.response env d.flash.mem cdhBuf) (hops : o.ops = [])
      (hctap : o.ctap = plan.ctap env ctap)

theorem finish_effect {ctap : CtapSession} {plan : AssertionPlan}
    (hdecision : (gaDecision d reqLen).run m = some (ctap, .assert plan)) :
    (plan.finish env { d with ctap := ctap }).Returns m
      fun o => GetAssertionEffect env d reqLen m o := by
  have hflash : (if plan.upRequired then Device.waited { d with ctap := ctap } env
      else { d with ctap := ctap }).flash.mem = d.flash.mem := by
    split <;> rfl
  unfold AssertionPlan.finish
  apply Returns.ite
  · intro hrefused
    exact Returns.pure (.refused env.presence.status hrefused.2 rfl rfl)
  · intro hgranted
    refine Returns.bind_run fun cdhBuf hsigned => Returns.pure ?_
    rw [hflash]
    refine .asserted ctap plan cdhBuf hdecision (gaDecision_spec _ hdecision) ?_ hsigned
      rfl rfl ?_
    · intro hup
      rw [← presence_status_eq_zero_iff]
      by_contra hne
      exact hgranted ⟨hup, hne⟩
    · unfold AssertionPlan.ctap
      split <;> rfl

theorem getAssertion_effect :
    (getAssertion env d reqLen).Returns m
      fun o => GetAssertionEffect env d reqLen m o := by
  intro o ho
  rw [getAssertion_run, run_bind_eq_some] at ho
  obtain ⟨⟨ctap, decision⟩, hdecision, ho⟩ := ho
  cases decision with
  | refuse verified status =>
      have hout : _ = o := Option.some.inj ho
      exact .refused status (gaDecision_spec _ hdecision) (by rw [← hout]; rfl)
        (by rw [← hout]; rfl)
  | assert plan => exact finish_effect hdecision o ho

theorem getAssertion_verified {ctap : CtapSession} {plan : AssertionPlan}
    (hdecision : (gaDecision d reqLen).run m = some (ctap, .assert plan)) :
    (getAssertion env d reqLen).Returns m fun o => o.verified = plan.verified := by
  intro o ho
  rw [getAssertion_run, run_bind, hdecision, Option.bind_some] at ho
  have hkept : (plan.finish env { d with ctap := ctap }).Returns m
      fun o => o.verified = plan.verified := by
    unfold AssertionPlan.finish
    exact Returns.ite (fun _ => Returns.pure rfl)
      fun _ => Returns.bind fun _ => Returns.pure rfl
  exact hkept o ho

/-- What GetNextAssertion has done. -/
inductive GetNextAssertionEffect (env : Env) (d : Device) (o : Outcome) : Prop
  | refused (status : UInt8) (hstatus : status ≠ 0x00) (hresp : o.resp = [status])
      (hops : o.ops = [])
  | asserted (i : Slot) (hmore : d.ctap.gGaIdx + 1 < d.ctap.gGaCount)
      (hslot : passkeyGetByRpIndex d.flash.mem d.ctap.gGaRpHash
        (d.ctap.gGaIdx + 1) = some i)
      (hpresence : env.presence = .confirmed)
      (hresp : o.resp = gaBuildResponse env d.flash.mem i
        (authDataHeader d.ctap.gGaRpHash 0x01) d.ctap.gGaCdh d.ctap.gGaCount)
      (hops : o.ops = [])
      (hctap : o.ctap = CtapSession.waited
        { d.ctap with gGaIdx := d.ctap.gGaIdx + 1 } env)

theorem getNextAssertion_effect :
    GetNextAssertionEffect env d (getNextAssertion env d) := by
  unfold getNextAssertion
  split
  · exact .refused 0x2E (by decide) rfl rfl
  · rename_i hmore
    dsimp only
    split
    · exact .refused 0x2E (by decide) rfl rfl
    · rename_i i hslot
      split
      · rename_i hrefused
        exact .refused env.presence.status hrefused rfl rfl
      · rename_i hconfirmed
        rw [not_not] at hconfirmed
        exact .asserted i (by omega) hslot
          ((presence_status_eq_zero_iff _).1 hconfirmed) rfl rfl rfl

theorem getNextAssertion_more (hmore : d.ctap.gGaIdx + 1 < d.ctap.gGaCount)
    {i : Slot} (hslot : passkeyGetByRpIndex d.flash.mem d.ctap.gGaRpHash
      (d.ctap.gGaIdx + 1) = some i) (hpresence : env.presence = .confirmed) :
    getNextAssertion env d = Device.reply
      { d with ctap := (CtapSession.waited
        { d.ctap with gGaIdx := d.ctap.gGaIdx + 1 } env) }
      (gaBuildResponse env d.flash.mem i (authDataHeader d.ctap.gGaRpHash 0x01)
        d.ctap.gGaCdh d.ctap.gGaCount) := by
  have hnot : ¬ (d.ctap.gGaCount = 0 ∨ d.ctap.gGaIdx + 1 ≥ d.ctap.gGaCount) := by
    omega
  have htouched : ¬ (env.presence.status ≠ 0x00) := by
    rw [not_not, presence_status_eq_zero_iff]
    exact hpresence
  unfold getNextAssertion
  rw [if_neg hnot]
  simp only [hslot, if_neg htouched]
  rfl

theorem getNextAssertion_done (hdone : d.ctap.gGaCount ≤ d.ctap.gGaIdx + 1) :
    getNextAssertion env d = d.reply [0x2E] := by
  unfold getNextAssertion
  rw [if_pos (by omega)]

end

end UnsoloKey
