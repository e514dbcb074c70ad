import UnsoloKey.Assertion
import UnsoloKey.PinLockout
import UnsoloKey.Registration
import Mathlib.Tactic

/-!
# Calls of the elliptic curve library which fail

`uECC_make_key` and `uECC_sign` return 0 when they have not produced anything.  Their
results are all that a command learns from them; what they return is dropped everywhere,
so a command which has made such a call goes on in the same way when the call fails.
-/

namespace UnsoloKey

open Rd

/-- A call of `uECC_make_key`, or of `uECC_sign` for a hash. -/
inductive CryptoCall where
  | makeKey
  | sign (privateKey hash : Bytes 32)
  deriving DecidableEq

/-- The hash in `signature`. -/
def sigHash (authData cdh : List UInt8) : Bytes 32 :=
  sha256Final (sha256Update (sha256Update sha256Init authData) cdh)

/-! ## MakeCredential after the touch -/

/-- How the registration goes on after the touch. -/
inductive RegisterDecision where
  | excluded
  | full
  | save (r : Registration) (i : Slot) (cdh : List UInt8)

def registerDecision (env : Env) (flash : Mem) (reqLen : ℕ) (cdh : Option (ℕ × ℕ)) :
    Rd RegisterDecision := do
  if ← registrationExcluded env flash reqLen then return .excluded
  else
    let r ← registrationOf env reqLen
    match saveSlot flash r.rpIdHash r.userId with
    | none => return .full
    | some i => return .save r i (← attestedCdh cdh)

/-- The authenticator data which is signed. -/
def Registration.authData (r : Registration) (env : Env) (verified : Bool) : List UInt8 :=
  let flags : UInt8 := if verified then 0x41 ||| 0x04 else 0x41
  mcAuthData r.rpIdHash (flags ||| 0x40) (env.rng 0 32) env.makeKey.1

def RegisterDecision.finish (env : Env) (d : Device) (verified : Option (List UInt8)) :
    RegisterDecision → Outcome
  | excluded => d.replyUnder verified [] [0x2C]
  | full => d.replyUnder verified [] [0x28]
  | save r i cdh => d.replyUnder verified (writePageOps (slotAddr i) (r.key env).toBytes)
      (attestation env r.rpIdHash verified.isSome cdh)

/-- The key pair is made before the slot is looked for, the signature after it has been
written. -/
def RegisterDecision.calls (env : Env) (verified : Bool) : RegisterDecision → List CryptoCall
  | excluded => []
  | full => [.makeKey]
  | save r _ cdh => [.makeKey, .sign env.makeKey.2 (sigHash (r.authData env verified) cdh)]

section

variable {env : Env} {d : Device} {reqLen : ℕ} {m : Mem} {cdh : Option (ℕ × ℕ)}
  {verified : Option (List UInt8)}

theorem registerCredential_run :
    (registerCredential env d reqLen cdh verified).run m =
      ((registerDecision env d.flash.mem reqLen cdh).run m).map
        (RegisterDecision.finish env d verified) := by
  unfold registerCredential registerDecision registrationExcluded registrationOf
  simp only [run_bind, Option.bind_assoc]
  cases hrpItem : (getCborMapItem 1 (reqLen - 1) 0x02).run m with
  | none => rfl
  | some rpItem =>
  simp only [Option.bind_some]
  cases hrpId : (rpIdOf (rpItem.pointer env)).run m with
  | none => rfl
  | some rpId =>
  simp only [Option.bind_some]
  cases hhash : (rpIdHashOf rpId).run m with
  | none => rfl
  | some rpIdHash =>
  simp only [Option.bind_some]
  cases hexItem : (getCborMapItem 1 (reqLen - 1) 0x05).run m with
  | none => rfl
  | some exItem =>
  simp only [Option.bind_some]
  cases hhit : (excludeListHit d.flash.mem rpIdHash (exItem.pointer env)).run m with
  | none => rfl
  | some hit =>
  simp only [Option.bind_some]
  cases hit with
  | true => rfl
  | false =>
      simp only [Bool.false_eq_true, if_false, run_bind, hrpItem, hrpId, hhash, Option.bind_some,
        Option.bind_assoc]
      cases huserItem : (getCborMapItem 1 (reqLen - 1) 0x03).run m with
      | none => rfl
      | some userItem =>
      simp only [Option.bind_some]
      cases huser : (userStrings (userItem.pointer env)).run m with
      | none => rfl
      | some user =>
      simp only [Option.bind_some, saveCredential, passkeySave_run, readString, run_bytes,
        run_pure]
      cases saveSlot d.flash.mem rpIdHash (m.slice (user.1.getD (0, 0)).1
          (UInt8.ofNat (user.1.getD (0, 0)).2).toNat) with
      | none => rfl
      | some i =>
          rw [if_neg (by simp), run_bind, run_bind, Option.map_bind]
          rfl

theorem registerDecision_spec {flash : Mem} :
    (registerDecision env flash reqLen cdh).Returns m fun decision => match decision with
      | .excluded => True
      | .full => ∃ r, (registrationOf env reqLen).run m = some r ∧
          saveSlot flash r.rpIdHash r.userId = none
      | .save r i _ => (registrationOf env reqLen).run m = some r ∧
          saveSlot flash r.rpIdHash r.userId = some i := by
  unfold registerDecision
  refine Returns.bind fun hit => Returns.ite (fun _ => Returns.pure trivial) fun _ =>
    Returns.bind_run fun r hread => ?_
  split
  · rename_i hslot
    exact Returns.pure ⟨r, hread, hslot⟩
  · rename_i i hslot
    exact Returns.bind fun _ => Returns.pure ⟨hread, hslot⟩

end

/-! ## The calls of a command -/

def mcCalls (env : Env) (d : Device) (reqLen : ℕ) : Rd (List CryptoCall) := do
  match ← mcDecision d reqLen with
  | .error _ => return []
  | .ok (cdh, verified) =>
      if env.presence.status ≠ 0x00 then return []
      else
        let decision ← registerDecision env d.flash.mem reqLen cdh
        return decision.calls env verified.isSome

/-- The call in `ga_build_response`. -/
def gaSign (flash : Mem) (i : Slot) (authData37 : List UInt8) (cdh32 : Bytes 32) : CryptoCall :=
  .sign (flash.slotKey i).privateKey (sigHash authData37 cdh32.val)

def AssertionPlan.calls (plan : AssertionPlan) (env : Env) (flash : Mem) :
    Rd (List CryptoCall) := do
  if plan.upRequired ∧ env.presence.status ≠ 0x00 then return []
  else
    let cdhBuf ← signedCdh plan.cdh
    return [gaSign flash plan.slot
      (authDataHeader plan.rpIdHash (gaFlags plan.upRequired plan.verified.isSome)) cdhBuf]

def gaCalls (env : Env) (d : Device) (reqLen : ℕ) : Rd (List CryptoCall) := do
  match (← gaDecision d reqLen).2 with
  | .refuse _ _ => return []
  | .assert plan => plan.calls env d.flash.mem

def gnaCalls (env : Env) (d : Device) : List CryptoCall :=
  if d.ctap.gGaCount = 0 ∨ d.ctap.gGaIdx + 1 ≥ d.ctap.gGaCount then []
  else
    match passkeyGetByRpIndex d.flash.mem d.ctap.gGaRpHash (d.ctap.gGaIdx + 1) with
    | none => []
    | some i =>
        if env.presence.status ≠ 0x00 then []
        else [gaSign d.flash.mem i (authDataHeader d.ctap.gGaRpHash 0x01) d.ctap.gGaCdh]

/-- Of the subcommands of ClientPIN, only getKeyAgreement makes a key. -/
def pinCalls (d : Device) (req reqLen : ℕ) : Rd (List CryptoCall) := do
  if reqLen < 1 then return []
  match ← getCborMapInt req reqLen 0x02 with
  | none => return []
  | some subCmd =>
      let proto ← getCborMapInt req reqLen 0x01
      let active := proto.getD d.pin.activePinProtocol
      if subCmd ≠ 0x01 ∧ active ≠ 1 ∧ active ≠ 2 then return []
      else if subCmd = 0x02 then return [.makeKey]
      else return []

def processCalls (env : Env) (d : Device) (reqLen : ℕ) (cmd : UInt8) :
    Rd (List CryptoCall) := do
  if cmd = 0x01 then mcCalls env d reqLen
  else if cmd = 0x02 then gaCalls env d reqLen
  else if cmd = 0x08 then return gnaCalls env d
  else if cmd = 0x06 then pinCalls d 1 (reqLen - 1)
  else return []

/-- The calls of `uECC_make_key` and `uECC_sign` during the command, in their order. -/
def Device.cryptoCalls (d : Device) (c : Command) : List CryptoCall :=
  if c.reqLen = 0 then []
  else ((processCalls c.env (d.onChannel c.cid) c.reqLen (c.req 0)).run c.req).getD []

/-- A registration for which the store has no slot, neither the one of its account nor a
free one. -/
def Device.NoSlot (d : Device) (c : Command) : Prop :=
  c.req 0 = 0x01 ∧ ∃ r, (registrationOf c.env c.reqLen).run c.req = some r ∧
    saveSlot d.flash.mem r.rpIdHash r.userId = none

/-- What a command has done which may call the library. -/
inductive CryptoEffect (d : Device) (c : Command) (o : Outcome) : Prop
  | unused (hcalls : d.cryptoCalls c = [])
  | unsaved (hcalls : d.cryptoCalls c = [.makeKey]) (hfull : d.NoSlot c)
      (hresp : o.resp = [0x28]) (hops : o.ops = []) (hpin : o.pin = d.pin)
  | used (hcalls : d.cryptoCalls c ≠ []) (hroom : ¬ d.NoSlot c)
      (hstatus : o.status = some 0x00)

section

variable {d : Device} {c : Command} {o : Outcome}

theorem cryptoCalls_eq (hlen : c.reqLen ≠ 0) {calls : List CryptoCall}
    (h : (processCalls c.env (d.onChannel c.cid) c.reqLen (c.req 0)).run c.req = some calls) :
    d.cryptoCalls c = calls := by
  rw [Device.cryptoCalls, if_neg hlen, h, Option.getD_some]

theorem noSlot_other (hcmd : c.req 0 ≠ 0x01) : ¬ d.NoSlot c := fun h => hcmd h.1

theorem makeCredential_crypto (hlen : c.reqLen ≠ 0) (hcmd : c.req 0 = 0x01)
    (ho : (makeCredential c.env (d.onChannel c.cid) c.reqLen).run c.req = some o) :
    CryptoEffect d c o := by
  have hcalls : ∀ calls, (mcCalls c.env (d.onChannel c.cid) c.reqLen).run c.req = some calls →
      d.cryptoCalls c = calls := by
    intro calls hrun
    refine cryptoCalls_eq hlen ?_
    rw [processCalls, if_pos hcmd]
    exact hrun
  rw [makeCredential_run, run_bind_eq_some] at ho
  obtain ⟨decision, hdecision, ho⟩ := ho
  unfold mcCalls at hcalls
  simp only [run_bind, hdecision, Option.bind_some] at hcalls
  cases decision with
  | error status => exact .unused (hcalls [] rfl)
  | ok go =>
      rcases go with ⟨cdh, verified⟩
      simp only [mcFinish, waitAndRegister, run_ite] at ho
      simp only [run_ite] at hcalls
      by_cases hpresence : c.env.presence.status ≠ 0x00
      · exact .unused (hcalls [] (if_pos hpresence))
      rw [if_neg hpresence, registerCredential_run, Option.map_eq_some_iff] at ho
      obtain ⟨decision, hregister, ho⟩ := ho
      have hcalls : d.cryptoCalls c = decision.calls c.env verified.isSome := by
        refine hcalls _ ?_
        rw [if_neg hpresence]
        exact run_bind_eq_some.2 ⟨decision, hregister, rfl⟩
      have hspec := registerDecision_spec decision hregister
      subst ho
      cases decision with
      | excluded => exact .unused hcalls
      | full => exact .unsaved hcalls ⟨hcmd, hspec⟩ rfl rfl rfl
      | save r i cdh =>
          refine .used (hcalls ▸ List.cons_ne_nil _ _) ?_ rfl
          rintro ⟨-, r', hread, hfull⟩
          rw [hspec.1, Option.some.injEq] at hread
          subst hread
          have hslot := hspec.2
          change saveSlot d.flash.mem r.rpIdHash r.userId = some i at hslot
          rw [hfull] at hslot
          cases hslot

theorem cryptoCalls_other (hmake : c.req 0 ≠ 0x01) (hget : c.req 0 ≠ 0x02)
    (hnext : c.req 0 ≠ 0x08) (hpin : c.req 0 ≠ 0x06) : d.cryptoCalls c = [] := by
  unfold Device.cryptoCalls processCalls
  rw [if_neg hmake, if_neg hget, if_neg hnext, if_neg hpin]
  split_ifs <;> rfl

theorem getAssertion_crypto (hlen : c.reqLen ≠ 0) (hcmd : c.req 0 = 0x02)
    (ho : (getAssertion c.env (d.onChannel c.cid) c.reqLen).run c.req = some o) :
    CryptoEffect d c o := by
  have hroom : ¬ d.NoSlot c := noSlot_other (by rw [hcmd]; decide)
  have hcalls : ∀ calls, (gaCalls c.env (d.onChannel c.cid) c.reqLen).run c.req = some calls →
      d.cryptoCalls c = calls := by
    intro calls hrun
    refine cryptoCalls_eq hlen ?_
    rw [processCalls, if_neg (by rw [hcmd]; decide), if_pos hcmd]
    exact hrun
  rw [getAssertion_run, run_bind_eq_some] at ho
  obtain ⟨⟨ctap, decision⟩, hdecision, ho⟩ := ho
  unfold gaCalls at hcalls
  simp only [run_bind, hdecision, Option.bind_some] at hcalls
  cases decision with
  | refuse verified status => exact .unused (hcalls [] rfl)
  | assert plan =>
      simp only [gaFinish, AssertionPlan.finish, run_ite] at ho
      simp only [AssertionPlan.calls, run_ite] at hcalls
      by_cases hrefused : plan.upRequired ∧ c.env.presence.status ≠ 0x00
      · exact .unused (hcalls [] (if_pos hrefused))
      rw [if_neg hrefused, run_bind_eq_some] at ho
      obtain ⟨cdhBuf, hcdh, ho⟩ := ho
      have hcalls := hcalls _ ((if_neg hrefused).trans
        (run_bind_eq_some.2 ⟨cdhBuf, hcdh, rfl⟩))
      refine .used (hcalls ▸ List.cons_ne_nil _ _) hroom ?_
      rw [← Option.some.inj ho]
      rfl

theorem getNextAssertion_crypto (hlen : c.reqLen ≠ 0) (hcmd : c.req 0 = 0x08)
    (ho : getNextAssertion c.env (d.onChannel c.cid) = o) : CryptoEffect d c o := by
  have hroom : ¬ d.NoSlot c := noSlot_other (by rw [hcmd]; decide)
  have hcalls : d.cryptoCalls c = gnaCalls c.env (d.onChannel c.cid) := by
    refine cryptoCalls_eq hlen ?_
    rw [processCalls, if_neg (by rw [hcmd]; decide), if_neg (by rw [hcmd]; decide), if_pos hcmd]
    rfl
  unfold getNextAssertion at ho
  unfold gnaCalls at hcalls
  split at ho
  · rename_i hdone
    rw [if_pos hdone] at hcalls
    exact .unused hcalls
  · rename_i hmore
    rw [if_neg hmore] at hcalls
    dsimp only at ho
    split at ho
    · rename_i hslot
      rw [hslot] at hcalls
      exact .unused hcalls
    · rename_i i hslot
      rw [hslot] at hcalls
      dsimp only at hcalls
      split at ho
      · rename_i hrefused
        rw [if_pos hrefused] at hcalls
        exact .unused hcalls
      · rename_i hconfirmed
        rw [if_neg hconfirmed] at hcalls
        refine .used (hcalls ▸ List.cons_ne_nil _ _) hroom ?_
        rw [← ho]
        rfl

theorem processClientPin_crypto (hlen : c.reqLen ≠ 0) (hcmd : c.req 0 = 0x06)
    (ho : (processClientPin c.env (d.onChannel c.cid) 1 (c.reqLen - 1)).run c.req = some o) :
    CryptoEffect d c o := by
  have hroom : ¬ d.NoSlot c := noSlot_other (by rw [hcmd]; decide)
  have hcalls : ∀ calls, (pinCalls (d.onChannel c.cid) 1 (c.reqLen - 1)).run c.req = some calls →
      d.cryptoCalls c = calls := by
    intro calls hrun
    refine cryptoCalls_eq hlen ?_
    rw [processCalls, if_neg (by rw [hcmd]; decide), if_neg (by rw [hcmd]; decide),
      if_neg (by rw [hcmd]; decide), if_pos hcmd]
    exact hrun
  unfold pinCalls at hcalls
  unfold processClientPin clientPinFront at ho
  by_cases hshort : c.reqLen - 1 < 1
  · exact .unused (hcalls [] (by rw [if_pos hshort]; rfl))
  simp only [if_neg hshort, run_bind] at hcalls ho
  cases hsub : (getCborMapInt 1 (c.reqLen - 1) 0x02).run c.req with
  | none =>
      rw [hsub] at ho
      cases ho
  | some subCmd =>
      simp only [hsub, Option.bind_some] at hcalls ho
      cases subCmd with
      | none => exact .unused (hcalls [] rfl)
      | some subCmd =>
      simp only [run_bind] at hcalls ho
      cases hproto : (getCborMapInt 1 (c.reqLen - 1) 0x01).run c.req with
      | none =>
          rw [hproto] at ho
          cases ho
      | some proto =>
      simp only [hproto, Option.bind_some] at hcalls ho
      by_cases hunknown : subCmd ≠ 0x01 ∧
          proto.getD (d.onChannel c.cid).pin.activePinProtocol ≠ 1 ∧
          proto.getD (d.onChannel c.cid).pin.activePinProtocol ≠ 2
      · exact .unused (hcalls [] (by rw [if_pos hunknown]; rfl))
      rw [if_neg hunknown] at hcalls ho
      by_cases hagree : subCmd = 0x02
      · have hcalls := hcalls [.makeKey] (by rw [if_pos hagree]; rfl)
        refine .used (hcalls ▸ List.cons_ne_nil _ _) hroom ?_
        rw [if_neg (by omega), if_pos hagree] at ho
        rw [← Option.some.inj ho]
        rfl
      · exact .unused (hcalls [] (by rw [if_neg hagree]; rfl))

/-- What a command has done, by the calls it has made. -/
theorem outcome_crypto (ho : d.outcome c = some o) : CryptoEffect d c o := by
  by_cases hlen : c.reqLen = 0
  · exact .unused (if_pos hlen)
  by_cases hmake : c.req 0 = 0x01
  · rw [outcome_eq hlen, hmake] at ho
    exact makeCredential_crypto hlen hmake ho
  by_cases hget : c.req 0 = 0x02
  · rw [outcome_eq hlen, hget] at ho
    exact getAssertion_crypto hlen hget ho
  by_cases hnext : c.req 0 = 0x08
  · rw [outcome_eq hlen, hnext] at ho
    exact getNextAssertion_crypto hlen hnext (Option.some.inj ho)
  by_cases hpin : c.req 0 = 0x06
  · rw [outcome_eq hlen, hpin] at ho
    exact processClientPin_crypto hlen hpin ho
  · exact .unused (cryptoCalls_other hmake hget hnext hpin)

/-! ## Failures -/

/-- A failed call ends the command with an error and leaves nothing behind; `returned` is
what the calls return, with 0 as `false`. -/
structure CryptoReported (d : Device) (c : Command) (o : Outcome)
    (returned : CryptoCall → Bool) : Prop where
  success : o.status = some 0x00 → ∀ call ∈ d.cryptoCalls c, returned call = true
  failure : (∃ call ∈ d.cryptoCalls c, returned call = false) →
    (∃ status, status ≠ 0x00 ∧ o.status = some status) ∧ o.ops = [] ∧
      (o.pin.ecdhKeyValid = true → d.pin.ecdhKeyValid = true)

/-- A failed call is reported only by the registration for which the store has no slot. -/
theorem cryptoReported_iff (returned : CryptoCall → Bool) (ho : d.outcome c = some o) :
    CryptoReported d c o returned ↔
      (∀ call ∈ d.cryptoCalls c, returned call = true) ∨ d.NoSlot c := by
  by_cases hall : ∀ call ∈ d.cryptoCalls c, returned call = true
  · refine iff_of_true ⟨fun _ => hall, ?_⟩ (.inl hall)
    rintro ⟨call, hmem, hfailed⟩
    rw [hall call hmem] at hfailed
    cases hfailed
  cases outcome_crypto ho with
  | unused hcalls =>
      rw [hcalls] at hall
      exact absurd (List.forall_mem_nil _) hall
  | unsaved hcalls hfull hresp hops hpin =>
      have hstatus : o.status = some 0x28 := by rw [Outcome.status, hresp]; rfl
      refine iff_of_true ⟨fun hsuccess => ?_, fun _ => ?_⟩ (.inr hfull)
      · rw [hstatus] at hsuccess
        cases hsuccess
      · exact ⟨⟨0x28, by decide, hstatus⟩, hops, fun hvalid => hpin ▸ hvalid⟩
  | used hcalls hroom hstatus =>
      refine iff_of_false (fun h => hall (h.success hstatus)) ?_
      rintro (hreturned | hfull)
      · exact hall hreturned
      · exact hroom hfull

end

/-- A store whose slots all hold a credential. -/
def fullStore : Mem := fun a =>
  if passkeyFlashStart ≤ a ∧ a < passkeyFlashEnd then
    (newKey (Bytes.fill 1 32 []) [] [0x01] [] (Bytes.fill 2 32 [])
      (Bytes.fill 3 32 [])).toBytes.getD ((a - passkeyFlashStart) % passkeyPageSize) 0xFF
  else 0xFF

/-- MakeCredential which names neither a site nor a user. -/
def bareRegistration : Command := hostCommand [0x01, 0xA0]

theorem bareRegistration_noSlot : (Device.powerUp fullStore).NoSlot bareRegistration := by
  have hruns : ((registrationOf bareRegistration.env bareRegistration.reqLen).run
      bareRegistration.req).any
        (fun r => saveSlot (Device.powerUp fullStore).flash.mem r.rpIdHash r.userId = none) := by
    decide +kernel
  obtain ⟨r, hread, hslot⟩ := (Option.any_eq_true _ _).1 hruns
  exact ⟨rfl, r, hread, of_decide_eq_true hslot⟩

/-- getKeyAgreement with a key pair, and a registration for which there is no slot whose key
pair was not made. -/
theorem cryptoReported_keyAgreement_noSlot :
    (∃ o, (Device.powerUp fun _ => 0xFF).outcome agreeCommand = some o ∧
      CryptoReported (Device.powerUp fun _ => 0xFF) agreeCommand o fun _ => true) ∧
    ∃ o, (Device.powerUp fullStore).outcome bareRegistration = some o ∧
      .makeKey ∈ (Device.powerUp fullStore).cryptoCalls bareRegistration ∧
      CryptoReported (Device.powerUp fullStore) bareRegistration o fun _ => false := by
  have hruns : ((Device.powerUp fun _ => 0xFF).outcome agreeCommand).isSome ∧
      ((Device.powerUp fullStore).outcome bareRegistration).isSome ∧
      .makeKey ∈ (Device.powerUp fullStore).cryptoCalls bareRegistration := by
    decide +kernel
  obtain ⟨hagree, hregister, hcalls⟩ := hruns
  obtain ⟨o, ho⟩ := Option.isSome_iff_exists.1 hagree
  obtain ⟨o', ho'⟩ := Option.isSome_iff_exists.1 hregister
  exact ⟨⟨o, ho, (cryptoReported_iff _ ho).2 (.inl fun _ _ => rfl)⟩,
    o', ho', hcalls, (cryptoReported_iff _ ho').2 (.inr bareRegistration_noSlot)⟩

/-- getKeyAgreement without one. -/
theorem keyAgreement_without_key : ∃ o,
    (Device.powerUp fun _ => 0xFF).outcome agreeCommand = some o ∧ o.status = some 0x00 ∧
      o.pin.ecdhKeyValid = true ∧
        ¬ CryptoReported (Device.powerUp fun _ => 0xFF) agreeCommand o fun _ => false := by
  have hruns : ((Device.powerUp fun _ => 0xFF).outcome agreeCommand).any
      (fun o => o.status = some 0x00 ∧ o.pin.ecdhKeyValid = true) := by decide +kernel
  obtain ⟨o, ho, hanswer⟩ := (Option.any_eq_true _ _).1 hruns
  rw [decide_eq_true_eq] at hanswer
  have hcalls : (Device.powerUp fun _ => 0xFF).cryptoCalls agreeCommand = [.makeKey] := by
    decide +kernel
  refine ⟨o, ho, hanswer.1, hanswer.2, fun h => ?_⟩
  have hreturned := h.success hanswer.1 .makeKey (by rw [hcalls]; exact List.mem_singleton_self _)
  cases hreturned

/-! ## What depends on the library -/

/-- The same environment with another library. -/
def Env.withCrypto (env : Env) (makeKey : Bytes 64 × Bytes 32)
    (sign : Bytes 32 → Bytes 32 → Bytes 64) : Env :=
  { env with makeKey := makeKey, sign := sign }

/-- The call leaves the same in both environments. -/
def CryptoCall.Agrees (env env' : Env) : CryptoCall → Prop
  | makeKey => env'.makeKey = env.makeKey
  | sign privateKey hash => env'.sign privateKey hash = env.sign privateKey hash

section

variable {env : Env} {d : Device} {c : Command} {reqLen : ℕ} {m : Mem}
  {makeKey : Bytes 64 × Bytes 32} {sign : Bytes 32 → Bytes 32 → Bytes 64}

theorem registerFinish_withCrypto {verified : Option (List UInt8)} {decision : RegisterDecision}
    (h : ∀ call ∈ decision.calls env verified.isSome,
      call.Agrees env (env.withCrypto makeKey sign)) :
    decision.finish (env.withCrypto makeKey sign) d verified = decision.finish env d verified := by
  cases decision with
  | excluded => rfl
  | full => rfl
  | save r i cdh =>
      obtain rfl : makeKey = env.makeKey := h .makeKey (List.mem_cons_self ..)
      have hsign : sign env.makeKey.2 (sigHash (r.authData env verified.isSome) cdh) =
          env.sign env.makeKey.2 (sigHash (r.authData env verified.isSome) cdh) :=
        h (.sign _ _) (by simp [RegisterDecision.calls])
      have hattest : attestation (env.withCrypto env.makeKey sign) r.rpIdHash verified.isSome cdh =
          attestation env r.rpIdHash verified.isSome cdh :=
        congrArg (fun sig => mcResponse (r.authData env verified.isSome) (ecdsaSigToDer sig)) hsign
      exact congrArg (d.replyUnder verified (writePageOps (slotAddr i) (r.key env).toBytes)) hattest

theorem makeCredential_withCrypto (h : ∀ calls, (mcCalls env d reqLen).run m = some calls →
      ∀ call ∈ calls, call.Agrees env (env.withCrypto makeKey sign)) :
    (makeCredential (env.withCrypto makeKey sign) d reqLen).run m =
      (makeCredential env d reqLen).run m := by
  rw [makeCredential_run, makeCredential_run, run_bind, run_bind]
  unfold mcCalls at h
  rw [run_bind] at h
  cases hdecision : (mcDecision d reqLen).run m with
  | none => rw [Option.bind_none, Option.bind_none]
  | some decision =>
      rw [hdecision, Option.bind_some] at h
      rw [Option.bind_some, Option.bind_some]
      cases decision with
      | error status => rfl
      | ok go =>
          rcases go with ⟨cdh, verified⟩
          simp only [run_ite] at h
          simp only [mcFinish, waitAndRegister, run_ite]
          by_cases hpresence : env.presence.status ≠ 0x00
          · rw [if_pos hpresence, if_pos (show (env.withCrypto makeKey sign).presence.status ≠ 0x00
              from hpresence)]
            rfl
          · rw [if_neg hpresence] at h
            rw [if_neg hpresence,
              if_neg (show ¬ (env.withCrypto makeKey sign).presence.status ≠ 0x00 from hpresence),
              registerCredential_run, registerCredential_run]
            change ((registerDecision env d.flash.mem reqLen cdh).run m).map _ =
              ((registerDecision env d.flash.mem reqLen cdh).run m).map _
            cases hregister : (registerDecision env d.flash.mem reqLen cdh).run m with
            | none => rw [Option.map_none, Option.map_none]
            | some decision =>
                rw [Option.map_some, Option.map_some]
                exact congrArg some (registerFinish_withCrypto
                  (h _ (run_bind_eq_some.2 ⟨decision, hregister, rfl⟩)))

theorem gaBuildResponse_withCrypto {flash : Mem} {i : Slot} {authData37 : List UInt8}
    {cdh32 : Bytes 32} {total : ℕ}
    (h : (gaSign flash i authData37 cdh32).Agrees env (env.withCrypto makeKey sign)) :
    gaBuildResponse (env.withCrypto makeKey sign) flash i authData37 cdh32 total =
      gaBuildResponse env flash i authData37 cdh32 total := by
  have hsignature : signature (env.withCrypto makeKey sign) (flash.slotKey i).privateKey
      authData37 cdh32.val = signature env (flash.slotKey i).privateKey authData37 cdh32.val := h
  unfold gaBuildResponse
  dsimp only
  rw [hsignature]

theorem getAssertion_withCrypto (h : ∀ calls, (gaCalls env d reqLen).run m = some calls →
      ∀ call ∈ calls, call.Agrees env (env.withCrypto makeKey sign)) :
    (getAssertion (env.withCrypto makeKey sign) d reqLen).run m =
      (getAssertion env d reqLen).run m := by
  rw [getAssertion_run, getAssertion_run, run_bind, run_bind]
  unfold gaCalls at h
  rw [run_bind] at h
  cases hdecision : (gaDecision d reqLen).run m with
  | none => rw [Option.bind_none, Option.bind_none]
  | some r =>
      rcases r with ⟨ctap, decision⟩
      rw [hdecision, Option.bind_some] at h
      rw [Option.bind_some, Option.bind_some]
      cases decision with
      | refuse verified status => rfl
      | assert plan =>
          simp only [AssertionPlan.calls, run_ite] at h
          simp only [gaFinish, AssertionPlan.finish, run_ite]
          by_cases hrefused : plan.upRequired ∧ env.presence.status ≠ 0x00
          · rw [if_pos hrefused, if_pos (show plan.upRequired ∧
              (env.withCrypto makeKey sign).presence.status ≠ 0x00 from hrefused)]
            rfl
          · rw [if_neg hrefused] at h
            rw [if_neg hrefused, if_neg (show ¬ (plan.upRequired ∧
              (env.withCrypto makeKey sign).presence.status ≠ 0x00) from hrefused), run_bind,
              run_bind]
            cases hcdh : (signedCdh plan.cdh).run m with
            | none => rw [Option.bind_none, Option.bind_none]
            | some cdhBuf =>
                rw [Option.bind_some, Option.bind_some]
                have hsign := h _ (run_bind_eq_some.2 ⟨cdhBuf, hcdh, rfl⟩) _
                  (List.mem_singleton_self _)
                have hresponse : gaBuildResponse (env.withCrypto makeKey sign) d.flash.mem plan.slot
                    _ cdhBuf plan.total = gaBuildResponse env d.flash.mem plan.slot _ cdhBuf
                      plan.total := gaBuildResponse_withCrypto hsign
                have hflash : (if plan.upRequired then Device.waited { d with ctap := ctap } env
                    else { d with ctap := ctap }).flash.mem = d.flash.mem := by
                  split <;> rfl
                rw [← hflash] at hresponse
                exact congrArg (fun resp => some (Device.replyUnder (if plan.upRequired then
                  Device.waited { d with ctap := ctap } env else { d with ctap := ctap })
                  plan.verified [] resp)) hresponse

theorem getNextAssertion_withCrypto
    (h : ∀ call ∈ gnaCalls env d, call.Agrees env (env.withCrypto makeKey sign)) :
    getNextAssertion (env.withCrypto makeKey sign) d = getNextAssertion env d := by
  unfold gnaCalls at h
  unfold getNextAssertion
  split
  · rfl
  · rename_i hmore
    rw [if_neg hmore] at h
    dsimp only
    split
    · rfl
    · rename_i i hslot
      rw [hslot] at h
      dsimp only at h
      by_cases hrefused : env.presence.status ≠ 0x00
      · rw [if_pos hrefused, if_pos (show (env.withCrypto makeKey sign).presence.status ≠ 0x00
          from hrefused)]
        rfl
      · rw [if_neg hrefused] at h
        rw [if_neg hrefused, if_neg (show ¬ (env.withCrypto makeKey sign).presence.status ≠ 0x00
          from hrefused)]
        exact congrArg (Device.reply _)
          (gaBuildResponse_withCrypto (h _ (List.mem_singleton_self _)))

theorem clientPinFront_withCrypto {req : ℕ}
    (h : ∀ calls, (pinCalls d req reqLen).run m = some calls →
      ∀ call ∈ calls, call.Agrees env (env.withCrypto makeKey sign)) :
    (clientPinFront (env.withCrypto makeKey sign) d req reqLen).run m =
      (clientPinFront env d req reqLen).run m := by
  by_cases hkey : makeKey = env.makeKey
  · subst hkey
    rfl
  have hnone : (pinCalls d req reqLen).run m ≠ some [.makeKey] := fun hrun =>
    hkey (h _ hrun .makeKey (List.mem_singleton_self _))
  unfold pinCalls at hnone
  unfold clientPinFront
  by_cases hshort : reqLen < 1
  · rw [if_pos hshort, if_pos hshort]
  rw [if_neg hshort, run_bind] at hnone
  rw [if_neg hshort, if_neg hshort, run_bind, run_bind]
  cases hsub : (getCborMapInt req reqLen 0x02).run m with
  | none => rw [Option.bind_none, Option.bind_none]
  | some subCmd =>
  rw [hsub, Option.bind_some] at hnone
  rw [Option.bind_some, Option.bind_some]
  cases subCmd with
  | none => rfl
  | some subCmd =>
  dsimp only at hnone ⊢
  rw [run_bind] at hnone
  rw [run_bind, run_bind]
  cases hproto : (getCborMapInt req reqLen 0x01).run m with
  | none => rw [Option.bind_none, Option.bind_none]
  | some proto =>
  rw [hproto, Option.bind_some] at hnone
  rw [Option.bind_some, Option.bind_some]
  by_cases hagree : subCmd = 0x02
  · by_cases hunknown : subCmd ≠ 0x01 ∧ proto.getD d.pin.activePinProtocol ≠ 1 ∧
        proto.getD d.pin.activePinProtocol ≠ 2
    · rw [if_pos hunknown, if_pos hunknown]
    · rw [if_neg hunknown, if_pos hagree] at hnone
      exact absurd rfl hnone
  · have hhost : hostPublicKey (env.withCrypto makeKey sign) req reqLen =
        hostPublicKey env req reqLen := rfl
    simp only [if_neg hagree, hhost]
    rfl

theorem processClientPin_withCrypto {req : ℕ}
    (h : ∀ calls, (pinCalls d req reqLen).run m = some calls →
      ∀ call ∈ calls, call.Agrees env (env.withCrypto makeKey sign)) :
    (processClientPin (env.withCrypto makeKey sign) d req reqLen).run m =
      (processClientPin env d req reqLen).run m := by
  rw [processClientPin, processClientPin, run_bind, run_bind, clientPinFront_withCrypto h]
  rfl

theorem processCommand_withCrypto {cmd : UInt8}
    (h : ∀ calls, (processCalls env d reqLen cmd).run m = some calls →
      ∀ call ∈ calls, call.Agrees env (env.withCrypto makeKey sign)) :
    (processCommand (env.withCrypto makeKey sign) d reqLen cmd).run m =
      (processCommand env d reqLen cmd).run m := by
  unfold processCalls at h
  unfold processCommand
  simp only [run_ite] at h ⊢
  split_ifs with h4 h1 h2 h8 h6 hA h7 h55
  · rfl
  · rw [if_pos h1] at h
    exact makeCredential_withCrypto h
  · rw [if_neg h1, if_pos h2] at h
    exact getAssertion_withCrypto h
  · rw [if_neg h1, if_neg h2, if_pos h8] at h
    rw [getNextAssertion_withCrypto (h _ rfl)]
  · rw [if_neg h1, if_neg h2, if_neg h8, if_pos h6] at h
    exact processClientPin_withCrypto h
  · rfl
  · rfl
  · rfl
  · rfl

/-- Nothing but the results of the listed calls is taken from the library. -/
theorem outcome_withCrypto (h : ∀ call ∈ d.cryptoCalls c,
      call.Agrees c.env (c.env.withCrypto makeKey sign)) :
    d.outcome { c with env := c.env.withCrypto makeKey sign } = d.outcome c := by
  by_cases hlen : c.reqLen = 0
  · simp [Device.outcome, fido2ProcessCbor, hlen]
  rw [outcome_eq hlen, outcome_eq (c := { c with env := c.env.withCrypto makeKey sign }) hlen]
  refine processCommand_withCrypto fun calls hcalls => ?_
  rwa [cryptoCalls_eq hlen hcalls] at h

end

end UnsoloKey
