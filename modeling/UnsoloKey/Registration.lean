import UnsoloKey.Effects
import UnsoloKey.StoreRefinement
import Mathlib.Tactic

/-!
# What a registration stores

MakeCredential reads the strings of the account from its request, looks for the
slot of that account or else for a free one, and writes the page of that slot.
Every other way through the command ends with an error and no flash step.
-/

namespace UnsoloKey

open Rd

/-! ## The slot of an account -/

/-- The slot holds a credential of this relying party and user. -/
def holdsUser (flash : Mem) (rpIdHash : Bytes 32) (userId : List UInt8)
    (i : Slot) : Bool :=
  (flash.slotKey i).magic = passkeyMagic ∧ (flash.slotKey i).rpIdHash = rpIdHash ∧
    (flash.slotKey i).userIdLen.toNat = userId.length ∧
    flash.slice (slotAddr i + 37) userId.length = userId

/-- The slot of the account, else the first free one. -/
def saveSlot (flash : Mem) (rpIdHash : Bytes 32) (userId : List UInt8) :
    Option Slot :=
  (slots.find? (holdsUser flash rpIdHash userId)).or
    (slots.find? fun i => (flash.slotKey i).magic = emptyMagic)

section

variable {flash m : Mem} {rpIdHash : Bytes 32} {userId : ℕ} {userIdLen : UInt8}

theorem sameAccount_run (i : Slot) :
    (sameAccount flash rpIdHash userId userIdLen i).run m =
      some (holdsUser flash rpIdHash (m.slice userId userIdLen.toNat) i) := by
  unfold sameAccount holdsUser
  by_cases hmagic : (flash.slotKey i).magic = passkeyMagic
  · by_cases hhash : (flash.slotKey i).rpIdHash = rpIdHash
    · by_cases hlen : (flash.slotKey i).userIdLen = userIdLen
      · simp [hmagic, hhash, hlen]
      · have hne : (flash.slotKey i).userIdLen.toNat ≠ userIdLen.toNat :=
          fun h => hlen (UInt8.toNat_inj.1 h)
        simp [hmagic, hhash, hlen, hne]
    · simp [hmagic, hhash]
  · simp [hmagic]

theorem findSaveSlot_run :
    (findSaveSlot flash (sameAccount flash rpIdHash userId userIdLen) slots none).run
      m = some (saveSlot flash rpIdHash (m.slice userId userIdLen.toNat)) := by
  apply run_findSaveSlot sameAccount_run
  intro i hempty
  have hne : emptyMagic ≠ passkeyMagic := passkeyMagic_ne_emptyMagic.symm
  simp [holdsUser, hempty, hne]

theorem passkeySave_run {rpId userName : ℕ} {rpIdLen userNameLen : UInt8}
    {credentialId privateKey : Bytes 32} :
    (passkeySave flash rpIdHash rpId rpIdLen userId userIdLen userName userNameLen
      credentialId privateKey).run m =
      some (match saveSlot flash rpIdHash (m.slice userId userIdLen.toNat) with
        | none => (-1, [])
        | some i => (0, writePageOps (slotAddr i) (newKey rpIdHash
            ((m.slice rpId rpIdLen.toNat).take 32)
            ((m.slice userId userIdLen.toNat).take 64)
            ((m.slice userName userNameLen.toNat).take 32)
            credentialId privateKey).toBytes)) := by
  have h32 : (32 : UInt8).toNat = 32 := rfl
  have h64 : (64 : UInt8).toNat = 64 := rfl
  rw [passkeySave, run_bind, findSaveSlot_run, Option.bind_some]
  cases saveSlot flash rpIdHash (m.slice userId userIdLen.toNat) with
  | none => rfl
  | some i =>
      simp only [run_bind, run_bytes, run_pure, Option.bind_some, slice_minByte,
        h32, h64]

end

/-! ## Reading the request -/

/-- The strings of one registration. -/
structure Registration where
  rpId : List UInt8
  rpIdHash : Bytes 32
  userId : List UInt8
  userName : List UInt8

/-- A string found in the request, with its length as a byte. -/
def readString (s : Option (ℕ × ℕ)) : Rd (List UInt8) :=
  bytes (s.getD (0, 0)).1 (UInt8.ofNat (s.getD (0, 0)).2).toNat

def registrationOf (env : Env) (reqLen : ℕ) : Rd Registration := do
  let rpItem ← getCborMapItem 1 (reqLen - 1) 0x02
  let rpId ← rpIdOf (rpItem.pointer env)
  let rpIdHash ← rpIdHashOf rpId
  let userItem ← getCborMapItem 1 (reqLen - 1) 0x03
  let user ← userStrings (userItem.pointer env)
  return ⟨← readString rpId, rpIdHash, ← readString user.1, ← readString user.2⟩

/-- Whether the excludeList names a credential of the relying party. -/
def registrationExcluded (env : Env) (flash : Mem) (reqLen : ℕ) : Rd Bool := do
  let rpItem ← getCborMapItem 1 (reqLen - 1) 0x02
  let rpId ← rpIdOf (rpItem.pointer env)
  let rpIdHash ← rpIdHashOf rpId
  let exItem ← getCborMapItem 1 (reqLen - 1) 0x05
  excludeListHit flash rpIdHash (exItem.pointer env)

/-- The struct which the registration leaves in its slot. -/
def Registration.key (r : Registration) (env : Env) : ResidentKey :=
  newKey r.rpIdHash (r.rpId.take 32) (r.userId.take 64) (r.userName.take 32)
    (env.rng 0 32) env.makeKey.2

/-- What the command has done after the touch. -/
inductive RegisterEffect (env : Env) (d : Device) (reqLen : ℕ) (m : Mem)
    (cdh : Option (ℕ × ℕ)) (verified : Option (List UInt8)) (o : Outcome) : Prop
  | excluded
      (hex : (registrationExcluded env d.flash.mem reqLen).run m = some true)
      (ho : o = d.replyUnder verified [] [0x2C])
  | full (r : Registration) (hread : (registrationOf env reqLen).run m = some r)
      (hslot : saveSlot d.flash.mem r.rpIdHash r.userId = none)
      (ho : o = d.replyUnder verified [] [0x28])
  | saved (r : Registration) (i : Slot) (cdhBytes : List UInt8)
      (hex : (registrationExcluded env d.flash.mem reqLen).run m = some false)
      (hread : (registrationOf env reqLen).run m = some r)
      (hslot : saveSlot d.flash.mem r.rpIdHash r.userId = some i)
      (hcdh : (attestedCdh cdh).run m = some cdhBytes)
      (ho : o = d.replyUnder verified (writePageOps (slotAddr i) (r.key env).toBytes)
        (attestation env r.rpIdHash verified.isSome cdhBytes))

section

variable {env : Env} {d : Device} {reqLen : ℕ} {m : Mem} {cdh : Option (ℕ × ℕ)}
  {verified : Option (List UInt8)}

theorem registerCredential_effect :
    (registerCredential env d reqLen cdh verified).Returns m
      fun o => RegisterEffect env d reqLen m cdh verified o := by
  unfold registerCredential
  refine Returns.bind_run fun rpItem hrpItem => Returns.bind_run fun rpId hrpId =>
    Returns.bind_run fun rpIdHash hhash => Returns.bind_run fun exItem hexItem =>
    Returns.bind_run fun hit hhit => ?_
  have hex : (registrationExcluded env d.flash.mem reqLen).run m = some hit := by
    simp [registrationExcluded, hrpItem, hrpId, hhash, hexItem, hhit]
  apply Returns.ite
  · rintro rfl
    exact Returns.pure (.excluded hex rfl)
  · intro hmiss
    rw [Bool.not_eq_true] at hmiss
    subst hmiss
    refine Returns.bind_run fun userItem huserItem =>
      Returns.bind_run fun user huser => Returns.bind_run fun saved hsaved => ?_
    have hread : (registrationOf env reqLen).run m = some
        ⟨m.slice (rpId.getD (0, 0)).1 (UInt8.ofNat (rpId.getD (0, 0)).2).toNat,
          rpIdHash,
          m.slice (user.1.getD (0, 0)).1 (UInt8.ofNat (user.1.getD (0, 0)).2).toNat,
          m.slice (user.2.getD (0, 0)).1
            (UInt8.ofNat (user.2.getD (0, 0)).2).toNat⟩ := by
      simp only [registrationOf, readString, run_bind, run_bytes, run_pure, hrpItem,
        hrpId, hhash, huserItem, huser, Option.bind_some]
    rw [saveCredential, passkeySave_run, Option.some.injEq] at hsaved
    cases hslot : saveSlot d.flash.mem rpIdHash (m.slice (user.1.getD (0, 0)).1
        (UInt8.ofNat (user.1.getD (0, 0)).2).toNat) with
    | none =>
        rw [hslot] at hsaved
        subst hsaved
        rw [if_pos (by simp)]
        exact Returns.pure (.full _ hread hslot rfl)
    | some i =>
        rw [hslot] at hsaved
        subst hsaved
        rw [if_neg (by simp)]
        refine Returns.bind_run fun cdhBytes hcdh => Returns.pure ?_
        exact .saved _ i cdhBytes hex hread hslot hcdh rfl

/-! ## Before the touch -/

/-- The part of MakeCredential before the touch wait: a status byte ends the
command, otherwise it goes on with the clientDataHash and with the token under
which a pinUvAuthParam has verified. -/
def mcDecision (d : Device) (reqLen : ℕ) :
    Rd (Except UInt8 (Option (ℕ × ℕ) × Option (List UInt8))) := do
  let cdh ← getCborMapString 1 (reqLen - 1) 0x01
  let pinAuth ← getCborMapString 1 (reqLen - 1) 0x08
  let pinSet := (pinLoad d.flash.mem).isSome
  match pinAuth with
  | some (pinAuth, pinAuthLen) =>
      if pinAuthLen = 0 then return .error (if pinSet then 0x33 else 0x35)
      else
        let _ ← getCborMapValue 1 (reqLen - 1) 0x07
        let valid ← pinAuthValid d.pin cdh pinAuth pinAuthLen
        if ¬ valid then return .error 0x33
        else return .ok (cdh, some d.pin.tokenKey)
  | none =>
      match ← getCborMapValue 1 (reqLen - 1) 0x07 with
      | none => return .ok (cdh, none)
      | some options =>
          match ← optionsRefused pinSet options.ptr reqLen with
          | some status => return .error status
          | none => return .ok (cdh, none)

def mcFinish (env : Env) (d : Device) (reqLen : ℕ) :
    Except UInt8 (Option (ℕ × ℕ) × Option (List UInt8)) → Rd Outcome
  | .error status => return d.reply [status]
  | .ok (cdh, verified) => waitAndRegister env d reqLen cdh verified

theorem makeCredential_run :
    (makeCredential env d reqLen).run m =
      (mcDecision d reqLen >>= mcFinish env d reqLen).run m := by
  rw [run_bind, makeCredential, mcDecision]
  cases hcdh : (getCborMapString 1 (reqLen - 1) 0x01).run m with
  | none => simp [hcdh]
  | some cdh =>
      cases hpinAuth : (getCborMapString 1 (reqLen - 1) 0x08).run m with
      | none => simp [hcdh, hpinAuth]
      | some pinAuth =>
          simp only [run_bind, hcdh, hpinAuth, Option.bind_some]
          cases pinAuth with
          | some p =>
              dsimp only
              by_cases hprobe : p.2 = 0
              · rw [if_pos hprobe, if_pos hprobe]
                rfl
              · rw [if_neg hprobe, if_neg hprobe]
                simp only [run_bind, Option.bind_assoc]
                congr 1
                funext _
                congr 1
                funext valid
                cases valid <;> rfl
          | none =>
              dsimp only
              simp only [run_bind, Option.bind_assoc]
              congr 1
              funext options
              cases options with
              | none => rfl
              | some v =>
                  simp only [run_bind, Option.bind_assoc]
                  congr 1
                  funext refused
                  cases refused <;> rfl

theorem mcDecision_spec :
    (mcDecision d reqLen).Returns m fun decision => match decision with
      | .error status => status ≠ 0x00
      | .ok (cdh, verified) =>
          (getCborMapString 1 (reqLen - 1) 0x01).run m = some cdh ∧
            d.pin.Verifies verified := by
  unfold mcDecision
  refine Returns.bind_run fun cdh hcdh => Returns.bind fun pinAuth => ?_
  cases pinAuth with
  | some p =>
      apply Returns.ite
      · intro _
        refine Returns.pure ?_
        dsimp only
        split <;> decide
      · intro _
        refine Returns.bind fun _ =>
          Returns.bind_of pinAuthValid_token fun valid hvalid => ?_
        apply Returns.ite
        · intro _
          exact Returns.pure (show (0x33 : UInt8) ≠ 0x00 by decide)
        · intro hok
          exact Returns.pure
            ⟨hcdh, verifies_tokenKey (hvalid (not_not.1 hok))⟩
  | none =>
      refine Returns.bind fun options => ?_
      cases options with
      | none => exact Returns.pure ⟨hcdh, verifies_none _⟩
      | some v =>
          refine Returns.bind_of optionsRefused_nonzero fun refused hrefused => ?_
          cases refused with
          | some status => exact Returns.pure (hrefused status rfl)
          | none => exact Returns.pure ⟨hcdh, verifies_none _⟩

/-- What MakeCredential has done. -/
inductive MakeCredentialEffect (env : Env) (d : Device) (reqLen : ℕ) (m : Mem)
    (o : Outcome) : Prop
  | refused (status : UInt8) (hstatus : status ≠ 0x00)
      (hdecision : (mcDecision d reqLen).run m = some (.error status))
      (ho : o = d.reply [status])
  | untouched (cdh : Option (ℕ × ℕ)) (verified : Option (List UInt8))
      (hdecision : (mcDecision d reqLen).run m = some (.ok (cdh, verified)))
      (hpresence : env.presence ≠ .confirmed)
      (ho : o = (d.waited env).replyUnder verified [] [env.presence.status])
  | registered (cdh : Option (ℕ × ℕ)) (verified : Option (List UInt8))
      (hdecision : (mcDecision d reqLen).run m = some (.ok (cdh, verified)))
      (hpresence : env.presence = .confirmed)
      (h : RegisterEffect env (d.waited env) reqLen m cdh verified o)

theorem makeCredential_effect :
    (makeCredential env d reqLen).Returns m
      fun o => MakeCredentialEffect env d reqLen m o := by
  intro o ho
  rw [makeCredential_run, run_bind_eq_some] at ho
  obtain ⟨decision, hdecision, ho⟩ := ho
  cases decision with
  | error status =>
      refine .refused status (mcDecision_spec _ hdecision) hdecision ?_
      exact (Option.some.inj ho).symm
  | ok go =>
      rcases go with ⟨cdh, verified⟩
      simp only [mcFinish, waitAndRegister, run_ite] at ho
      by_cases hpresence : env.presence = .confirmed
      · rw [if_neg (not_not.2 ((presence_status_eq_zero_iff _).2 hpresence))] at ho
        exact .registered cdh verified hdecision hpresence
          (registerCredential_effect o ho)
      · rw [if_pos (mt (presence_status_eq_zero_iff _).1 hpresence)] at ho
        exact .untouched cdh verified hdecision hpresence (Option.some.inj ho).symm

/-- A registration which has succeeded has written the page of slot `i`. -/
structure SavedIn (env : Env) (d : Device) (reqLen : ℕ) (m : Mem) (o : Outcome)
    (r : Registration) (i : Slot) : Prop where
  read : (registrationOf env reqLen).run m = some r
  slot : saveSlot d.flash.mem r.rpIdHash r.userId = some i
  ops : o.ops = writePageOps (slotAddr i) (r.key env).toBytes

theorem makeCredential_saved :
    (makeCredential env d reqLen).Returns m fun o =>
      o.status = some 0x00 → ∃ r i, SavedIn env d reqLen m o r i := by
  intro o ho hok
  cases makeCredential_effect o ho with
  | refused status hstatus _ ho =>
      rw [ho, reply_status] at hok
      exact absurd (Option.some.inj hok) hstatus
  | untouched cdh verified _ hpresence ho =>
      rw [ho, replyUnder_status] at hok
      exact absurd ((presence_status_eq_zero_iff _).1 (Option.some.inj hok)) hpresence
  | registered cdh verified _ _ heffect =>
      cases heffect with
      | excluded _ ho =>
          rw [ho, replyUnder_status] at hok
          exact absurd (Option.some.inj hok) (by decide)
      | full _ _ _ ho =>
          rw [ho, replyUnder_status] at hok
          exact absurd (Option.some.inj hok) (by decide)
      | saved r i cdhBytes _ hread hslot _ ho => exact ⟨r, i, hread, hslot, by rw [ho]; rfl⟩

end

end UnsoloKey
