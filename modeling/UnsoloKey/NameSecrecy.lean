import UnsoloKey.NameFields
import UnsoloKey.TwoRuns
import UnsoloKey.AssertionWalk
import UnsoloKey.Management
import Mathlib.Tactic

/-!
# Who learns a user name

Two devices which differ in nothing but user names are given the same requests.  Without
a token and without a correct PIN entry they answer alike, except where an assertion
names its user.
-/

namespace UnsoloKey

open Rd Trace Cbor

def storedName (m : Mem) (i : Slot) : List UInt8 :=
  m.slice (slotAddr i + 166) (m.slotKey i).userNameLen.toNat

/-- The user of an assertion: a name which is empty is left out. -/
def userEntry (userId name : List UInt8) : Entry :=
  (.uint 4, .map ((str "id", .bytes userId) ::
    if name = [] then [] else [(str "name", .text name)]))

/-- Two assertions for the user in one slot, which differ in the name alone. -/
def DifferInName (m m' : Mem) (resp resp' : List UInt8) : Prop :=
  ∃ (i : Slot) (before after : List Entry) (userId : List UInt8),
    (m.slotKey i).isOccupied ∧
    resp = 0x00 :: (Item.map (before ++ userEntry userId (storedName m i) :: after)).encode ∧
    resp' = 0x00 :: (Item.map (before ++ userEntry userId (storedName m' i) :: after)).encode

def Device.withFlash (d : Device) (f : Flash) : Device := { d with flash := f }

section

variable (d : Device) (f : Flash) (env : Env)

@[simp] theorem withFlash_flash : (d.withFlash f).flash = f := rfl

@[simp] theorem withFlash_pin : (d.withFlash f).pin = d.pin := rfl

@[simp] theorem withFlash_ctap : (d.withFlash f).ctap = d.ctap := rfl

@[simp] theorem waited_flash : (d.waited env).flash = d.flash := rfl

@[simp] theorem waited_withFlash : (d.withFlash f).waited env = (d.waited env).withFlash f := rfl

@[simp] theorem reply_withFlash (resp : List UInt8) :
    (d.withFlash f).reply resp = d.reply resp := rfl

@[simp] theorem replyUnder_withFlash (verified : Option (List UInt8)) (ops : List FlashOp)
    (resp : List UInt8) :
    (d.withFlash f).replyUnder verified ops resp = d.replyUnder verified ops resp := rfl

@[simp] theorem replyGuess_withFlash (guess : Option (Bytes 16)) (ops : List FlashOp)
    (resp : List UInt8) :
    (d.withFlash f).replyGuess guess ops resp = d.replyGuess guess ops resp := rfl

end

/-! ## Commands which do not tell the devices apart -/

section

variable {env : Env} {d : Device} {f : Flash} {reqLen : ℕ} {m : Mem}
  (h : SameButNames d.flash.mem f.mem)
include h

theorem makeCredential_withFlash :
    makeCredential env (d.withFlash f) reqLen = makeCredential env d reqLen := by
  unfold makeCredential waitAndRegister registerCredential saveCredential
  simp only [withFlash_flash, withFlash_pin, waited_flash, waited_withFlash, reply_withFlash,
    replyUnder_withFlash, h.pinLoad, h.excludeListHit, h.passkeySave]

theorem setPin_withFlash : setPin (d.withFlash f) 1 reqLen = setPin d 1 reqLen := by
  have hchecks : setPinChecks f.mem d.pin 1 reqLen = setPinChecks d.flash.mem d.pin 1 reqLen := by
    simp only [setPinChecks, h.pinLoad]
  unfold setPin
  rw [withFlash_flash, withFlash_pin, hchecks]
  rfl

theorem changePin_withFlash : changePin (d.withFlash f) 1 reqLen = changePin d 1 reqLen := by
  unfold changePin changePinOutcome
  simp only [withFlash_flash, withFlash_pin, reply_withFlash, replyGuess_withFlash, h.pinLoad,
    h.decrementRetriesOps]

theorem getPinToken_withFlash (subCmd : ℕ) :
    getPinToken env (d.withFlash f) 1 reqLen subCmd = getPinToken env d 1 reqLen subCmd := by
  have houtcome : ∀ currentHash, pinTokenOutcome env (d.withFlash f) subCmd currentHash =
      pinTokenOutcome env d subCmd currentHash := by
    intro currentHash
    unfold pinTokenOutcome
    rw [withFlash_flash, h.pinLoad, h.decrementRetriesOps, h.resetRetriesOps]
    rfl
  unfold getPinToken
  simp only [withFlash_pin, reply_withFlash, houtcome]

theorem getPinRetries_withFlash : getPinRetries (d.withFlash f) = getPinRetries d := by
  unfold getPinRetries
  rw [withFlash_flash, h.pinLoad]
  rfl

omit h

/-- What the two devices make of the front of a clientPin command. -/
inductive FrontAgrees (d : Device) (f : Flash) :
    Except Outcome (ℕ × Device) → Except Outcome (ℕ × Device) → Prop
  | answered (o : Outcome) : FrontAgrees d f (.error o) (.error o)
  | agreed (subCmd : ℕ) (e : Device) (hflash : e.flash = d.flash) :
      FrontAgrees d f (.ok (subCmd, e)) (.ok (subCmd, e.withFlash f))

theorem FrontAgrees.of_eq {o o' : Outcome} (ho : o' = o) :
    FrontAgrees d f (.error o) (.error o') := by
  rw [ho]
  exact .answered o

include h

theorem clientPinFront_agrees :
    Together (FrontAgrees d f) (clientPinFront env d 1 reqLen)
      (clientPinFront env (d.withFlash f) 1 reqLen) m := by
  unfold clientPinFront
  refine .ite (fun _ => .pure (.answered _)) fun _ => .bind_same fun subCmd _ => ?_
  cases subCmd with
  | none => exact .pure (.answered _)
  | some subCmd =>
      refine .bind_same fun proto _ => .ite (fun _ => .pure (.answered _)) fun _ =>
        .ite (fun _ => ?_) fun _ => .ite (fun _ => .pure (.answered _)) fun _ =>
        .ite (fun _ => .ite (fun _ => .pure (.answered _)) fun _ =>
          .bind_same fun hostPub _ => ?_) fun _ => .pure (.answered _)
      · exact .pure (.of_eq (getPinRetries_withFlash (d := { d with pin := { d.pin with
          activePinProtocol := proto.getD d.pin.activePinProtocol } }) h))
      · cases hostPub with
        | error status => exact .pure (.answered _)
        | ok hostPub => exact .pure (.agreed subCmd _ rfl)

theorem processClientPin_withFlash :
    Together Eq (processClientPin env d 1 reqLen)
      (processClientPin env (d.withFlash f) 1 reqLen) m := by
  unfold processClientPin
  refine (clientPinFront_agrees h).bind fun front front' hfront => ?_
  cases hfront with
  | answered o => exact .pure rfl
  | agreed subCmd e hflash =>
      rw [← hflash] at h
      dsimp only
      rw [setPin_withFlash h, changePin_withFlash h, getPinToken_withFlash h]
      exact .of_eq rfl fun _ _ => rfl

/-- Without a token the parameter of CredentialManagement cannot be valid. -/
theorem credentialManagement_withFlash (hset : (pinLoad d.flash.mem).isSome)
    (htoken : d.pin.hasPinToken = false) :
    Together Eq (credentialManagement env d reqLen)
      (credentialManagement env (d.withFlash f) reqLen) m := by
  unfold credentialManagement
  rw [withFlash_flash, withFlash_pin, h.pinLoad]
  refine .bind_same fun subCmd _ => .ite (fun _ => .bind_same fun authorized hauthorized =>
    .ite (fun _ => .pure rfl) fun hok => ?_) fun hunset => absurd hset hunset
  have hvalid := cmAuthorized_token _ hauthorized (not_not.1 hok)
  rw [htoken] at hvalid
  cases hvalid

/-! ## Assertions -/

/-- The outcomes differ at most in the name of the user of an assertion. -/
structure OutcomesAgree (m m' : Mem) (o o' : Outcome) : Prop where
  resp : o'.resp = o.resp ∨ DifferInName m m' o.resp o'.resp
  pin : o'.pin = o.pin
  ctap : o'.ctap = o.ctap
  ops : o'.ops = o.ops

omit h

theorem OutcomesAgree.refl (m m' : Mem) (o : Outcome) : OutcomesAgree m m' o o :=
  ⟨.inl rfl, rfl, rfl, rfl⟩

theorem OutcomesAgree.replyUnder {m m' : Mem} (e : Device) {f : Flash}
    {verified : Option (List UInt8)} {resp resp' : List UInt8}
    (h : resp' = resp ∨ DifferInName m m' resp resp') :
    OutcomesAgree m m' (e.replyUnder verified [] resp)
      ((e.withFlash f).replyUnder verified [] resp') :=
  ⟨h, rfl, rfl, rfl⟩

theorem gaUserEntries_eq (m : Mem) (i : Slot) : gaUserEntries m i =
    if (m.slotKey i).userIdLen > 0 then
      [userEntry (m.slice (slotAddr i + 37) (m.slotKey i).userIdLen.toNat) (storedName m i)]
    else [] := by
  have hempty : storedName m i = [] ↔ ¬ (m.slotKey i).userNameLen > 0 := by
    rw [storedName, ← List.length_eq_zero_iff, Mem.slice_length, gt_iff_lt,
      UInt8.lt_iff_toNat_lt]
    simp
  unfold gaUserEntries userEntry
  dsimp only
  by_cases hname : (m.slotKey i).userNameLen > 0
  · rw [if_pos hname, if_neg fun hnil => hempty.1 hnil hname]
    rfl
  · rw [if_neg hname, if_pos (hempty.2 hname)]

include h

theorem gaBuildResponse_agree {i : Slot} {authData : List UInt8} {cdh : Bytes 32} {total : ℕ}
    (hoccupied : (d.flash.mem.slotKey i).isOccupied) (hauth : authData.length = 37) :
    gaBuildResponse env f.mem i authData cdh total =
        gaBuildResponse env d.flash.mem i authData cdh total ∨
      DifferInName d.flash.mem f.mem (gaBuildResponse env d.flash.mem i authData cdh total)
        (gaBuildResponse env f.mem i authData cdh total) := by
  rw [gaBuildResponse_eq hauth, gaBuildResponse_eq hauth, h.privateKey]
  generalize ecdsaSigToDer (signature env (d.flash.mem.slotKey i).privateKey authData cdh.val) =
    der
  unfold gaItem gaEntries
  rw [gaUserEntries_eq, gaUserEntries_eq, h.userIdLen, h.credentialId, h.userId i hoccupied]
  by_cases huser : (d.flash.mem.slotKey i).userIdLen > 0
  · rw [if_pos huser, if_pos huser]
    refine .inr ⟨i, [(.uint 1, .map [(str "id", .bytes (d.flash.mem.slotKey i).credentialId.val),
      (str "type", str "public-key")]), (.uint 2, .bytes authData), (.uint 3, .bytes der)],
      gaTotalEntries total, d.flash.mem.slice (slotAddr i + 37)
        (d.flash.mem.slotKey i).userIdLen.toNat, hoccupied, ?_, ?_⟩
    · rw [List.append_assoc, List.singleton_append]
    · rw [List.append_assoc, List.singleton_append]
  · rw [if_neg huser, if_neg huser]
    exact .inl rfl

theorem getNextAssertion_agrees : OutcomesAgree d.flash.mem f.mem (getNextAssertion env d)
    (getNextAssertion env (d.withFlash f)) := by
  by_cases hdone : d.ctap.gGaCount ≤ d.ctap.gGaIdx + 1
  · rw [getNextAssertion_done hdone, getNextAssertion_done (d := d.withFlash f) hdone]
    exact .refl _ _ _
  · have hmore : ¬ (d.ctap.gGaCount = 0 ∨ d.ctap.gGaIdx + 1 ≥ d.ctap.gGaCount) := by omega
    unfold getNextAssertion
    simp only [withFlash_ctap, withFlash_flash, if_neg hmore, h.getByRpIndex]
    cases hslot : passkeyGetByRpIndex d.flash.mem d.ctap.gGaRpHash (d.ctap.gGaIdx + 1) with
    | none => exact .refl _ _ _
    | some i =>
        have hof := isOfRp_iff.1 (isOfRp_of_getByRpIndex hslot)
        by_cases htouched : env.presence.status ≠ 0x00
        · simp only [if_pos htouched]
          exact .refl _ _ _
        · simp only [if_neg htouched]
          exact .replyUnder _ (gaBuildResponse_agree h hof.1 (authDataHeader_length _ _))

theorem assertCredential_agrees {rpIdHash : Bytes 32} {cdh : Option (ℕ × ℕ)} {i : Slot}
    {total : ℕ} {verified : Option (List UInt8)} {hasPinAuth : Bool}
    (hoccupied : (d.flash.mem.slotKey i).isOccupied) :
    Together (OutcomesAgree d.flash.mem f.mem)
      (assertCredential env d reqLen rpIdHash cdh i total verified hasPinAuth)
      (assertCredential env (d.withFlash f) reqLen rpIdHash cdh i total verified hasPinAuth)
      m := by
  unfold assertCredential
  rw [withFlash_flash, h.pinLoad]
  refine .bind_same fun options _ => .bind_same fun decision _ => ?_
  cases decision with
  | error status => exact .pure (.refl _ _ _)
  | ok upRequired =>
      cases upRequired with
      | false =>
          refine .ite (fun _ => .pure (.refl _ _ _)) fun _ => .bind_same fun cdhBuf _ => .pure ?_
          exact .replyUnder _ (gaBuildResponse_agree h hoccupied (authDataHeader_length _ _))
      | true =>
          refine .ite (fun _ => .pure (.refl _ _ _)) fun _ => .bind_same fun cdhBuf _ => .pure ?_
          exact .replyUnder _ (gaBuildResponse_agree h hoccupied (authDataHeader_length _ _))

theorem selectCredential_withFlash (rpIdHash : Bytes 32) (cdh : Option (ℕ × ℕ))
    (allowList : Option MapValue) :
    selectCredential (d.withFlash f) reqLen rpIdHash cdh allowList =
      selectCredential d reqLen rpIdHash cdh allowList := by
  unfold selectCredential
  simp only [withFlash_flash, withFlash_ctap, h.countForRp, h.getByRpIndex, h.findListed]

theorem getAssertion_agrees : Together (OutcomesAgree d.flash.mem f.mem)
    (getAssertion env d reqLen) (getAssertion env (d.withFlash f) reqLen) m := by
  unfold getAssertion
  refine .bind_same fun rpId _ => .bind_same fun cdh _ => .bind_same fun allowList _ =>
    .bind_same fun rpIdHash _ => ?_
  rw [selectCredential_withFlash h]
  refine .bind_same fun selection hselection => ?_
  have hof := selectCredential_isOfRp _ hselection
  have hnames : SameButNames ({ d with ctap := selection.2 } : Device).flash.mem f.mem := h
  unfold assertSelected
  cases hselected : selection.1 with
  | none => exact .pure (.refl _ _ _)
  | some found =>
      rcases found with ⟨i, total⟩
      refine .bind_same fun pinAuth _ => ?_
      cases pinAuth with
      | none => exact assertCredential_agrees hnames (isOfRp_iff.1 (hof i total hselected)).1
      | some pinAuth =>
          refine .bind_same fun valid _ => .ite (fun _ => .pure (.refl _ _ _)) fun _ => ?_
          exact assertCredential_agrees hnames (isOfRp_iff.1 (hof i total hselected)).1

end

end UnsoloKey
