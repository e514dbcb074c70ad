import UnsoloKey.ManagementResponses
import UnsoloKey.TokenUse
import UnsoloKey.WalkOrigin
import Mathlib.Tactic

/-!
# Every answer is well formed

An error is one status byte, and the bytes after the status of a success are one item,
with all the entries which the command writes.  Every item fits the response buffer, so
the encoder leaves nothing out.  A clientPin request without parameters gets no answer.
-/

namespace UnsoloKey

open Rd Trace Cbor

/-! ## The remaining items -/

def infoItem (pinSet : Bool) : Item :=
  .map [(.uint 1, .array [str "FIDO_2_0", str "FIDO_2_1"]), (.uint 3, .bytes aaguid),
    (.uint 4, .map [(str "rk", .bool true), (str "up", .bool true),
      (str "clientPin", .bool pinSet), (str "pinUvAuthToken", .bool true),
      (str "credMgmt", .bool true), (str "makeCredUvNotRqd", .bool true)]),
    (.uint 5, .uint 1024), (.uint 6, .array [.uint 1, .uint 2]),
    (.uint 7, .uint passkeyNumSlots), (.uint 8, .uint 32), (.uint 9, .array [str "usb"]),
    (.uint 10, .array [.map [(str "type", str "public-key"), (str "alg", .nint 6)]]),
    (.uint 15, .uint 4)]

def retriesItem (retries : UInt8) : Item := .map [(.uint 3, .uint retries.toNat)]

def keyAgreementItem (pub : Bytes 64) : Item :=
  .map [(.uint 1, .map [(.uint 1, .uint 2), (.uint 3, .nint 24), (.nint 0, .uint 1),
    (.nint 1, .bytes (pub.val.take 32)), (.nint 2, .bytes (pub.val.drop 32))])]

def tokenItem (enc : List UInt8) : Item := .map [(.uint 2, .bytes enc)]

theorem getInfoResponse_eq (pinSet : Bool) :
    getInfoResponse pinSet = 0x00 :: (infoItem pinSet).encode := by
  cases pinSet <;> decide +kernel

theorem retries_eq (retries : UInt8) : okResponse ((((CborEncoder.init respCapacity).encodeMap 1
    ).encodeUint 3).encodeUint retries.toNat) = 0x00 :: (retriesItem retries).encode := by
  have h := (CborEncoder.holds_init respCapacity).map 1
  have h := (h.uint 3).uint retries.toNat
  have hroom : (retriesItem retries).room ≤ respCapacity := by
    simp [retriesItem, Item.room, roomEntries, respCapacity]
  unfold okResponse
  rw [h.buffer_eq (x := retriesItem retries)
    (by simp [retriesItem, Item.encode, encodeEntries]) ((Item.encode_length_le _).trans hroom)]

theorem keyAgreementResponse_eq (pub : Bytes 64) :
    keyAgreementResponse pub = 0x00 :: (keyAgreementItem pub).encode := by
  have h := ((CborEncoder.holds_init respCapacity).map 1).uint 1
  have h := h.map 5
  have h := (h.uint 1).uint 2
  have h := (h.uint 3).nint 24
  have h := (h.nint 0).uint 1
  have h := (h.nint 1).bytes (pub.val.take 32)
  have h := (h.nint 2).bytes (pub.val.drop 32)
  have hroom : (keyAgreementItem pub).room ≤ respCapacity := by
    simp [keyAgreementItem, Item.room, roomEntries, respCapacity]
  have hitem := h.buffer_eq (x := keyAgreementItem pub)
    (by simp [keyAgreementItem, Item.encode, encodeEntries])
    ((Item.encode_length_le _).trans hroom)
  unfold keyAgreementResponse okResponse
  exact congrArg (0x00 :: ·) hitem

/-- The items of the successful responses, each with all its entries. -/
inductive ResponseItem (m : Mem) : Item → Prop
  | info (pinSet : Bool) : ResponseItem m (infoItem pinSet)
  | registration (authData der : List UInt8) (hauth : authData.length = 164)
      (hder : der.length ≤ 72) : ResponseItem m (mcItem authData der)
  | assertion (i : Slot) (authData der : List UInt8) (total : ℕ) (hauth : authData.length = 37)
      (hder : der.length ≤ 72) (htotal : total < 2 ^ 32) :
      ResponseItem m (gaItem m i authData der total)
  | retries (retries : UInt8) : ResponseItem m (retriesItem retries)
  | keyAgreement (pub : Bytes 64) : ResponseItem m (keyAgreementItem pub)
  | token (enc : List UInt8) (henc : enc.length ≤ 48) : ResponseItem m (tokenItem enc)
  | metadata : ResponseItem m (metadataItem m)
  | rp (rpHash : Bytes 32) (begins : Prop) [Decidable begins] (total : ℕ)
      (htotal : total < 2 ^ 32) : ResponseItem m (rpItem (rpDisplay m rpHash) rpHash begins total)
  | credential (i : Slot) (begins : Prop) [Decidable begins] (total : ℕ)
      (htotal : total < 2 ^ 32) : ResponseItem m (credentialItem m i begins total)

section

variable {m : Mem} {x : Item}

theorem ResponseItem.valid (h : ResponseItem m x) : x.Valid := by
  cases h with
  | info pinSet =>
      have hnum : passkeyNumSlots = 5 := by decide
      simp [infoItem, str, Item.Valid, ValidEntries, ValidItems, hnum, aaguid, ascii]
  | registration authData der hauth hder => exact mcItem_valid (by omega) (by omega)
  | assertion i authData der total hauth hder htotal =>
      exact gaItem_valid (by omega) (by omega) htotal
  | retries retries =>
      have hlt := UInt8.toNat_lt retries
      simp only [retriesItem, Item.Valid, ValidEntries, List.length_cons, List.length_nil,
        and_true]
      omega
  | keyAgreement pub => simp [keyAgreementItem, Item.Valid, ValidEntries]
  | token enc henc =>
      simp only [tokenItem, Item.Valid, ValidEntries, List.length_cons, List.length_nil, and_true]
      omega
  | metadata => exact metadataItem_valid
  | rp rpHash begins total htotal => exact rpItem_valid rpDisplay_length htotal
  | credential i begins total htotal => exact credentialItem_valid htotal

/-- No item reaches the end of the response buffer. -/
theorem ResponseItem.fits (h : ResponseItem m x) : x.encode.length < 1023 := by
  refine (Item.encode_length_le x).trans_lt ?_
  cases h with
  | info pinSet => cases pinSet <;> decide +kernel
  | registration authData der hauth hder =>
      rw [mcItem_room]
      omega
  | assertion i authData der total hauth hder htotal =>
      have hroom := gaItem_room m i authData der total
      omega
  | retries retries => simp [retriesItem, Item.room, roomEntries]
  | keyAgreement pub => simp [keyAgreementItem, Item.room, roomEntries]
  | token enc henc =>
      simp only [tokenItem, Item.room, roomEntries]
      omega
  | metadata => simp [metadataItem, Item.room, roomEntries]
  | rp rpHash begins total htotal => exact (rpItem_room rpDisplay_length).trans_lt (by decide)
  | credential i begins total htotal => exact credentialItem_room.trans_lt (by decide)

end

/-! ## Answers -/

/-- The status byte, after which comes nothing or, in a success, one item. -/
structure WellFormedAnswer (m : Mem) (resp : List UInt8) : Prop where
  length : 1 ≤ resp.length ∧ resp.length ≤ 1024
  error : resp.head? ≠ some 0x00 → resp.length = 1
  success : resp.head? = some 0x00 → 1 < resp.length →
    ∃ x, ResponseItem m x ∧ resp.tail = x.encode ∧ decode resp.tail = some x

section

variable {m : Mem} {x : Item}

theorem WellFormedAnswer.status (m : Mem) (status : UInt8) : WellFormedAnswer m [status] :=
  ⟨by simp, fun _ => rfl, by simp⟩

theorem ResponseItem.answer (h : ResponseItem m x) : WellFormedAnswer m (0x00 :: x.encode) where
  length := by
    have hfits := h.fits
    rw [List.length_cons]
    omega
  error := fun hne => absurd rfl hne
  success := fun _ _ => ⟨x, h, rfl, decode_encode x h.valid⟩

theorem not_wellFormedAnswer_nil : ¬ WellFormedAnswer m [] := by
  intro h
  exact absurd h.length.1 (by decide)

end

/-! ## The commands -/

section

variable {env : Env} {d : Device} {reqLen : ℕ} {m : Mem}

theorem attestation_answer (env : Env) (rpIdHash : Bytes 32) (verified : Bool)
    (cdh : List UInt8) : WellFormedAnswer m (attestation env rpIdHash verified cdh) := by
  unfold attestation
  dsimp only
  generalize hauthData : mcAuthData rpIdHash _ (env.rng 0 32) env.makeKey.1 = authData
  generalize hsig : signature env env.makeKey.2 authData cdh = sig
  have hauth : authData.length = 164 := hauthData ▸ mcAuthData_length _ _ _ _
  have hder := ecdsaSigToDer_length_le sig
  rw [mcResponse_eq (by omega)]
  exact (ResponseItem.registration _ _ hauth hder).answer

theorem makeCredential_answer : (makeCredential env d reqLen).Returns m
    fun o => WellFormedAnswer d.flash.mem o.resp := by
  intro o ho
  cases makeCredential_effect o ho with
  | refused status hstatus hdecision ho => exact ho ▸ .status _ status
  | untouched cdh verified hdecision hpresence ho => exact ho ▸ .status _ _
  | registered cdh verified hdecision hpresence h =>
      cases h with
      | excluded hex ho => exact ho ▸ .status _ _
      | full r hread hslot ho => exact ho ▸ .status _ _
      | saved r i cdhBytes hex hread hslot hcdh ho => exact ho ▸ attestation_answer _ _ _ _

theorem gaBuildResponse_answer {flash : Mem} {i : Slot} {rpIdHash : Bytes 32} {flags : UInt8}
    {cdh : Bytes 32} {total : ℕ} (htotal : total < 2 ^ 32) :
    WellFormedAnswer flash
      (gaBuildResponse env flash i (authDataHeader rpIdHash flags) cdh total) := by
  rw [gaBuildResponse_eq (authDataHeader_length _ _)]
  exact (ResponseItem.assertion i _ _ total (authDataHeader_length _ _)
    (ecdsaSigToDer_length_le _) htotal).answer

theorem getAssertion_answer : (getAssertion env d reqLen).Returns m
    fun o => WellFormedAnswer d.flash.mem o.resp := by
  intro o ho
  cases getAssertion_effect o ho with
  | refused status hstatus hresp => exact hresp ▸ .status _ status
  | asserted ctap plan cdhBuf hdecision hselect htouch hsigned hresp =>
      rw [hresp]
      exact gaBuildResponse_answer hselect.total_lt

theorem getNextAssertion_answer (hcount : d.ctap.gGaCount < 2 ^ 32) :
    WellFormedAnswer d.flash.mem (getNextAssertion env d).resp := by
  have heffect : GetNextAssertionEffect env d (getNextAssertion env d) :=
    getNextAssertion_effect
  cases heffect with
  | refused status hstatus hresp => exact hresp ▸ .status _ status
  | asserted i hmore hslot hpresence hresp =>
      rw [hresp]
      exact gaBuildResponse_answer hcount

/-! ### clientPin -/

theorem getPinRetries_answer (d : Device) :
    WellFormedAnswer d.flash.mem (getPinRetries d).resp := by
  unfold getPinRetries
  split
  · exact .status _ _
  · change WellFormedAnswer _ (okResponse _)
    rw [retries_eq]
    exact (ResponseItem.retries _).answer

theorem getKeyAgreement_answer (env : Env) (d : Device) :
    WellFormedAnswer d.flash.mem (getKeyAgreement env d).resp := by
  change WellFormedAnswer _ (keyAgreementResponse _)
  rw [keyAgreementResponse_eq]
  exact (ResponseItem.keyAgreement _).answer

theorem setPin_answer : (setPin d 1 reqLen).Returns m
    fun o => WellFormedAnswer d.flash.mem o.resp := by
  unfold setPin
  refine Returns.bind fun checked => ?_
  cases checked <;> exact Returns.pure (.status _ _)

theorem changePinOutcome_answer (newPinEnc : List UInt8) (currentHash : Bytes 16) :
    WellFormedAnswer d.flash.mem (changePinOutcome d newPinEnc currentHash).resp := by
  unfold changePinOutcome
  split
  · exact .status _ _
  · split
    · exact .status _ _
    · split <;> exact .status _ _

theorem changePin_answer : (changePin d 1 reqLen).Returns m
    fun o => WellFormedAnswer d.flash.mem o.resp := by
  unfold changePin
  refine Returns.bind fun checked => ?_
  cases checked with
  | error status => exact Returns.pure (.status _ status)
  | ok request => exact Returns.pure (changePinOutcome_answer _ _)

theorem tokenEnc_length (s : PinSession) (env : Env) (subCmd : ℕ) :
    (s.tokenEnc env subCmd).length ≤ 48 := by
  unfold PinSession.tokenEnc
  split_ifs <;> simp

theorem pinTokenOutcome_answer (subCmd : ℕ) (currentHash : Bytes 16) :
    WellFormedAnswer d.flash.mem (pinTokenOutcome env d subCmd currentHash).resp := by
  unfold pinTokenOutcome
  split
  · exact .status _ _
  · split
    · exact .status _ _
    · split
      · exact .status _ _
      · have henc := tokenEnc_length (d.pin.issueToken env subCmd) env subCmd
        change WellFormedAnswer _ (tokenResponse _)
        rw [tokenResponse_eq henc]
        exact (ResponseItem.token _ henc).answer

theorem getPinToken_answer {subCmd : ℕ} : (getPinToken env d 1 reqLen subCmd).Returns m
    fun o => WellFormedAnswer d.flash.mem o.resp := by
  unfold getPinToken
  refine Returns.bind fun claimed => ?_
  cases claimed with
  | error status => exact Returns.pure (.status _ status)
  | ok guess => exact Returns.pure (pinTokenOutcome_answer _ _)

theorem clientPinFront_answer (hlen : 1 ≤ reqLen) :
    (clientPinFront env d 1 reqLen).Returns m fun r => match r with
      | .error o => WellFormedAnswer d.flash.mem o.resp
      | .ok (_, d') => d'.flash = d.flash := by
  unfold clientPinFront
  refine Returns.ite (fun hshort => absurd hshort (by omega)) fun _ =>
    Returns.bind fun subCmd => ?_
  cases subCmd with
  | none => exact Returns.pure (.status _ _)
  | some subCmd =>
      refine Returns.bind fun proto => Returns.ite (fun _ => Returns.pure (.status _ _)) fun _ =>
        Returns.ite (fun _ => Returns.pure ?_) fun _ =>
        Returns.ite (fun _ => Returns.pure ?_) fun _ => Returns.ite (fun _ => ?_)
        fun _ => Returns.pure (.status _ _)
      · exact getPinRetries_answer { d with pin := { d.pin with
          activePinProtocol := proto.getD d.pin.activePinProtocol } }
      · exact getKeyAgreement_answer env { d with pin := { d.pin with
          activePinProtocol := proto.getD d.pin.activePinProtocol } }
      · refine Returns.ite (fun _ => Returns.pure (.status _ _)) fun _ =>
          Returns.bind fun hostPub => ?_
        cases hostPub with
        | error status => exact Returns.pure (.status _ status)
        | ok hostPub => exact Returns.pure rfl

theorem processClientPin_answer (hlen : 1 ≤ reqLen) : (processClientPin env d 1 reqLen).Returns m
    fun o => WellFormedAnswer d.flash.mem o.resp := by
  unfold processClientPin
  refine Returns.bind_of (clientPinFront_answer hlen) fun front hfront => ?_
  cases front with
  | error o => exact Returns.pure hfront
  | ok front =>
      rcases front with ⟨subCmd, d'⟩
      change d'.flash = d.flash at hfront
      rw [← hfront]
      exact Returns.ite (fun _ => setPin_answer) fun _ =>
        Returns.ite (fun _ => changePin_answer) fun _ => getPinToken_answer

/-! ### CredentialManagement -/

theorem enumerateRps_answer (d : Device) (subCmd : ℕ) :
    WellFormedAnswer d.flash.mem (enumerateRps d subCmd).resp := by
  have htotal : passkeyCountUniqueRps d.flash.mem < 2 ^ 32 :=
    List.countP_le_length.trans_lt (by decide)
  unfold enumerateRps
  generalize (if subCmd = 0x02 then 0 else (d.ctap.gEnumRpIdx + 1) % 2 ^ 32) = idx
  dsimp only
  split
  · exact .status _ _
  · generalize (passkeyGetUniqueRpHash d.flash.mem idx).getD d.ctap.gEnumRpHash = rpHash
    change WellFormedAnswer _ (rpResponse (rpDisplay d.flash.mem rpHash) rpHash (subCmd = 0x02)
      (passkeyCountUniqueRps d.flash.mem))
    rw [rpResponse_eq rpDisplay_length]
    exact (ResponseItem.rp _ _ _ htotal).answer

theorem listCredential_answer (d : Device) (subCmd : ℕ) :
    WellFormedAnswer d.flash.mem (listCredential d subCmd).resp := by
  have htotal : passkeyCountForRp d.flash.mem d.ctap.gEnumRpHash < 2 ^ 32 :=
    List.countP_le_length.trans_lt (by decide)
  unfold listCredential
  dsimp only
  split
  · exact .status _ _
  · split_ifs
    · exact .status _ _
    · change WellFormedAnswer _ (credentialResponse _ _ _ _)
      rw [credentialResponse_eq]
      exact (ResponseItem.credential _ _ _ htotal).answer

theorem enumerateCredentials_answer {subCmd : ℕ} :
    (enumerateCredentials env d reqLen subCmd).Returns m
      fun o => WellFormedAnswer d.flash.mem o.resp := by
  have hlisted : ∀ ctap : CtapSession,
      WellFormedAnswer d.flash.mem (listCredential { d with ctap := ctap } subCmd).resp :=
    fun ctap => listCredential_answer { d with ctap := ctap } subCmd
  unfold enumerateCredentials
  exact Returns.ite (fun _ => Returns.bind fun param => Returns.pure (hlisted _))
    fun _ => Returns.pure (hlisted _)

theorem deleteCredential_answer : (deleteCredential env d reqLen).Returns m
    fun o => WellFormedAnswer d.flash.mem o.resp := by
  unfold deleteCredential
  refine Returns.bind fun target => ?_
  cases target with
  | none => exact Returns.pure (.status _ _)
  | some t =>
      exact Returns.ite (fun _ => Returns.pure (.status _ _)) fun _ =>
        Returns.bind fun _ => Returns.pure (.status _ _)

theorem cmDispatch_answer {subCmd : ℕ} : (cmDispatch env d reqLen subCmd).Returns m
    fun o => WellFormedAnswer d.flash.mem o.resp := by
  unfold cmDispatch
  refine Returns.bind fun _ => Returns.ite (fun _ => Returns.pure ?_) fun _ =>
    Returns.ite (fun _ => Returns.pure (enumerateRps_answer d subCmd)) fun _ =>
    Returns.ite (fun _ => enumerateCredentials_answer) fun _ =>
    Returns.ite (fun _ => deleteCredential_answer) fun _ => Returns.pure (.status _ _)
  change WellFormedAnswer _ (getCredsMetadata d)
  rw [getCredsMetadata_eq]
  exact ResponseItem.metadata.answer

theorem credentialManagement_answer : (credentialManagement env d reqLen).Returns m
    fun o => WellFormedAnswer d.flash.mem o.resp := by
  unfold credentialManagement
  refine Returns.bind fun subCmd => Returns.ite (fun _ => Returns.bind fun authorized => ?_)
    fun _ => cmDispatch_answer
  exact Returns.ite (fun _ => Returns.pure (.status _ _)) fun _ =>
    Returns.bind_of cmDispatch_answer fun o ho => Returns.pure ho

theorem authenticatorReset_answer (env : Env) (d : Device) :
    WellFormedAnswer d.flash.mem (authenticatorReset env d).resp := by
  unfold authenticatorReset
  split
  · exact .status _ _
  · dsimp only
    split <;> exact .status _ _

end

/-! ## Runs -/

/-- The clientPin command without parameters. -/
def Command.IsBareClientPin (c : Command) : Prop := c.reqLen = 1 ∧ c.req 0 = 0x06

section

variable {mem : Mem} {past : List Command} {d d' : Device} {c : Command} {o : Outcome}

theorem gaCount_step (hcount : d.ctap.gGaCount < 2 ^ 32) (hstep : d.step c = some d') :
    d'.ctap.gGaCount < 2 ^ 32 := by
  obtain ⟨o, ho, rfl⟩ := step_iff.1 hstep
  change o.ctap.gGaCount < 2 ^ 32
  have hsame : ∀ {idx}, o.ctap.walk = (d.ctap.gGaRpHash, d.ctap.gGaCount, idx) →
      o.ctap.gGaCount < 2 ^ 32 := by
    intro idx hwalk
    have hkept : o.ctap.gGaCount = d.ctap.gGaCount := (Prod.mk.inj (Prod.mk.inj hwalk).2).1
    rwa [hkept]
  by_cases hget : c.IsGetAssertion
  · rcases getAssertion_walk hget ho with
      ⟨rpIdHash, -, ⟨-, hwalk⟩ | ⟨hwalk, -⟩⟩ | hzero
    · exact hsame hwalk
    · have hcounted : o.ctap.gGaCount = (slotsOfRp d.flash.mem rpIdHash).length :=
        (Prod.mk.inj (Prod.mk.inj hwalk).2).1
      rw [hcounted]
      exact slotsOfRp_length_lt _ _
    · omega
  · by_cases hnext : c.reqLen ≠ 0 ∧ c.req 0 = 0x08
    · rw [outcome_eq hnext.1, hnext.2] at ho
      obtain rfl : getNextAssertion c.env (d.onChannel c.cid) = o := Option.some.inj ho
      obtain ⟨idx, -, hwalk⟩ := getNextAssertion_walk c.env (d.onChannel c.cid)
      exact hsame hwalk
    · exact hsame (outcome_walk hget (fun hlen hcmd => hnext ⟨hlen, hcmd⟩) ho)

theorem gaCount_run (hrun : Run Device.step (Device.powerUp mem) past d) :
    d.ctap.gGaCount < 2 ^ 32 :=
  Run.invariant (P := fun d => d.ctap.gGaCount < 2 ^ 32) (fun _ _ _ => gaCount_step) hrun
    (Nat.two_pow_pos 32)

theorem outcome_answer (hcount : d.ctap.gGaCount < 2 ^ 32)
    (hvendor : c.reqLen ≠ 0 → c.req 0 ≠ 0x55) (hbare : ¬ c.IsBareClientPin)
    (ho : d.outcome c = some o) : WellFormedAnswer d.flash.mem o.resp := by
  by_cases hlen : c.reqLen = 0
  · unfold Device.outcome fido2ProcessCbor at ho
    rw [if_pos hlen, run_pure, Option.some.injEq] at ho
    exact ho ▸ .status _ _
  · rw [outcome_eq hlen] at ho
    have hanswer : (processCommand c.env (d.onChannel c.cid) c.reqLen (c.req 0)).Returns c.req
        fun o => WellFormedAnswer (d.onChannel c.cid).flash.mem o.resp := by
      unfold processCommand
      refine Returns.ite (fun _ => Returns.pure ?_) fun _ =>
        Returns.ite (fun _ => makeCredential_answer) fun _ =>
        Returns.ite (fun _ => getAssertion_answer) fun _ =>
        Returns.ite (fun _ => Returns.pure (getNextAssertion_answer hcount)) fun _ =>
        Returns.ite (fun hcmd => processClientPin_answer ?_) fun _ =>
        Returns.ite (fun _ => credentialManagement_answer) fun _ =>
        Returns.ite (fun _ => Returns.pure (authenticatorReset_answer _ _)) fun _ =>
        Returns.ite (fun hcmd => absurd hcmd (hvendor hlen)) fun _ =>
        Returns.pure (.status _ _)
      · change WellFormedAnswer _ (getInfoResponse _)
        rw [getInfoResponse_eq]
        exact (ResponseItem.info _).answer
      · by_contra hshort
        exact hbare ⟨by omega, hcmd⟩
    exact hanswer o ho

theorem bareClientPin_answer (hbare : c.IsBareClientPin) (ho : d.outcome c = some o) :
    o.resp = [] := by
  obtain ⟨hlen, hcmd⟩ := hbare
  rw [outcome_eq (by omega), hcmd] at ho
  change (processClientPin c.env (d.onChannel c.cid) 1 (c.reqLen - 1)).run c.req = some o at ho
  rw [hlen] at ho
  obtain rfl : (d.onChannel c.cid).reply [] = o := Option.some.inj ho
  rfl

/-- In every run the answer is well formed, except to a clientPin command without
parameters, which gets none. -/
theorem wellFormedAnswer_iff (hrun : Run Device.step (Device.powerUp mem) past d)
    (hvendor : c.reqLen ≠ 0 → c.req 0 ≠ 0x55) (ho : d.outcome c = some o) :
    WellFormedAnswer d.flash.mem o.resp ↔ ¬ c.IsBareClientPin := by
  constructor
  · intro hformed hbare
    rw [bareClientPin_answer hbare ho] at hformed
    exact not_wellFormedAnswer_nil hformed
  · intro hbare
    exact outcome_answer (gaCount_run hrun) hvendor hbare ho

end

theorem wellFormedAnswer_info : ∃ o,
    (Device.powerUp fun _ => 0xFF).outcome (hostCommand [0x04]) = some o ∧
      WellFormedAnswer (fun _ => 0xFF) o.resp := by
  obtain ⟨o, ho⟩ : ∃ o, (Device.powerUp fun _ => 0xFF).outcome (hostCommand [0x04]) = some o :=
    ⟨_, rfl⟩
  have hformed := wellFormedAnswer_iff (Run.nil_iff.2 rfl) (by decide) ho
  exact ⟨o, ho, hformed.2 fun hbare => absurd hbare.2 (by decide)⟩

/-- The request `06` alone. -/
theorem wellFormedAnswer_bare :
    ¬ ∀ (mem : Mem) (past : List Command) (d : Device) (c : Command) (o : Outcome),
      Run Device.step (Device.powerUp mem) past d → (c.reqLen ≠ 0 → c.req 0 ≠ 0x55) →
      d.outcome c = some o → WellFormedAnswer d.flash.mem o.resp := by
  intro h
  obtain ⟨o, ho, hresp⟩ : ∃ o, (Device.powerUp fun _ => 0xFF).outcome (hostCommand [0x06]) =
      some o ∧ o.resp = [] := ⟨_, rfl, rfl⟩
  have hformed := h _ _ _ _ o (Run.nil_iff.2 rfl) (by decide) ho
  rw [hresp] at hformed
  exact not_wellFormedAnswer_nil hformed

end UnsoloKey
