import UnsoloKey.Fido2
import Mathlib.Tactic

/-!
# What a response says

The responses of MakeCredential and GetAssertion are canonical CBOR maps which
fit the response buffer, so a host that decodes them gets back the authenticator
data, the credential and the signature which went in.
-/

namespace UnsoloKey

open Cbor

/-! ## Registrations -/

theorem derStrip_length_le (bs : List UInt8) : (derStrip bs).length ≤ bs.length := by
  fun_induction derStrip bs with
  | case1 b c rest hzero ih =>
      rw [List.length_cons]
      omega
  | case2 b c rest hkeep => exact le_rfl
  | case3 bs hshort => exact le_rfl

theorem derInteger_length_le (raw : List UInt8) :
    (derInteger raw).length ≤ raw.length + 3 := by
  have hstrip := derStrip_length_le raw
  unfold derInteger
  dsimp only
  split_ifs <;> simp <;> omega

theorem ecdsaSigToDer_length_le (sigRaw : Bytes 64) :
    (ecdsaSigToDer sigRaw).length ≤ 72 := by
  have hr := derInteger_length_le (sigRaw.val.take 32)
  have hs := derInteger_length_le (sigRaw.val.drop 32)
  simp only [List.length_take, List.length_drop, Bytes.length_val] at hr hs
  simp only [ecdsaSigToDer, List.length_cons, List.length_append]
  omega

/-- A text string of the protocol. -/
def str (s : String) : Item := .text (ascii s)

theorem length_id : (ascii "id").length = 2 := rfl

theorem length_name : (ascii "name").length = 4 := rfl

theorem length_type : (ascii "type").length = 4 := rfl

theorem length_public_key : (ascii "public-key").length = 10 := rfl

theorem length_packed : (ascii "packed").length = 6 := rfl

theorem length_alg : (ascii "alg").length = 3 := rfl

theorem length_sig : (ascii "sig").length = 3 := rfl

def mcItem (authData derSig : List UInt8) : Item :=
  .map [(.uint 1, str "packed"), (.uint 2, .bytes authData),
    (.uint 3, .map [(str "alg", .nint 6), (str "sig", .bytes derSig)])]

theorem mcItem_room (authData derSig : List UInt8) :
    (mcItem authData derSig).room = authData.length + derSig.length + 67 := by
  simp only [mcItem, str, Item.room, roomEntries, length_packed, length_alg, length_sig]
  omega

theorem mcResponse_eq {authData derSig : List UInt8}
    (hsize : authData.length + derSig.length ≤ 900) :
    mcResponse authData derSig = 0x00 :: (mcItem authData derSig).encode := by
  have h := (CborEncoder.holds_init respCapacity).map 3
  have h := (h.uint 1).str "packed"
  have h := (h.uint 2).bytes authData
  have h := (h.uint 3).map 2
  have h := (h.str "alg").nint 6
  have h := (h.str "sig").bytes derSig
  have hroom : (mcItem authData derSig).room ≤ respCapacity := by
    rw [mcItem_room, respCapacity]
    omega
  have hitem := h.buffer_eq (x := mcItem authData derSig)
    (by simp [mcItem, str, Item.encode, encodeEntries])
    ((Item.encode_length_le _).trans hroom)
  have halg : ∀ e : CborEncoder, e.encodeInt (-7) = e.encodeHead 1 6 := fun _ => rfl
  unfold mcResponse okResponse
  dsimp only
  rw [halg, hitem]

/-! ## Assertions -/

def gaUserEntries (flash : Mem) (i : Slot) : List Entry :=
  let rk := flash.slotKey i
  if rk.userIdLen > 0 then
    [(.uint 4, .map ((str "id",
        .bytes (flash.slice (slotAddr i + 37) rk.userIdLen.toNat)) ::
      if rk.userNameLen > 0 then
        [(str "name",
          .text (flash.slice (slotAddr i + 166) rk.userNameLen.toNat))]
      else []))]
  else []

def gaTotalEntries (total : ℕ) : List Entry :=
  if total > 1 then [(.uint 6, .uint total)] else []

def gaEntries (flash : Mem) (i : Slot) (authData der : List UInt8) (total : ℕ) :
    List Entry :=
  [(.uint 1, .map [(str "id", .bytes (flash.slotKey i).credentialId.val),
      (str "type", str "public-key")]),
    (.uint 2, .bytes authData), (.uint 3, .bytes der)] ++
    gaUserEntries flash i ++ gaTotalEntries total

def gaItem (flash : Mem) (i : Slot) (authData der : List UInt8) (total : ℕ) :
    Item :=
  .map (gaEntries flash i authData der total)

theorem roomEntries_append (xs ys : List Entry) :
    roomEntries (xs ++ ys) = roomEntries xs + roomEntries ys := by
  induction xs with
  | nil => simp [roomEntries]
  | cons e xs ih => simp [roomEntries, ih, Nat.add_assoc]

theorem gaUserEntries_room (flash : Mem) (i : Slot) :
    roomEntries (gaUserEntries flash i) ≤ 600 := by
  have huser := UInt8.toNat_lt (flash.slotKey i).userIdLen
  have huserName := UInt8.toNat_lt (flash.slotKey i).userNameLen
  unfold gaUserEntries
  dsimp only
  split_ifs <;>
    simp only [str, Item.room, roomEntries, Mem.slice_length, length_id, length_name] <;> omega

theorem gaTotalEntries_room (total : ℕ) : roomEntries (gaTotalEntries total) ≤ 10 := by
  unfold gaTotalEntries
  split_ifs <;> simp [roomEntries, Item.room]

theorem gaItem_room (flash : Mem) (i : Slot) (authData der : List UInt8)
    (total : ℕ) : (gaItem flash i authData der total).room ≤
      authData.length + der.length + 740 := by
  have huser := gaUserEntries_room flash i
  have htotal := gaTotalEntries_room total
  simp only [gaItem, gaEntries, str, Item.room, roomEntries, roomEntries_append,
    Bytes.length_val, length_id, length_type, length_public_key]
  omega

section

variable {e : CborEncoder} {capacity : ℕ} {written : List UInt8}

theorem encodeGaUser_holds (h : e.Holds capacity written) (flash : Mem) (i : Slot) :
    (encodeGaUser flash i e).Holds capacity
      (written ++ encodeEntries (gaUserEntries flash i)) := by
  unfold encodeGaUser gaUserEntries
  dsimp only
  by_cases huser : (flash.slotKey i).userIdLen > 0
  · by_cases hname : (flash.slotKey i).userNameLen > 0
    · simp only [huser, hname, if_true]
      have h := (h.uint 4).map 2
      have h := (h.str "id").bytes
        (flash.slice (slotAddr i + 37) (flash.slotKey i).userIdLen.toNat)
      have h := (h.str "name").text
        (flash.slice (slotAddr i + 166) (flash.slotKey i).userNameLen.toNat)
      simpa [str, Item.encode, encodeEntries] using h
    · simp only [huser, hname, if_true, if_false]
      have h := (h.uint 4).map 1
      have h := (h.str "id").bytes
        (flash.slice (slotAddr i + 37) (flash.slotKey i).userIdLen.toNat)
      simpa [str, Item.encode, encodeEntries] using h
  · simpa [huser, encodeEntries] using h

theorem encodeGaTotal_holds (h : e.Holds capacity written) (total : ℕ) :
    (encodeGaTotal total e).Holds capacity
      (written ++ encodeEntries (gaTotalEntries total)) := by
  unfold encodeGaTotal gaTotalEntries
  split
  · simpa [Item.encode, encodeEntries] using (h.uint 6).uint total
  · simpa [encodeEntries] using h

end

theorem gaEntries_length (flash : Mem) (i : Slot) (authData der : List UInt8)
    (total : ℕ) : (gaEntries flash i authData der total).length =
      3 + (if (flash.slotKey i).userIdLen > 0 then 1 else 0) +
        (if total > 1 then 1 else 0) := by
  unfold gaEntries gaUserEntries gaTotalEntries
  dsimp only
  split_ifs <;> rfl

theorem gaBuildResponse_eq {env : Env} {flash : Mem} {i : Slot}
    {authData : List UInt8} {cdh : Bytes 32} {total : ℕ}
    (hauth : authData.length = 37) :
    gaBuildResponse env flash i authData cdh total =
      0x00 :: (gaItem flash i authData (ecdsaSigToDer
        (signature env (flash.slotKey i).privateKey authData cdh.val))
        total).encode := by
  generalize hder : ecdsaSigToDer
    (signature env (flash.slotKey i).privateKey authData cdh.val) = der
  have hlength : der.length ≤ 72 := hder ▸ ecdsaSigToDer_length_le _
  have h := (CborEncoder.holds_init respCapacity).map
    (3 + (if (flash.slotKey i).userIdLen > 0 then 1 else 0) +
      (if total > 1 then 1 else 0))
  have h := (h.uint 1).map 2
  have h := (h.str "id").bytes (flash.slotKey i).credentialId.val
  have h := (h.str "type").str "public-key"
  have h := (h.uint 2).bytes authData
  have h := (h.uint 3).bytes der
  have h := encodeGaTotal_holds (encodeGaUser_holds h flash i) total
  have hroom : (gaItem flash i authData der total).room ≤ respCapacity := by
    have hle := gaItem_room flash i authData der total
    rw [respCapacity]
    omega
  have hitem : (gaItem flash i authData der total).encode =
      head 5 (3 + (if (flash.slotKey i).userIdLen > 0 then 1 else 0) +
        (if total > 1 then 1 else 0)) ++
      encodeEntries (gaEntries flash i authData der total) := by
    rw [gaItem, Item.encode, gaEntries_length]
  have hwritten := h.buffer_eq (x := gaItem flash i authData der total)
    (by simp [hitem, gaEntries, str, Item.encode, encodeEntries,
      encodeEntries_append]) ((Item.encode_length_le _).trans hroom)
  unfold gaBuildResponse
  dsimp only
  rw [hder]
  exact congrArg (0x00 :: ·) hwritten

/-! ## The authenticator data of a response -/

/-- The entry of the response map under an integer key. -/
def lookup (key : ℕ) : List Entry → Option Item
  | [] => none
  | (.uint n, v) :: rest => if n = key then some v else lookup key rest
  | _ :: rest => lookup key rest

def lookupNint (key : ℕ) : List Entry → Option Item
  | [] => none
  | (.nint n, v) :: rest => if n = key then some v else lookupNint key rest
  | _ :: rest => lookupNint key rest

/-- What the host finds under the key of a successful response. -/
def responseEntry (resp : List UInt8) (key : ℕ) : Option Item :=
  match resp with
  | 0x00 :: body =>
      match decode body with
      | some (.map entries) => lookup key entries
      | _ => none
  | _ => none

def responseAuthData (resp : List UInt8) : Option (List UInt8) :=
  match responseEntry resp 2 with
  | some (.bytes authData) => some authData
  | _ => none

/-- The entry under a text key. -/
def lookupText (key : List UInt8) : List Entry → Option Item
  | [] => none
  | (.text k, v) :: rest => if k = key then some v else lookupText key rest
  | _ :: rest => lookupText key rest

/-- The id of the credential descriptor. -/
def responseCredentialId (resp : List UInt8) : Option (List UInt8) :=
  match responseEntry resp 1 with
  | some (.map entries) =>
      match lookupText (ascii "id") entries with
      | some (.bytes id) => some id
      | _ => none
  | _ => none

/-- numberOfCredentials, if the response has it. -/
def responseTotal (resp : List UInt8) : Option Item := responseEntry resp 6

/-- The signature, which an attestation statement holds under `sig`. -/
def responseSignature (resp : List UInt8) : Option (List UInt8) :=
  match responseEntry resp 3 with
  | some (.bytes sig) => some sig
  | some (.map entries) =>
      match lookupText (ascii "sig") entries with
      | some (.bytes sig) => some sig
      | _ => none
  | _ => none

theorem responseEntry_eq {entries : List Entry} (h : (Item.map entries).Valid)
    (key : ℕ) :
    responseEntry (0x00 :: (Item.map entries).encode) key = lookup key entries := by
  simp [responseEntry, decode_encode _ h]

theorem mcItem_valid {authData der : List UInt8} (hauth : authData.length < 2 ^ 32)
    (hder : der.length < 2 ^ 32) : (mcItem authData der).Valid := by
  simp only [mcItem, str, Item.Valid, ValidEntries, List.length_cons, List.length_nil,
    and_true, length_packed, length_alg, length_sig]
  omega

theorem validEntries_append {xs ys : List Entry} :
    ValidEntries (xs ++ ys) ↔ ValidEntries xs ∧ ValidEntries ys := by
  induction xs with
  | nil => simp [ValidEntries]
  | cons e xs ih => simp [ValidEntries, ih, and_assoc]

theorem gaUserEntries_valid (flash : Mem) (i : Slot) :
    ValidEntries (gaUserEntries flash i) := by
  have huser := UInt8.toNat_lt (flash.slotKey i).userIdLen
  have huserName := UInt8.toNat_lt (flash.slotKey i).userNameLen
  unfold gaUserEntries
  dsimp only
  split_ifs <;>
    simp only [str, Item.Valid, ValidEntries, List.length_cons, List.length_nil,
      Mem.slice_length, and_true, length_id, length_name] <;> omega

theorem gaItem_valid {flash : Mem} {i : Slot} {authData der : List UInt8}
    {total : ℕ} (hauth : authData.length < 2 ^ 32) (hder : der.length < 2 ^ 32)
    (htotal : total < 2 ^ 32) : (gaItem flash i authData der total).Valid := by
  have hcount : (gaEntries flash i authData der total).length < 2 ^ 32 := by
    rw [gaEntries_length]
    split_ifs <;> omega
  have htotalEntries : ValidEntries (gaTotalEntries total) := by
    unfold gaTotalEntries
    split_ifs
    · simpa [ValidEntries, Item.Valid] using htotal
    · trivial
  refine ⟨hcount, ?_⟩
  rw [gaEntries, validEntries_append, validEntries_append]
  refine ⟨⟨?_, gaUserEntries_valid flash i⟩, htotalEntries⟩
  simp only [str, Item.Valid, ValidEntries, List.length_cons, List.length_nil,
    Bytes.length_val, and_true, length_id, length_type, length_public_key]
  omega

/-! ## The user verification bit -/

@[simp] theorem authDataHeader_length (rpIdHash : Bytes 32) (flags : UInt8) :
    (authDataHeader rpIdHash flags).length = 37 := by
  simp [authDataHeader]

/-- The flags follow the hash of the relying party. -/
def authDataFlags (authData : List UInt8) : UInt8 := authData.getD 32 0

theorem authDataFlags_header (rpIdHash : Bytes 32) (flags : UInt8)
    (rest : List UInt8) :
    authDataFlags (authDataHeader rpIdHash flags ++ rest) = flags := by
  unfold authDataFlags authDataHeader
  simp [List.getD]

/-- A successful response whose authenticator data says that the user has been
verified. -/
def SaysUv (resp : List UInt8) : Prop :=
  ∃ authData, responseAuthData resp = some authData ∧
    authDataFlags authData &&& 0x04 ≠ 0

theorem not_saysUv_error {status : UInt8} (h : status ≠ 0x00) : ¬ SaysUv [status] := by
  rintro ⟨authData, hauth, -⟩
  simp [responseAuthData, responseEntry, h] at hauth

/-- The key of an EC2 public key over P-256. -/
def coseItem (pub : Bytes 64) : Item :=
  .map [(.uint 1, .uint 2), (.uint 3, .nint 6), (.nint 0, .uint 1),
    (.nint 1, .bytes (pub.val.take 32)), (.nint 2, .bytes (pub.val.drop 32))]

theorem coseItem_length (pub : Bytes 64) : (coseItem pub).encode.length = 77 := by
  simp [coseItem, Item.encode, encodeEntries, Cbor.head]

theorem coseKey_eq (pub : Bytes 64) : coseKey pub = (coseItem pub).encode := by
  have h := (CborEncoder.holds_init 77).map 5
  have h := (h.uint 1).uint 2
  have h := (h.uint 3).nint 6
  have h := (h.nint 0).uint 1
  have h := (h.nint 1).bytes (pub.val.take 32)
  have h := (h.nint 2).bytes (pub.val.drop 32)
  exact h.buffer_eq (by simp [coseItem, Item.encode, encodeEntries])
    (coseItem_length pub).le

theorem mcAuthData_length (rpIdHash : Bytes 32) (flags : UInt8)
    (credentialId : Bytes 32) (pub : Bytes 64) :
    (mcAuthData rpIdHash flags credentialId pub).length = 164 := by
  have haaguid : aaguid.length = 16 := rfl
  simp only [mcAuthData, coseKey_eq, List.length_append, coseItem_length,
    authDataHeader_length, haaguid, Bytes.length_val, List.length_cons,
    List.length_nil]

theorem responseAuthData_mc {authData der : List UInt8}
    (hauth : authData.length = 164) (hder : der.length ≤ 72) :
    responseAuthData (mcResponse authData der) = some authData := by
  have hvalid : (mcItem authData der).Valid := mcItem_valid (by omega) (by omega)
  rw [responseAuthData, mcResponse_eq (by omega), mcItem,
    responseEntry_eq hvalid]
  simp [lookup]

section

variable {env : Env} {flash : Mem} {i : Slot} {authData : List UInt8}
  {cdh : Bytes 32} {total : ℕ}

theorem gaResponse_entry (hauth : authData.length = 37) (htotal : total < 2 ^ 32)
    (key : ℕ) :
    responseEntry (gaBuildResponse env flash i authData cdh total) key =
      lookup key (gaEntries flash i authData (ecdsaSigToDer
        (signature env (flash.slotKey i).privateKey authData cdh.val)) total) := by
  have hder := ecdsaSigToDer_length_le
    (signature env (flash.slotKey i).privateKey authData cdh.val)
  have hvalid : (gaItem flash i authData (ecdsaSigToDer
      (signature env (flash.slotKey i).privateKey authData cdh.val)) total).Valid :=
    gaItem_valid (by omega) (by omega) htotal
  rw [gaBuildResponse_eq hauth, gaItem, responseEntry_eq hvalid]

theorem responseAuthData_ga (hauth : authData.length = 37) (htotal : total < 2 ^ 32) :
    responseAuthData (gaBuildResponse env flash i authData cdh total) =
      some authData := by
  rw [responseAuthData, gaResponse_entry hauth htotal]
  simp [gaEntries, lookup]

theorem responseSignature_ga (hauth : authData.length = 37)
    (htotal : total < 2 ^ 32) :
    responseSignature (gaBuildResponse env flash i authData cdh total) =
      some (ecdsaSigToDer
        (signature env (flash.slotKey i).privateKey authData cdh.val)) := by
  rw [responseSignature, gaResponse_entry hauth htotal]
  simp [gaEntries, lookup]

theorem gaResponse_credentialId (hauth : authData.length = 37)
    (htotal : total < 2 ^ 32) :
    responseCredentialId (gaBuildResponse env flash i authData cdh total) =
      some (flash.slotKey i).credentialId.val := by
  rw [responseCredentialId, gaResponse_entry hauth htotal]
  simp [gaEntries, lookup, lookupText, str]

theorem gaResponse_total (hauth : authData.length = 37)
    (htotal : total < 2 ^ 32) :
    responseTotal (gaBuildResponse env flash i authData cdh total) =
      if total > 1 then some (.uint total) else none := by
  rw [responseTotal, gaResponse_entry hauth htotal]
  unfold gaEntries gaUserEntries gaTotalEntries
  dsimp only
  split_ifs <;> simp [lookup]

end

theorem responseSignature_mc {authData der : List UInt8}
    (hauth : authData.length = 164) (hder : der.length ≤ 72) :
    responseSignature (mcResponse authData der) = some der := by
  have hvalid : (mcItem authData der).Valid := mcItem_valid (by omega) (by omega)
  have hne : ascii "alg" ≠ ascii "sig" := by decide
  rw [responseSignature, mcResponse_eq (by omega), mcItem,
    responseEntry_eq hvalid]
  simp [lookup, lookupText, str, hne]

theorem saysUv_of_attestation {env : Env} {rpIdHash : Bytes 32} {cdh : List UInt8} :
    SaysUv (attestation env rpIdHash true cdh) := by
  unfold attestation
  refine ⟨_, responseAuthData_mc (mcAuthData_length _ _ _ _) (ecdsaSigToDer_length_le _), ?_⟩
  rw [mcAuthData, List.append_assoc, List.append_assoc, List.append_assoc,
    authDataFlags_header]
  decide

theorem saysUv_attestation {env : Env} {rpIdHash : Bytes 32} {verified : Bool}
    {cdh : List UInt8} (h : SaysUv (attestation env rpIdHash verified cdh)) :
    verified = true := by
  obtain ⟨authData, hauth, hflags⟩ := h
  unfold attestation at hauth
  rw [responseAuthData_mc (mcAuthData_length _ _ _ _) (ecdsaSigToDer_length_le _),
    Option.some.injEq] at hauth
  subst hauth
  rw [mcAuthData, List.append_assoc, List.append_assoc, List.append_assoc,
    authDataFlags_header] at hflags
  cases verified with
  | true => rfl
  | false => exact absurd (by decide) hflags

theorem saysUv_of_assertion {env : Env} {flash : Mem} {i : Slot} {rpIdHash : Bytes 32}
    {upRequired : Bool} {cdh : Bytes 32} {total : ℕ} (htotal : total < 2 ^ 32) :
    SaysUv (gaBuildResponse env flash i
      (authDataHeader rpIdHash (gaFlags upRequired true)) cdh total) := by
  refine ⟨_, responseAuthData_ga (authDataHeader_length _ _) htotal, ?_⟩
  have hheader := authDataFlags_header rpIdHash (gaFlags upRequired true) []
  rw [List.append_nil] at hheader
  rw [hheader]
  cases upRequired <;> decide

theorem saysUv_assertion {env : Env} {flash : Mem} {i : Slot} {rpIdHash : Bytes 32}
    {upRequired verified : Bool} {cdh : Bytes 32} {total : ℕ}
    (htotal : total < 2 ^ 32)
    (h : SaysUv (gaBuildResponse env flash i
      (authDataHeader rpIdHash (gaFlags upRequired verified)) cdh total)) :
    verified = true := by
  obtain ⟨authData, hauth, hflags⟩ := h
  rw [responseAuthData_ga (authDataHeader_length _ _) htotal,
    Option.some.injEq] at hauth
  subst hauth
  have hheader := authDataFlags_header rpIdHash (gaFlags upRequired verified) []
  rw [List.append_nil] at hheader
  rw [hheader] at hflags
  cases verified with
  | true => rfl
  | false => cases upRequired <;> exact absurd (by decide) hflags

end UnsoloKey
