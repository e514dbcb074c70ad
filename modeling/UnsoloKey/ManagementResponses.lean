import UnsoloKey.Responses
import Mathlib.Tactic

/-!
# The responses of CredentialManagement

The three kinds of response are canonical maps which fit the response buffer, whatever
the slots hold: the lengths in a slot are single bytes.
-/

namespace UnsoloKey

open Cbor

/-- The number which only a Begin command returns. -/
def beginEntries (begins : Prop) [Decidable begins] (total : ℕ) : List Entry :=
  if begins then [(.uint 3, .uint total)] else []

def metadataItem (m : Mem) : Item :=
  .map [(.uint 1, .uint (passkeyCountAll m)), (.uint 2, .uint passkeyNumSlots)]

def rpItem (display : List UInt8) (rpHash : Bytes 32) (begins : Prop) [Decidable begins]
    (total : ℕ) : Item :=
  .map ([(.uint 1, .map [(str "id", .text display), (str "name", .text display)]),
    (.uint 2, .bytes rpHash.val)] ++ beginEntries begins total)

/-- The name in the list: a placeholder stands for an empty one. -/
def listedName (m : Mem) (i : Slot) : List UInt8 :=
  if (m.slotKey i).userNameLen > 0 then
    m.slice (slotAddr i + 166) (m.slotKey i).userNameLen.toNat
  else ascii "Passkey Account"

def listedUserId (m : Mem) (i : Slot) : List UInt8 :=
  m.slice (slotAddr i + 37) (m.slotKey i).userIdLen.toNat

def credentialItem (m : Mem) (i : Slot) (begins : Prop) [Decidable begins] (total : ℕ) :
    Item :=
  .map ([(.uint 1, .map [(str "id", .bytes (listedUserId m i)),
      (str "name", .text (listedName m i))]),
    (.uint 2, .map [(str "id", .bytes (m.slotKey i).credentialId.val),
      (str "type", str "public-key")])] ++ beginEntries begins total)

section

variable {m : Mem} {i : Slot} {begins : Prop} [Decidable begins] {total : ℕ}
  {display : List UInt8} {rpHash : Bytes 32} {e : CborEncoder} {capacity : ℕ}
  {written : List UInt8}

theorem listedName_length : (listedName m i).length < 256 := by
  have hplaceholder : (ascii "Passkey Account").length = 15 := rfl
  unfold listedName
  split_ifs
  · rw [Mem.slice_length]
    exact UInt8.toNat_lt _
  · omega

theorem listedUserId_length : (listedUserId m i).length < 256 := by
  rw [listedUserId, Mem.slice_length]
  exact UInt8.toNat_lt _

theorem rpDisplay_length : (rpDisplay m rpHash).length < 256 := by
  have hplaceholder : (ascii "Passkey RP").length = 10 := rfl
  unfold rpDisplay
  split
  · omega
  · split_ifs
    · rw [Mem.slice_length]
      exact UInt8.toNat_lt _
    · omega

theorem beginEntries_holds (h : e.Holds capacity written) (begins : Prop) [Decidable begins]
    (total : ℕ) :
    (if begins then (e.encodeUint 3).encodeUint total else e).Holds capacity
      (written ++ encodeEntries (beginEntries begins total)) := by
  unfold beginEntries
  split_ifs
  · simpa [Item.encode, encodeEntries] using (h.uint 3).uint total
  · simpa [encodeEntries] using h

theorem beginEntries_room : roomEntries (beginEntries begins total) ≤ 10 := by
  unfold beginEntries
  split_ifs <;> simp [roomEntries, Item.room]

theorem beginEntries_valid (htotal : total < 2 ^ 32) :
    ValidEntries (beginEntries begins total) := by
  unfold beginEntries
  split_ifs
  · simpa [ValidEntries, Item.Valid] using htotal
  · trivial

theorem beginEntries_length :
    (beginEntries begins total).length = if begins then 1 else 0 := by
  unfold beginEntries
  split_ifs <;> rfl

/-! ## The encoders write the items -/

theorem getCredsMetadata_eq (d : Device) :
    getCredsMetadata d = 0x00 :: (metadataItem d.flash.mem).encode := by
  have h := (CborEncoder.holds_init respCapacity).map 2
  have h := (h.uint 1).uint (passkeyCountAll d.flash.mem)
  have h := (h.uint 2).uint passkeyNumSlots
  have hroom : (metadataItem d.flash.mem).room ≤ respCapacity := by
    simp [metadataItem, Item.room, roomEntries, respCapacity]
  unfold getCredsMetadata okResponse
  dsimp only
  rw [h.buffer_eq (x := metadataItem d.flash.mem)
    (by simp [metadataItem, Item.encode, encodeEntries])
    ((Item.encode_length_le _).trans hroom)]

/-- The response of enumerateRPs. -/
def rpResponse (display : List UInt8) (rpHash : Bytes 32) (begins : Prop) [Decidable begins]
    (total : ℕ) : List UInt8 :=
  let e := (CborEncoder.init respCapacity).encodeMap (if begins then 3 else 2)
  let e := (e.encodeUint 1).encodeMap 2
  let e := (e.encodeTextString "id").encodeTextStringLen display
  let e := (e.encodeTextString "name").encodeTextStringLen display
  let e := (e.encodeUint 2).encodeByteString rpHash.val
  okResponse (if begins then (e.encodeUint 3).encodeUint total else e)

theorem rpItem_room (hdisplay : display.length < 256) :
    (rpItem display rpHash begins total).room ≤ 700 := by
  have htotal : roomEntries (beginEntries begins total) ≤ 10 := beginEntries_room
  simp only [rpItem, str, Item.room, roomEntries, roomEntries_append, Bytes.length_val,
    length_id, length_name]
  omega

theorem rpResponse_eq (hdisplay : display.length < 256) :
    rpResponse display rpHash begins total =
      0x00 :: (rpItem display rpHash begins total).encode := by
  have h := (CborEncoder.holds_init respCapacity).map (if begins then 3 else 2)
  have h := (h.uint 1).map 2
  have h := (h.str "id").text display
  have h := (h.str "name").text display
  have h := (h.uint 2).bytes rpHash.val
  have h := beginEntries_holds h begins total
  have hlength : (rpItem display rpHash begins total).encode =
      head 5 (if begins then 3 else 2) ++ encodeEntries
        ([(.uint 1, .map [(str "id", .text display), (str "name", .text display)]),
          (.uint 2, .bytes rpHash.val)] ++ beginEntries begins total) := by
    rw [rpItem, Item.encode, List.length_append, beginEntries_length]
    split_ifs <;> rfl
  have hroom : (rpItem display rpHash begins total).room ≤ 700 := rpItem_room hdisplay
  have hitem := h.buffer_eq (x := rpItem display rpHash begins total)
    (by simp [hlength, str, Item.encode, encodeEntries])
    ((Item.encode_length_le _).trans (hroom.trans (by decide)))
  unfold rpResponse okResponse
  dsimp only
  rw [hitem]

theorem credentialItem_room : (credentialItem m i begins total).room ≤ 700 := by
  have huserId := listedUserId_length (m := m) (i := i)
  have huserName := listedName_length (m := m) (i := i)
  have htotal : roomEntries (beginEntries begins total) ≤ 10 := beginEntries_room
  simp only [credentialItem, str, Item.room, roomEntries, roomEntries_append, Bytes.length_val,
    length_id, length_name, length_type, length_public_key]
  omega

theorem credentialResponse_eq (d : Device) (subCmd total : ℕ) (i : Slot) :
    credentialResponse d subCmd total i =
      0x00 :: (credentialItem d.flash.mem i (subCmd = 0x04) total).encode := by
  have h := (CborEncoder.holds_init respCapacity).map (if subCmd = 0x04 then 3 else 2)
  have h := (h.uint 1).map 2
  have h := (h.str "id").bytes (listedUserId d.flash.mem i)
  have h := (h.str "name").text (listedName d.flash.mem i)
  have h := (h.uint 2).map 2
  have h := (h.str "id").bytes (d.flash.mem.slotKey i).credentialId.val
  have h := (h.str "type").str "public-key"
  have h := beginEntries_holds h (subCmd = 0x04) total
  have hlength : (credentialItem d.flash.mem i (subCmd = 0x04) total).encode =
      head 5 (if subCmd = 0x04 then 3 else 2) ++ encodeEntries
        ([(.uint 1, .map [(str "id", .bytes (listedUserId d.flash.mem i)),
            (str "name", .text (listedName d.flash.mem i))]),
          (.uint 2, .map [(str "id", .bytes (d.flash.mem.slotKey i).credentialId.val),
            (str "type", str "public-key")])] ++ beginEntries (subCmd = 0x04) total) := by
    rw [credentialItem, Item.encode, List.length_append, beginEntries_length]
    split_ifs <;> rfl
  have hitem := h.buffer_eq (x := credentialItem d.flash.mem i (subCmd = 0x04) total)
    (by simp [hlength, str, Item.encode, encodeEntries])
    ((Item.encode_length_le _).trans (credentialItem_room.trans (by decide)))
  unfold credentialResponse okResponse
  exact congrArg (0x00 :: ·) hitem

/-! ## Decoding them -/

theorem metadataItem_valid : (metadataItem m).Valid := by
  have hcount : passkeyCountAll m ≤ slots.length := List.countP_le_length
  have hslots : slots.length = 5 := by decide
  have hnum : passkeyNumSlots = 5 := by decide
  simp only [metadataItem, Item.Valid, ValidEntries, List.length_cons, List.length_nil,
    and_true, hnum]
  omega

theorem rpItem_valid (hdisplay : display.length < 256) (htotal : total < 2 ^ 32) :
    (rpItem display rpHash begins total).Valid := by
  refine ⟨?_, validEntries_append.2 ⟨?_, beginEntries_valid htotal⟩⟩
  · rw [List.length_append, beginEntries_length]
    split_ifs <;> simp
  · simp only [str, Item.Valid, ValidEntries, List.length_cons, List.length_nil,
      Bytes.length_val, and_true, length_id, length_name]
    omega

theorem credentialItem_valid (htotal : total < 2 ^ 32) :
    (credentialItem m i begins total).Valid := by
  have huserId := listedUserId_length (m := m) (i := i)
  have huserName := listedName_length (m := m) (i := i)
  refine ⟨?_, validEntries_append.2 ⟨?_, beginEntries_valid htotal⟩⟩
  · rw [List.length_append, beginEntries_length]
    split_ifs <;> simp
  · simp only [str, Item.Valid, ValidEntries, List.length_cons, List.length_nil,
      Bytes.length_val, and_true, length_id, length_name, length_type, length_public_key]
    omega

end

end UnsoloKey
