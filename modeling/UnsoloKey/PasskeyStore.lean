import UnsoloKey.Flash
import Mathlib.Tactic

/-!
# The credential slots

Five pages of flash hold one `ResidentKey` each.  A slot is occupied when it
starts with the magic number and free when its magic word is erased; a routine
which returns a pointer into a slot returns the index of that slot here.
`passkey_save` copies the strings of the account out of the memory of its
caller, so it is a reading computation whose result is the list of flash steps.
-/

namespace UnsoloKey

open Rd

def passkeyFlashStart : ℕ := 0x0800F200
def passkeyFlashEnd : ℕ := 0x0800F700
def passkeyMagic : ℕ := 0xF1D0F1D0
def emptyMagic : ℕ := 0xFFFFFFFF

def passkeyNumSlots : ℕ :=
  (passkeyFlashEnd - passkeyFlashStart) / passkeyPageSize

abbrev Slot := Fin passkeyNumSlots

def slotAddr (i : Slot) : ℕ := passkeyFlashStart + passkeyPageSize * i

/-- The slots in the order of every search. -/
def slots : List Slot := List.finRange passkeyNumSlots

structure ResidentKey where
  magic : ℕ
  rpIdHash : Bytes 32
  userIdLen : UInt8
  userId : Bytes 64
  credentialId : Bytes 32
  privateKey : Bytes 32
  userNameLen : UInt8
  userName : Bytes 32
  rpIdLen : UInt8
  rpId : Bytes 32
  padding : Bytes 25

def ResidentKey.toBytes (k : ResidentKey) : List UInt8 :=
  le32Bytes k.magic ++ (k.rpIdHash.val ++ (k.userIdLen :: (k.userId.val ++
    (k.credentialId.val ++ (k.privateKey.val ++ (k.userNameLen ::
      (k.userName.val ++ (k.rpIdLen :: (k.rpId.val ++ k.padding.val)))))))))

def Mem.residentKey (m : Mem) (p : ℕ) : ResidentKey where
  magic := m.le32 p
  rpIdHash := m.array (p + 4) 32
  userIdLen := m (p + 36)
  userId := m.array (p + 37) 64
  credentialId := m.array (p + 101) 32
  privateKey := m.array (p + 133) 32
  userNameLen := m (p + 165)
  userName := m.array (p + 166) 32
  rpIdLen := m (p + 198)
  rpId := m.array (p + 199) 32
  padding := m.array (p + 231) 25

def Mem.slotKey (m : Mem) (i : Slot) : ResidentKey := m.residentKey (slotAddr i)

def ResidentKey.isOccupied (k : ResidentKey) : Bool := k.magic = passkeyMagic

/-! ## passkey_save -/

/-- The account test of `passkey_save`.  `memcmp` runs over the bytes of the
slot from `user_id` on. -/
def sameAccount (flash : Mem) (rpIdHash : Bytes 32) (userId : ℕ)
    (userIdLen : UInt8) (i : Slot) : Rd Bool := do
  let key := flash.slotKey i
  if key.magic ≠ passkeyMagic then return false
  if key.rpIdHash ≠ rpIdHash then return false
  if key.userIdLen ≠ userIdLen then return false
  let wanted ← bytes userId userIdLen.toNat
  return flash.slice (slotAddr i + 37) userIdLen.toNat = wanted

/-- The slot search: the first free slot is remembered, a slot of the same
account ends the search. -/
def findSaveSlot (flash : Mem) (same : Slot → Rd Bool) :
    List Slot → Option Slot → Rd (Option Slot)
  | [], slot => return slot
  | i :: rest, slot => do
      if (flash.slotKey i).magic = emptyMagic then
        findSaveSlot flash same rest (slot.or (some i))
      else if ← same i then
        return some i
      else
        findSaveSlot flash same rest slot

def minByte (n bound : UInt8) : UInt8 := if n > bound then bound else n

/-- The struct prepared in RAM: the strings are cut to their fields and the
rest is left at `FF`. -/
def newKey (rpIdHash : Bytes 32) (rpId userId userName : List UInt8)
    (credentialId privateKey : Bytes 32) : ResidentKey where
  magic := passkeyMagic
  rpIdHash := rpIdHash
  userIdLen := UInt8.ofNat userId.length
  userId := Bytes.fill 0xFF 64 userId
  credentialId := credentialId
  privateKey := privateKey
  userNameLen := UInt8.ofNat userName.length
  userName := Bytes.fill 0xFF 32 userName
  rpIdLen := UInt8.ofNat rpId.length
  rpId := Bytes.fill 0xFF 32 rpId
  padding := Bytes.fill 0xFF 25 []

/-- `passkey_save`: its result and the flash steps it issues. -/
def passkeySave (flash : Mem) (rpIdHash : Bytes 32) (rpId : ℕ)
    (rpIdLen : UInt8) (userId : ℕ) (userIdLen : UInt8) (userName : ℕ)
    (userNameLen : UInt8) (credentialId privateKey : Bytes 32) :
    Rd (ℤ × List FlashOp) := do
  match ← findSaveSlot flash (sameAccount flash rpIdHash userId userIdLen)
      slots none with
  | none => return (-1, [])
  | some slot =>
      let storedRpId ← bytes rpId (minByte rpIdLen 32).toNat
      let storedUserId ← bytes userId (minByte userIdLen 64).toNat
      let storedUserName ← bytes userName (minByte userNameLen 32).toNat
      let key := newKey rpIdHash storedRpId storedUserId storedUserName
        credentialId privateKey
      return (0, writePageOps (slotAddr slot) key.toBytes)

/-! ## Searches, deletion and reset -/

def passkeyFindByRp (m : Mem) (rpIdHash : Bytes 32) : Option Slot :=
  slots.find? fun i =>
    (m.slotKey i).isOccupied ∧ (m.slotKey i).rpIdHash = rpIdHash

def passkeyFindByCredId (m : Mem) (credentialId : Bytes 32) : Option Slot :=
  slots.find? fun i =>
    (m.slotKey i).isOccupied ∧ (m.slotKey i).credentialId = credentialId

def passkeyCountAll (m : Mem) : ℕ :=
  slots.countP fun i => (m.slotKey i).isOccupied

/-- Whether the slot is the first one of its relying party. -/
def isFirstOfRp (m : Mem) (i : Slot) : Bool :=
  (m.slotKey i).isOccupied ∧ ¬ slots.any fun j =>
    j < i ∧ (m.slotKey j).isOccupied ∧
      (m.slotKey j).rpIdHash = (m.slotKey i).rpIdHash

def passkeyCountUniqueRps (m : Mem) : ℕ := slots.countP (isFirstOfRp m)

/-- `passkey_get_unique_rp_hash`; `none` is the result `-1`. -/
def passkeyGetUniqueRpHash (m : Mem) (targetIndex : ℕ) : Option (Bytes 32) :=
  ((slots.filter (isFirstOfRp m))[targetIndex]?).map fun i =>
    (m.slotKey i).rpIdHash

def isOfRp (m : Mem) (rpIdHash : Bytes 32) (i : Slot) : Bool :=
  (m.slotKey i).isOccupied ∧ (m.slotKey i).rpIdHash = rpIdHash

def passkeyCountForRp (m : Mem) (rpIdHash : Bytes 32) : ℕ :=
  slots.countP (isOfRp m rpIdHash)

def passkeyGetByRpIndex (m : Mem) (rpIdHash : Bytes 32) (targetIndex : ℕ) :
    Option Slot :=
  (slots.filter (isOfRp m rpIdHash))[targetIndex]?

def eraseSlotOps (i : Slot) : List FlashOp :=
  [.unlock, .erasePage (slotAddr i), .lock]

/-- `passkey_delete_by_cred_id`: its result and the flash steps it issues. -/
def passkeyDeleteByCredId (m : Mem) (credentialId : Bytes 32) :
    ℤ × List FlashOp :=
  match passkeyFindByCredId m credentialId with
  | some i => (0, eraseSlotOps i)
  | none => (-1, [])

/-- `flash_factory_reset` erases every slot and the page after the last one,
which is the PIN page.  It never locks the controller again. -/
def flashFactoryReset : List FlashOp :=
  .unlock :: (List.range (passkeyNumSlots + 1)).map fun i =>
    .erasePage (passkeyFlashStart + passkeyPageSize * i)

/-! ## Reading a written slot -/

theorem ResidentKey.toBytes_length (k : ResidentKey) :
    k.toBytes.length = passkeyPageSize := by
  simp [toBytes, le32Bytes, k.rpIdHash.property, k.userId.property,
    k.credentialId.property, k.privateKey.property, k.userName.property,
    k.rpId.property, k.padding.property, passkeyPageSize]

theorem residentKey_of_holds {m : Mem} {p : ℕ} {k : ResidentKey}
    (hmagic : k.magic < 2 ^ 32) (h : m.Holds p k.toBytes) :
    m.residentKey p = k := by
  unfold ResidentKey.toBytes at h
  have hword : (le32Bytes k.magic).length = 4 := rfl
  simp only [Mem.holds_append, Mem.holds_cons, hword, k.rpIdHash.property,
    k.userId.property, k.credentialId.property, k.privateKey.property,
    k.userName.property, k.rpId.property, Nat.add_assoc,
    Nat.reduceAdd] at h
  rcases h with ⟨hm, hhash, hul, hu, hc, hp, hnl, hn, hrl, hr, hpad⟩
  cases k
  simp only [Mem.residentKey, hm.le32_eq hmagic, hhash.array_eq, hul,
    hu.array_eq, hc.array_eq, hp.array_eq, hnl, hn.array_eq, hrl, hr.array_eq,
    hpad.array_eq]

theorem mem_slots (i : Slot) : i ∈ slots := List.mem_finRange i

theorem slotAddr_lt (i : Slot) :
    slotAddr i + passkeyPageSize ≤ passkeyFlashEnd := by
  have hi : i.val < 5 := i.isLt
  have hsize : passkeyPageSize = 256 := rfl
  have hstart : passkeyFlashStart = 0x0800F200 := rfl
  have hend : passkeyFlashEnd = 0x0800F700 := rfl
  rw [slotAddr, hsize, hstart, hend]
  omega

theorem slotAddr_disjoint {i j : Slot} (h : i ≠ j) :
    slotAddr i + passkeyPageSize ≤ slotAddr j ∨
      slotAddr j + passkeyPageSize ≤ slotAddr i := by
  have hne : i.val ≠ j.val := fun hij => h (Fin.ext hij)
  have hsize : passkeyPageSize = 256 := rfl
  simp only [slotAddr, hsize]
  omega

theorem slotAddr_outside {i j : Slot} (h : i ≠ j) {a : ℕ} (ha : a < passkeyPageSize) :
    ¬ (slotAddr j ≤ slotAddr i + a ∧ slotAddr i + a < slotAddr j + passkeyPageSize) := by
  have hapart := slotAddr_disjoint h
  omega

theorem residentKey_congr {m m' : Mem} {p : ℕ}
    (h : ∀ i < passkeyPageSize, m (p + i) = m' (p + i)) :
    m.residentKey p = m'.residentKey p := by
  have hsize : passkeyPageSize = 256 := rfl
  have hslice : ∀ q n, q + n ≤ 256 → m.array (p + q) n = m'.array (p + q) n := by
    intro q n hqn
    apply Mem.array_congr
    intro i hi
    simpa only [Nat.add_assoc] using h (q + i) (by omega)
  have h0 : m p = m' p := h 0 (by omega)
  simp only [Mem.residentKey, Mem.le32, h0, h 1 (by omega), h 2 (by omega),
    h 3 (by omega), h 36 (by omega), h 165 (by omega), h 198 (by omega),
    hslice 4 32 (by omega), hslice 37 64 (by omega), hslice 101 32 (by omega),
    hslice 133 32 (by omega), hslice 166 32 (by omega),
    hslice 199 32 (by omega), hslice 231 25 (by omega)]

theorem slotKey_after_write (m : Mem) (i j : Slot) {k : ResidentKey}
    (hmagic : k.magic < 2 ^ 32) :
    (m.after (writePageOps (slotAddr i) k.toBytes)).slotKey j =
      if j = i then k else m.slotKey j := by
  by_cases hji : j = i
  · subst hji
    rw [if_pos rfl]
    exact residentKey_of_holds hmagic
      (holds_after_writePageOps m (slotAddr j) k.toBytes_length)
  · rw [if_neg hji]
    apply residentKey_congr
    intro a ha
    rw [after_writePageOps m (slotAddr i) k.toBytes_length, if_neg (slotAddr_outside hji ha)]

theorem slotKey_after_erase_of_ne (m : Mem) {i j : Slot} (hji : j ≠ i) :
    (m.after (eraseSlotOps i)).slotKey j =
      m.slotKey j := by
  apply residentKey_congr
  intro a ha
  simp only [eraseSlotOps, Mem.after_cons, Mem.after_nil, FlashOp.effect,
    if_neg (slotAddr_outside hji ha)]

theorem slotKey_magic_after_erase (m : Mem) (i : Slot) :
    ((m.after (eraseSlotOps i)).slotKey i).magic =
      emptyMagic := by
  have hbyte : ∀ a < 4, (m.after (eraseSlotOps i))
      (slotAddr i + a) = 0xFF := by
    intro a ha
    have hsize : passkeyPageSize = 256 := rfl
    have hin : slotAddr i ≤ slotAddr i + a ∧
        slotAddr i + a < slotAddr i + passkeyPageSize := by omega
    simp only [eraseSlotOps, Mem.after_cons, Mem.after_nil, FlashOp.effect,
      if_pos hin]
  have h0 := hbyte 0 (by omega)
  rw [Nat.add_zero] at h0
  simp only [Mem.slotKey, Mem.residentKey, Mem.le32, h0, hbyte 1 (by omega),
    hbyte 2 (by omega), hbyte 3 (by omega)]
  decide

end UnsoloKey
