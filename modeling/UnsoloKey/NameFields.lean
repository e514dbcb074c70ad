import UnsoloKey.Effects
import UnsoloKey.SlotChanges
import Mathlib.Tactic

/-!
# The user names in the store

Two memories may differ in the name field of every slot, its length included.  No search
of the store and no routine of the PIN page looks at these bytes, as long as the user
ids keep to their field.
-/

namespace UnsoloKey

open Rd

/-- The length and the bytes of a user name. -/
def InNameField (a : ℕ) : Prop := ∃ i : Slot, slotAddr i + 165 ≤ a ∧ a < slotAddr i + 198

def IdsFit (m : Mem) : Prop :=
  ∀ i, (m.slotKey i).isOccupied → (m.slotKey i).userIdLen ≤ 64

/-- The memories differ in nothing but user names. -/
structure SameButNames (m m' : Mem) : Prop where
  same : ∀ a, ¬ InNameField a → m' a = m a
  idsFit : IdsFit m

theorem not_inNameField {i : Slot} {q : ℕ} (hq : q < 165 ∨ 198 ≤ q ∧ q < 256) :
    ¬ InNameField (slotAddr i + q) := by
  rintro ⟨j, hlow, hhigh⟩
  have hsize : passkeyPageSize = 256 := rfl
  simp only [slotAddr, hsize] at hlow hhigh
  omega

theorem not_inNameField_pin {a : ℕ} (ha : pinFlashAddr ≤ a) : ¬ InNameField a := by
  rintro ⟨i, -, hhigh⟩
  have hend : passkeyFlashEnd = pinFlashAddr := rfl
  have hsize : passkeyPageSize = 256 := rfl
  have hslot := slotAddr_lt i
  omega

namespace SameButNames

variable {m m' : Mem} (h : SameButNames m m') (i : Slot)
include h

theorem byte {q : ℕ} (hq : q < 165 ∨ 198 ≤ q ∧ q < 256) :
    m' (slotAddr i + q) = m (slotAddr i + q) :=
  h.same _ (not_inNameField hq)

theorem array {q n : ℕ} (hq : q + n ≤ 165) :
    m'.array (slotAddr i + q) n = m.array (slotAddr i + q) n := by
  apply Mem.array_congr
  intro k hk
  rw [Nat.add_assoc]
  exact h.byte i (.inl (by omega))

theorem slice {q n : ℕ} (hq : q + n ≤ 165) :
    m'.slice (slotAddr i + q) n = m.slice (slotAddr i + q) n :=
  congrArg Subtype.val (h.array i hq)

theorem magic : (m'.slotKey i).magic = (m.slotKey i).magic := by
  have h0 : m' (slotAddr i) = m (slotAddr i) := h.byte i (q := 0) (.inl (by decide))
  have h1 := h.byte i (q := 1) (.inl (by decide))
  have h2 := h.byte i (q := 2) (.inl (by decide))
  have h3 := h.byte i (q := 3) (.inl (by decide))
  simp only [Mem.slotKey, Mem.residentKey, Mem.le32, h0, h1, h2, h3]

theorem isOccupied : (m'.slotKey i).isOccupied = (m.slotKey i).isOccupied := by
  rw [ResidentKey.isOccupied, ResidentKey.isOccupied, h.magic]

theorem rpIdHash : (m'.slotKey i).rpIdHash = (m.slotKey i).rpIdHash :=
  h.array i (by decide)

theorem credentialId : (m'.slotKey i).credentialId = (m.slotKey i).credentialId :=
  h.array i (by decide)

theorem privateKey : (m'.slotKey i).privateKey = (m.slotKey i).privateKey :=
  h.array i (by decide)

theorem userIdLen : (m'.slotKey i).userIdLen = (m.slotKey i).userIdLen :=
  h.byte i (.inl (by decide))

theorem userId (hoccupied : (m.slotKey i).isOccupied) :
    m'.slice (slotAddr i + 37) (m.slotKey i).userIdLen.toNat =
      m.slice (slotAddr i + 37) (m.slotKey i).userIdLen.toNat := by
  have hfits := UInt8.le_iff_toNat_le.1 (h.idsFit i hoccupied)
  have hbound : (64 : UInt8).toNat = 64 := rfl
  exact h.slice i (by omega)

omit i

theorem symm : SameButNames m' m where
  same := fun a ha => (h.same a ha).symm
  idsFit := by
    intro i hoccupied
    rw [h.isOccupied] at hoccupied
    rw [h.userIdLen]
    exact h.idsFit i hoccupied

/-! ## The searches -/

theorem isOfRp : isOfRp m' = isOfRp m := by
  funext rpIdHash i
  simp only [UnsoloKey.isOfRp, h.isOccupied, h.rpIdHash]

theorem countForRp : passkeyCountForRp m' = passkeyCountForRp m := by
  funext rpIdHash
  simp only [passkeyCountForRp, h.isOfRp]

theorem getByRpIndex : passkeyGetByRpIndex m' = passkeyGetByRpIndex m := by
  funext rpIdHash targetIndex
  simp only [passkeyGetByRpIndex, h.isOfRp]

theorem findByCredId : passkeyFindByCredId m' = passkeyFindByCredId m := by
  funext credentialId
  simp only [passkeyFindByCredId, h.isOccupied, h.credentialId]

theorem excludeListHit : excludeListHit m' = excludeListHit m := by
  have hexcluded : ∀ rpIdHash left ptr,
      excluded m' rpIdHash left ptr = excluded m rpIdHash left ptr := by
    intro rpIdHash left
    induction left with
    | zero => exact fun _ => rfl
    | succ left ih =>
        intro ptr
        simp only [excluded, h.findByCredId, h.rpIdHash, ih]
  funext rpIdHash item
  simp only [UnsoloKey.excludeListHit, hexcluded]

theorem sameAccount (rpIdHash : Bytes 32) (userId : ℕ) (userIdLen : UInt8) (i : Slot) :
    sameAccount m' rpIdHash userId userIdLen i = sameAccount m rpIdHash userId userIdLen i := by
  unfold UnsoloKey.sameAccount
  dsimp only
  rw [h.magic, h.rpIdHash, h.userIdLen]
  by_cases hmagic : (m.slotKey i).magic = passkeyMagic
  · by_cases hlen : (m.slotKey i).userIdLen = userIdLen
    · have huserId := h.userId i (by simpa [ResidentKey.isOccupied] using hmagic)
      rw [hlen] at huserId
      rw [huserId]
    · simp only [hlen, ne_eq, not_false_eq_true, if_true]
  · simp only [hmagic, ne_eq, not_false_eq_true, if_true]

theorem passkeySave : passkeySave m' = passkeySave m := by
  have hfind : ∀ (same : Slot → Rd Bool) list slot,
      findSaveSlot m' same list slot = findSaveSlot m same list slot := by
    intro same list
    induction list with
    | nil => exact fun _ => rfl
    | cons i rest ih =>
        intro slot
        simp only [findSaveSlot, h.magic, ih]
  funext rpIdHash rpId rpIdLen userId userIdLen userName userNameLen credentialId privateKey
  have hsame : UnsoloKey.sameAccount m' rpIdHash userId userIdLen =
      UnsoloKey.sameAccount m rpIdHash userId userIdLen :=
    funext fun i => h.sameAccount rpIdHash userId userIdLen i
  simp only [UnsoloKey.passkeySave, hfind, hsame]

theorem findListed (rpIdHash : Bytes 32) (reqLen : ℕ) (list : List Slot) :
    findListed m' rpIdHash reqLen list = findListed m rpIdHash reqLen list := by
  induction list with
  | nil => rfl
  | cons i rest ih => simp only [UnsoloKey.findListed, h.isOfRp, h.credentialId, ih]

/-! ## The PIN page -/

theorem pinLoad : pinLoad m' = pinLoad m := by
  have hbyte : ∀ q, m' (pinFlashAddr + q) = m (pinFlashAddr + q) := fun q =>
    h.same _ (not_inNameField_pin (Nat.le_add_right _ _))
  have harray : ∀ q n, m'.array (pinFlashAddr + q) n = m.array (pinFlashAddr + q) n := by
    intro q n
    apply Mem.array_congr
    intro k _
    rw [Nat.add_assoc]
    exact hbyte _
  have hfirst : m' pinFlashAddr = m pinFlashAddr := hbyte 0
  have hstate : m'.pinState = m.pinState := by
    simp only [Mem.pinState, Mem.le32, hfirst, hbyte, harray]
  simp only [UnsoloKey.pinLoad, hstate]

theorem storedPin : storedPin m' = storedPin m := by
  rw [UnsoloKey.storedPin, UnsoloKey.storedPin, h.pinLoad]

theorem decrementRetriesOps : pinDecrementRetriesOps m' = pinDecrementRetriesOps m := by
  simp only [pinDecrementRetriesOps, h.pinLoad]

theorem resetRetriesOps : pinResetRetriesOps m' = pinResetRetriesOps m := by
  simp only [pinResetRetriesOps, h.pinLoad]

end SameButNames

/-! ## Flash steps -/

/-- What a step leaves at an address depends on what was there. -/
theorem after_agree {m m' : Mem} {a : ℕ} (h : m' a = m a) (ops : List FlashOp) :
    m'.after ops a = m.after ops a := by
  induction ops generalizing m m' with
  | nil => exact h
  | cons op ops ih =>
      rw [Mem.after_cons, Mem.after_cons]
      apply ih
      cases op with
      | unlock => exact h
      | lock => exact h
      | erasePage addr => simp only [FlashOp.effect, h]
      | program64 addr data => simp only [FlashOp.effect, h]

theorem SameButNames.after {m m' : Mem} {ops : List FlashOp} (h : SameButNames m m')
    (hfits : IdsFit (m.after ops)) : SameButNames (m.after ops) (m'.after ops) where
  same := fun a ha => after_agree (h.same a ha) ops
  idsFit := hfits

theorem idsFit_after_slotOps {m : Mem} {ops : List FlashOp} (h : IdsFit m)
    (hops : SlotOps ops) : IdsFit (m.after ops) := by
  intro i hoccupied
  cases hops with
  | none => exact h i hoccupied
  | write j k hmagic hfits =>
      have hbound : k.magic < 2 ^ 32 := by
        rw [hmagic]
        decide
      rw [slotKey_after_write m j i hbound] at hoccupied ⊢
      split_ifs at hoccupied ⊢ with hij
      · exact hfits
      · exact h i hoccupied
  | erase j =>
      by_cases hij : i = j
      · subst hij
        have herased := slotKey_magic_after_erase m i
        rw [ResidentKey.isOccupied, herased] at hoccupied
        exact absurd (of_decide_eq_true hoccupied) (by decide)
      · rw [slotKey_after_erase_of_ne m hij] at hoccupied ⊢
        exact h i hoccupied

theorem idsFit_after_pinCall {m : Mem} (h : IdsFit m) (call : PinCall) :
    IdsFit (m.after (call.ops m)) := by
  intro i hoccupied
  rw [slotKey_of_slotBytes (slotBytes_after_pinCall m call i)] at hoccupied ⊢
  exact h i hoccupied

theorem idsFit_after_reset (m : Mem) : IdsFit (m.after flashFactoryReset) := by
  intro i hoccupied
  have hslot := slotAddr_lt i
  have hend : passkeyFlashEnd = pinFlashAddr := rfl
  have hstart : passkeyFlashStart ≤ slotAddr i := Nat.le_add_right _ _
  have herased := slice_after_flashFactoryReset m hstart (by omega)
  have hblank : Mem.slotBytes (fun _ => 0xFF) i = erasedPage := by
    simp [Mem.slotBytes, Mem.slice, erasedPage]
  rw [slotKey_of_slotBytes (herased.trans hblank.symm), isOccupied_iff, erased_magic]
    at hoccupied
  exact absurd hoccupied.symm passkeyMagic_ne_emptyMagic

/-- The names are among the bytes which a reset erases. -/
theorem SameButNames.reset {m m' : Mem} (h : SameButNames m m') :
    m'.after flashFactoryReset = m.after flashFactoryReset := by
  funext a
  rw [flashFactoryReset, Mem.after_cons, Mem.after_cons]
  change Mem.after m' _ a = Mem.after m _ a
  rw [after_erasePages, after_erasePages]
  split_ifs with hin
  · rfl
  · refine h.same a fun hfield => hin ?_
    obtain ⟨i, hlow, hhigh⟩ := hfield
    have hslot := slotAddr_lt i
    have hsize : passkeyPageSize = 256 := rfl
    have hstart : slotAddr i = passkeyFlashStart + passkeyPageSize * i := rfl
    have hend : passkeyFlashEnd + passkeyPageSize =
        passkeyFlashStart + passkeyPageSize * (passkeyNumSlots + 1) := rfl
    omega

end UnsoloKey
