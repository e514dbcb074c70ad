import UnsoloKey.Flash

/-!
# The PIN page

The last page of the flash holds one `PINState`.  Its three writers erase the
page and program it again as a whole; `pin_load` accepts whatever page starts
with the magic number.  The magic number, the hash and the retry counter all
lie in the first programming chunk, which is why an interrupted write shows
either no PIN at all or the new one.
-/

namespace UnsoloKey

def pinFlashAddr : ℕ := 0x0800F700
def pinMagic : ℕ := 0x50494E50

structure PinState where
  magic : ℕ
  pinHash : Bytes 16
  retries : UInt8
  padding : Bytes 235

namespace PinState

/-- The struct up to its padding. -/
def front (p : PinState) : List UInt8 :=
  le32Bytes p.magic ++ p.pinHash.val ++ [p.retries]

def toBytes (p : PinState) : List UInt8 := p.front ++ p.padding.val

/-- The two fields which carry meaning. -/
def stored (p : PinState) : Bytes 16 × UInt8 := (p.pinHash, p.retries)

theorem front_length (p : PinState) : p.front.length = 21 := by
  simp [front, le32Bytes, p.pinHash.property]

theorem toBytes_length (p : PinState) : p.toBytes.length = passkeyPageSize := by
  rw [toBytes, List.length_append, front_length, p.padding.property]
  rfl

end PinState

def Mem.pinState (m : Mem) : PinState where
  magic := m.le32 pinFlashAddr
  pinHash := m.array (pinFlashAddr + 4) 16
  retries := m (pinFlashAddr + 20)
  padding := m.array (pinFlashAddr + 21) 235

def pinLoad (m : Mem) : Option PinState :=
  if m.pinState.magic = pinMagic then some m.pinState else none

/-- The hash and the retry counter in force, if a PIN is set. -/
def storedPin (m : Mem) : Option (Bytes 16 × UInt8) :=
  (pinLoad m).map PinState.stored

/-- The page which `pin_save` writes. -/
def freshPin (pinHash : Bytes 16) : PinState where
  magic := pinMagic
  pinHash := pinHash
  retries := 8
  padding := Bytes.fill 0 235 []

def pinSaveOps (pinHash : Bytes 16) : List FlashOp :=
  writePageOps pinFlashAddr (freshPin pinHash).toBytes

def PinState.decremented (p : PinState) : PinState :=
  { p with retries := if p.retries > 0 then p.retries - 1 else p.retries }

def PinState.restored (p : PinState) : PinState := { p with retries := 8 }

def pinDecrementRetriesOps (m : Mem) : List FlashOp :=
  match pinLoad m with
  | none => []
  | some p => writePageOps pinFlashAddr p.decremented.toBytes

def pinResetRetriesOps (m : Mem) : List FlashOp :=
  match pinLoad m with
  | none => []
  | some p => writePageOps pinFlashAddr p.restored.toBytes

/-! ## Reading a written page -/

theorem pinLoad_magic {m : Mem} {p : PinState} (h : pinLoad m = some p) :
    p.magic = pinMagic := by
  unfold pinLoad at h
  split_ifs at h with hmagic
  rw [← Option.some.inj h]
  exact hmagic

theorem storedPin_eq_none_iff {m : Mem} :
    storedPin m = none ↔ pinLoad m = none := by
  simp [storedPin]

theorem storedPin_isSome_iff {m : Mem} :
    (storedPin m).isSome ↔ (pinLoad m).isSome := by
  simp [storedPin]

theorem storedPin_of_pinLoad {m : Mem} {p : PinState}
    (h : pinLoad m = some p) : storedPin m = some p.stored := by
  simp [storedPin, h]

theorem storedPin_of_holds_front {m : Mem} {p : PinState}
    (hmagic : p.magic = pinMagic) (h : m.Holds pinFlashAddr p.front) :
    storedPin m = some p.stored := by
  unfold PinState.front at h
  rw [Mem.holds_append, Mem.holds_append] at h
  obtain ⟨⟨hword, hhash⟩, hretries⟩ := h
  have hstart : m.le32 pinFlashAddr = pinMagic := by
    rw [hmagic] at hword
    exact hword.le32_eq (by decide)
  have hpinHash : m.array (pinFlashAddr + 4) 16 = p.pinHash := by
    exact hhash.array_eq
  have hlength : (le32Bytes p.magic ++ p.pinHash.val).length = 20 := by
    simp [le32Bytes, p.pinHash.property]
  rw [hlength, Mem.holds_cons] at hretries
  unfold storedPin pinLoad
  simp [Mem.pinState, hstart, PinState.stored, hpinHash, hretries.1]

theorem pinLoad_of_holds {m : Mem} {p : PinState} (hmagic : p.magic = pinMagic)
    (h : m.Holds pinFlashAddr p.toBytes) : pinLoad m = some p := by
  have hlength : (le32Bytes p.magic ++ p.pinHash.val).length = 20 := by
    simp [le32Bytes]
  rw [PinState.toBytes, Mem.holds_append, p.front_length, PinState.front,
    Mem.holds_append, Mem.holds_append, hlength, Mem.holds_cons] at h
  obtain ⟨⟨⟨hword, hhash⟩, hretries, _⟩, hpadding⟩ := h
  have hstart : m.le32 pinFlashAddr = p.magic :=
    hword.le32_eq (by rw [hmagic]; decide)
  have hstate : m.pinState = p := by
    have hpinHash : m.array (pinFlashAddr + 4) 16 = p.pinHash := hhash.array_eq
    have hpad : m.array (pinFlashAddr + 21) 235 = p.padding := hpadding.array_eq
    unfold Mem.pinState
    rw [hstart, hpinHash, hretries, hpad]
  unfold pinLoad
  rw [hstate, if_pos hmagic]

theorem storedPin_after_write (m : Mem) {p : PinState}
    (hmagic : p.magic = pinMagic) :
    storedPin (m.after (writePageOps pinFlashAddr p.toBytes)) =
      some p.stored := by
  have hpage := holds_after_writePageOps m pinFlashAddr p.toBytes_length
  rw [PinState.toBytes, Mem.holds_append] at hpage
  exact storedPin_of_holds_front hmagic hpage.1

theorem storedPin_congr {m m' : Mem}
    (h : ∀ a, pinFlashAddr ≤ a → a < pinFlashAddr + passkeyPageSize →
      m a = m' a) : storedPin m = storedPin m' := by
  have hbyte : ∀ i < 256, m (pinFlashAddr + i) = m' (pinFlashAddr + i) := by
    intro i hi
    have hsize : passkeyPageSize = 256 := rfl
    exact h _ (by omega) (by omega)
  have hle : m.le32 pinFlashAddr = m'.le32 pinFlashAddr := by
    have h0 : m pinFlashAddr = m' pinFlashAddr := hbyte 0 (by omega)
    simp only [Mem.le32, h0, hbyte 1 (by omega), hbyte 2 (by omega),
      hbyte 3 (by omega)]
  have hslice : ∀ p n, p + n ≤ 256 →
      m.array (pinFlashAddr + p) n = m'.array (pinFlashAddr + p) n := by
    intro p n hpn
    apply Mem.array_congr
    intro i hi
    simpa only [Nat.add_assoc] using hbyte (p + i) (by omega)
  have hstate : m.pinState = m'.pinState := by
    simp only [Mem.pinState, hle, hslice 4 16 (by omega),
      hbyte 20 (by omega), hslice 21 235 (by omega)]
  simp only [storedPin, pinLoad, hstate]

theorem storedPin_after_below {ops : List FlashOp}
    (hops : ∀ op ∈ ops, op.Below pinFlashAddr) (m : Mem) :
    storedPin (m.after ops) = storedPin m :=
  storedPin_congr fun _ ha _ => Mem.after_below hops ha m

/-! ## The three writers -/

theorem storedPin_pinSave (m : Mem) (pinHash : Bytes 16) :
    storedPin (m.after (pinSaveOps pinHash)) = some (pinHash, 8) :=
  storedPin_after_write m rfl

theorem decremented_retries (p : PinState) :
    p.decremented.retries.toNat = p.retries.toNat - 1 := by
  unfold PinState.decremented
  by_cases hpos : p.retries > 0
  · have hone : (1 : UInt8) ≤ p.retries := by
      rw [UInt8.le_iff_toNat_le]
      exact UInt8.lt_iff_toNat_lt.mp hpos
    simp only [hpos, if_true]
    exact UInt8.toNat_sub_of_le _ _ hone
  · have hzero : p.retries.toNat = 0 := by
      have hnot : ¬ 0 < p.retries.toNat :=
        fun h => hpos (UInt8.lt_iff_toNat_lt.mpr h)
      omega
    simp [hpos, hzero]

theorem storedPin_pinDecrementRetries {m : Mem} {p : PinState}
    (h : pinLoad m = some p) :
    storedPin (m.after (pinDecrementRetriesOps m)) =
      some p.decremented.stored := by
  have hp : p.magic = pinMagic := pinLoad_magic h
  have hmagic : p.decremented.magic = pinMagic := hp
  simp only [pinDecrementRetriesOps, h]
  exact storedPin_after_write m hmagic

theorem storedPin_pinResetRetries {m : Mem} {p : PinState}
    (h : pinLoad m = some p) :
    storedPin (m.after (pinResetRetriesOps m)) = some (p.pinHash, 8) := by
  have hp : p.magic = pinMagic := pinLoad_magic h
  have hmagic : p.restored.magic = pinMagic := hp
  simp only [pinResetRetriesOps, h]
  exact storedPin_after_write m hmagic

/-! ## Interrupted writes -/

theorem storedPin_of_erased {m : Mem} (h : ∀ i < 4, m (pinFlashAddr + i) = 0xFF) :
    storedPin m = none := by
  have h0 := h 0 (by omega)
  rw [Nat.add_zero] at h0
  have hmagic : m.le32 pinFlashAddr = 0xFFFFFFFF := by
    simp only [Mem.le32, h0, h 1 (by omega), h 2 (by omega), h 3 (by omega)]
    decide
  have hne : (0xFFFFFFFF : ℕ) ≠ pinMagic := by decide
  rw [storedPin_eq_none_iff]
  simp [pinLoad, Mem.pinState, hmagic, hne]

/-- After the erase and before the first chunk there is no PIN. -/
theorem storedPin_after_erase (m : Mem) (p : PinState) :
    storedPin (m.after ((writeSteps pinFlashAddr p.toBytes).take 1)) =
      none := by
  apply storedPin_of_erased
  intro i hi
  have hsize : passkeyPageSize = 256 := rfl
  have hin : pinFlashAddr ≤ pinFlashAddr + i ∧
      pinFlashAddr + i < pinFlashAddr + passkeyPageSize := by omega
  have hnone : ¬ pinFlashAddr + i < pinFlashAddr + 64 * 0 := by omega
  rw [after_writeSteps_take m pinFlashAddr p.toBytes_length 0, if_pos hin,
    if_neg hnone]

/-- From the first chunk on the new hash and counter are in force. -/
theorem storedPin_after_chunks (m : Mem) {p : PinState}
    (hmagic : p.magic = pinMagic) (k : ℕ) :
    storedPin (m.after ((writeSteps pinFlashAddr p.toBytes).take (k + 2))) =
      some p.stored := by
  apply storedPin_of_holds_front hmagic
  apply holds_of_getD
  intro i hi
  have hsize : passkeyPageSize = 256 := rfl
  have hi : i < 21 := by simpa [PinState.front_length] using hi
  have hin : pinFlashAddr ≤ pinFlashAddr + i ∧
      pinFlashAddr + i < pinFlashAddr + passkeyPageSize := by omega
  have hdone : pinFlashAddr + i < pinFlashAddr + 64 * (k + 1) := by omega
  rw [after_writeSteps_take m pinFlashAddr p.toBytes_length (k + 1),
    if_pos hin, if_pos hdone, Nat.add_sub_cancel_left]
  have hfront : i < p.front.length := by rw [p.front_length]; exact hi
  simp [PinState.toBytes, List.getD, List.getElem?_append_left hfront]

end UnsoloKey
