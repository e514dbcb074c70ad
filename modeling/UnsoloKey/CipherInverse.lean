import UnsoloKey.Aes
import Mathlib.Tactic

/-!
# Decryption inverts encryption

Each layer of a round of the cipher is undone by its counterpart.  For the mixing of
columns this is an identity between sums of bytes: four products with the matrix of the
inverse, in which everything but one byte of the column cancels.
-/

namespace UnsoloKey

namespace Aes

theorem block_ext {s t : Block} (h : ∀ i < 16, s.byte i = t.byte i) : s = t := by
  apply Subtype.ext
  apply List.ext_getElem (by rw [Bytes.length_val, Bytes.length_val])
  intro i hs ht
  have hbyte := h i (by simpa using hs)
  unfold Block.byte at hbyte
  rwa [List.getD, List.getD, List.getElem?_eq_getElem hs, List.getElem?_eq_getElem ht] at hbyte

theorem byte_ofFn (f : ℕ → UInt8) {i : ℕ} (hi : i < 16) : (Block.ofFn f).byte i = f i := by
  simp [Block.byte, Block.ofFn, List.getD, hi]

/-! ## The layers -/

theorem xor_xor_cancel (a b : UInt8) : a ^^^ b ^^^ b = a := by
  rw [UInt8.xor_assoc, UInt8.xor_self, UInt8.xor_zero]

theorem addRoundKey_self (round : ℕ) (s : Block) (roundKey : List UInt8) :
    addRoundKey round (addRoundKey round s roundKey) roundKey = s := by
  apply block_ext
  intro i hi
  unfold addRoundKey
  rw [byte_ofFn _ hi, byte_ofFn _ hi, xor_xor_cancel]

theorem rsbox_sbox : ∀ n < 256, rsbox.getD (sbox.getD n 0).toNat 0 = UInt8.ofNat n := by
  decide +kernel

theorem invSubByte_subByte (b : UInt8) : invSubByte (subByte b) = b := by
  unfold invSubByte subByte
  rw [rsbox_sbox b.toNat b.toNat_lt, UInt8.ofNat_toNat]

theorem invSubBytes_subBytes (s : Block) : invSubBytes (subBytes s) = s := by
  apply block_ext
  intro i hi
  unfold invSubBytes subBytes
  rw [byte_ofFn _ hi, byte_ofFn _ hi, invSubByte_subByte]

theorem invShiftRows_shiftRows (s : Block) : invShiftRows (shiftRows s) = s := by
  apply block_ext
  intro i hi
  unfold invShiftRows shiftRows
  have hmoved : 4 * ((i / 4 + 4 - i % 4) % 4) + i % 4 < 16 := by omega
  rw [byte_ofFn _ hi, byte_ofFn _ hmoved]
  congr 1
  omega

/-! ## The columns -/

def topBit (a : UInt8) : UInt8 := (a >>> 7) &&& (1 : UInt8)

theorem xtime_eq (a : UInt8) : xtime a = (a <<< 1) ^^^ (topBit a * 0x1b) := rfl

theorem topBit_xor (a b : UInt8) : topBit (a ^^^ b) = topBit a ^^^ topBit b := by
  unfold topBit
  rw [UInt8.shiftRight_xor]
  apply UInt8.toBitVec_inj.1
  apply BitVec.eq_of_getLsbD_eq
  intro i _
  simp [Bool.and_xor_distrib_right]

theorem topBit_cases (a : UInt8) : topBit a = 0 ∨ topBit a = 1 := by
  have hall : ∀ n < 256, topBit (UInt8.ofNat n) = 0 ∨ topBit (UInt8.ofNat n) = 1 := by
    decide +kernel
  have ha := hall a.toNat a.toNat_lt
  rwa [UInt8.ofNat_toNat] at ha

/-- `xtime` is linear. -/
theorem xtime_xor (a b : UInt8) : xtime (a ^^^ b) = xtime a ^^^ xtime b := by
  have hmul : topBit (a ^^^ b) * 0x1b = (topBit a * 0x1b) ^^^ (topBit b * 0x1b) := by
    rw [topBit_xor]
    rcases topBit_cases a with ha | ha <;> rcases topBit_cases b with hb | hb <;>
      rw [ha, hb] <;> rfl
  rw [xtime_eq, xtime_eq, xtime_eq, UInt8.shiftLeft_xor, hmul]
  ac_rfl

/-- The coefficients of the inverse matrix, as sums of powers of `xtime`. -/
theorem multiply_bits (x y : UInt8) (b0 b1 b2 b3 b4 : UInt8)
    (h0 : (y >>> 0) &&& (1 : UInt8) = b0) (h1 : (y >>> 1) &&& (1 : UInt8) = b1)
    (h2 : (y >>> 2) &&& (1 : UInt8) = b2) (h3 : (y >>> 3) &&& (1 : UInt8) = b3)
    (h4 : (y >>> 4) &&& (1 : UInt8) = b4) :
    multiply x y = (b0 * x) ^^^ (b1 * xtime x) ^^^ (b2 * xtime (xtime x)) ^^^
      (b3 * xtime (xtime (xtime x))) ^^^ (b4 * xtime (xtime (xtime (xtime x)))) := by
  subst h0 h1 h2 h3 h4
  rfl

theorem multiply_0e (x : UInt8) :
    multiply x 0x0e = xtime x ^^^ xtime (xtime x) ^^^ xtime (xtime (xtime x)) := by
  rw [multiply_bits x 0x0e 0 1 1 1 0 rfl rfl rfl rfl rfl]
  simp

theorem multiply_0b (x : UInt8) :
    multiply x 0x0b = x ^^^ xtime x ^^^ xtime (xtime (xtime x)) := by
  rw [multiply_bits x 0x0b 1 1 0 1 0 rfl rfl rfl rfl rfl]
  simp

theorem multiply_0d (x : UInt8) :
    multiply x 0x0d = x ^^^ xtime (xtime x) ^^^ xtime (xtime (xtime x)) := by
  rw [multiply_bits x 0x0d 1 0 1 1 0 rfl rfl rfl rfl rfl]
  simp

theorem multiply_09 (x : UInt8) : multiply x 0x09 = x ^^^ xtime (xtime (xtime x)) := by
  rw [multiply_bits x 0x09 1 0 0 1 0 rfl rfl rfl rfl rfl]
  simp

theorem xor_left_comm (a b c : UInt8) : a ^^^ (b ^^^ c) = b ^^^ (a ^^^ c) := by
  rw [← UInt8.xor_assoc, UInt8.xor_comm a b, UInt8.xor_assoc]

theorem xor_self_left (a b : UInt8) : a ^^^ (a ^^^ b) = b := by
  rw [← UInt8.xor_assoc, UInt8.xor_self, UInt8.zero_xor]

theorem invRow_eq (p q r s : UInt8) :
    multiply p 0x0e ^^^ multiply q 0x0b ^^^ multiply r 0x0d ^^^ multiply s 0x09 =
      xtime (xtime (xtime (p ^^^ q ^^^ r ^^^ s))) ^^^ xtime (xtime (p ^^^ r)) ^^^
        xtime (p ^^^ q) ^^^ (q ^^^ r ^^^ s) := by
  rw [multiply_0e, multiply_0b, multiply_0d, multiply_09]
  simp only [xtime_xor]
  ac_rfl

/-- A byte of a mixed column: the byte, its successor and the sum of the column. -/
def mixed (a b sum : UInt8) : UInt8 := a ^^^ xtime (a ^^^ b) ^^^ sum

/-- One row of the inverse matrix, applied to a mixed column. -/
theorem invRow_mixed (a b c d sum : UInt8) (hsum : sum = a ^^^ b ^^^ c ^^^ d) :
    multiply (mixed a b sum) 0x0e ^^^ multiply (mixed b c sum) 0x0b ^^^
      multiply (mixed c d sum) 0x0d ^^^ multiply (mixed d a sum) 0x09 = a := by
  have hpair : mixed a b sum ^^^ mixed b c sum = (a ^^^ b) ^^^ xtime (a ^^^ c) := by
    unfold mixed
    simp only [xtime_xor, UInt8.xor_assoc, UInt8.xor_comm, xor_left_comm, xor_self_left]
  have hopposite : mixed a b sum ^^^ mixed c d sum = (a ^^^ c) ^^^ xtime sum := by
    rw [hsum]
    unfold mixed
    simp only [xtime_xor, UInt8.xor_assoc, UInt8.xor_comm, xor_left_comm, xor_self_left]
  have hrest : mixed b c sum ^^^ mixed c d sum ^^^ mixed d a sum = a ^^^ xtime (a ^^^ b) := by
    rw [hsum]
    unfold mixed
    simp only [xtime_xor, UInt8.xor_assoc, UInt8.xor_comm, xor_left_comm, xor_self_left,
      UInt8.xor_self, UInt8.zero_xor]
  have htotal : mixed a b sum ^^^ mixed b c sum ^^^ mixed c d sum ^^^ mixed d a sum = sum := by
    rw [UInt8.xor_assoc (mixed a b sum), UInt8.xor_assoc (mixed a b sum), hrest]
    unfold mixed
    simp only [UInt8.xor_comm, xor_left_comm, xor_self_left, UInt8.xor_self, UInt8.xor_zero]
  rw [invRow_eq, htotal, hopposite, hpair, hrest]
  simp only [xtime_xor, UInt8.xor_assoc, UInt8.xor_comm, xor_left_comm, UInt8.xor_self,
    UInt8.xor_zero]

/-- The four rows of a column differ by a rotation only. -/
theorem columnSum_rotate (col : ℕ → UInt8) (hcol : ∀ j, col (j + 4) = col j) (i : ℕ) :
    col 0 ^^^ col 1 ^^^ col 2 ^^^ col 3 =
      col (i % 4) ^^^ col (i % 4 + 1) ^^^ col (i % 4 + 2) ^^^ col (i % 4 + 3) := by
  have h4 := hcol 0
  have h5 := hcol 1
  have h6 := hcol 2
  have hi : i % 4 < 4 := Nat.mod_lt _ (by decide)
  interval_cases i % 4
  · rfl
  · rw [h4]
    ac_rfl
  · rw [h4, h5]
    ac_rfl
  · rw [h4, h5, h6]
    ac_rfl

/-- Byte `j` of a column, around the end. -/
def column (s : Block) (k j : ℕ) : UInt8 := s.byte (4 * k + j % 4)

theorem mixColumns_column (s : Block) {k : ℕ} (hk : k < 4) (j : ℕ) :
    column (mixColumns s) k j = mixed (column s k j) (column s k (j + 1))
      (column s k 0 ^^^ column s k 1 ^^^ column s k 2 ^^^ column s k 3) := by
  have hlt : 4 * k + j % 4 < 16 := by omega
  have hcolumn : (4 * k + j % 4) / 4 = k := by omega
  have hrow : (4 * k + j % 4) % 4 = j % 4 := by omega
  change (Block.ofFn _).byte _ = _
  rw [byte_ofFn _ hlt, hcolumn, hrow]
  have hself : column s k (j % 4) = column s k j := by
    unfold column
    rw [Nat.mod_mod]
  have hnext : column s k (j % 4 + 1) = column s k (j + 1) := by
    unfold column
    rw [Nat.mod_add_mod]
  change mixed (column s k (j % 4)) (column s k (j % 4 + 1)) _ = _
  rw [hself, hnext]
  rfl

theorem invMixColumns_mixColumns (s : Block) : invMixColumns (mixColumns s) = s := by
  apply block_ext
  intro i hi
  have hk : i / 4 < 4 := by omega
  change (Block.ofFn _).byte _ = _
  rw [byte_ofFn _ hi]
  change multiply (column (mixColumns s) (i / 4) (i % 4)) 0x0e ^^^
    multiply (column (mixColumns s) (i / 4) (i % 4 + 1)) 0x0b ^^^
    multiply (column (mixColumns s) (i / 4) (i % 4 + 2)) 0x0d ^^^
    multiply (column (mixColumns s) (i / 4) (i % 4 + 3)) 0x09 = s.byte i
  have haround : ∀ j, column s (i / 4) (j + 4) = column s (i / 4) j := by
    intro j
    unfold column
    rw [Nat.add_mod_right]
  have hbyte : column s (i / 4) (i % 4) = s.byte i := by
    unfold column
    congr 1
    omega
  rw [mixColumns_column s hk, mixColumns_column s hk, mixColumns_column s hk,
    mixColumns_column s hk, haround, ← hbyte]
  exact invRow_mixed _ _ _ _ _ (columnSum_rotate _ haround i)

/-! ## The rounds -/

theorem foldr_foldl_inverse {α β : Type*} {f g : α → β → β} {h : β → β}
    (hinv : ∀ a b, g a (h (f a b)) = h b) (l : List α) (b : β) :
    l.foldr g (h (l.foldl (fun s a => f a s) b)) = h b := by
  induction l generalizing b with
  | nil => rfl
  | cons a l ih => rw [List.foldl_cons, List.foldr_cons, ih, hinv]

theorem invSub_invShift (s : Block) : invSubBytes (invShiftRows (shiftRows (subBytes s))) = s := by
  rw [invShiftRows_shiftRows, invSubBytes_subBytes]

theorem invCipher_cipher (roundKey : List UInt8) (s : Block) :
    invCipher roundKey (cipher roundKey s) = s := by
  have hrounds := foldr_foldl_inverse
    (f := fun round s => addRoundKey round (mixColumns (shiftRows (subBytes s))) roundKey)
    (g := fun round s =>
      invMixColumns (addRoundKey round (invSubBytes (invShiftRows s)) roundKey))
    (h := fun s => shiftRows (subBytes s))
    (by
      intro round s
      rw [invSub_invShift, addRoundKey_self, invMixColumns_mixColumns])
    (List.range' 1 (nr - 1)) (addRoundKey 0 s roundKey)
  unfold invCipher cipher
  rw [addRoundKey_self, hrounds]
  dsimp only
  rw [invSub_invShift, addRoundKey_self]

theorem xorWithIv_self (s iv : Block) : xorWithIv (xorWithIv s iv) iv = s := by
  apply block_ext
  intro i hi
  unfold xorWithIv
  rw [byte_ofFn _ hi, byte_ofFn _ hi, xor_xor_cancel]

theorem cbcDecrypt_cbcEncrypt (roundKey : List UInt8) (n : ℕ) (iv : Block) {data : List UInt8}
    (hlen : data.length = 16 * n) :
    cbcDecrypt roundKey n iv (cbcEncrypt roundKey n iv data) = data := by
  induction n generalizing iv data with
  | zero => exact (List.eq_nil_of_length_eq_zero hlen).symm
  | succ n ih =>
      have hhead : (data.take 16).length = 16 := by
        rw [List.length_take]
        omega
      have htail : (data.drop 16).length = 16 * n := by
        rw [List.length_drop]
        omega
      rw [cbcEncrypt, cbcDecrypt]
      generalize hblock : cipher roundKey (xorWithIv (Bytes.fill 0 16 (data.take 16)) iv) = block
      have hval : block.val.length = 16 := Bytes.length_val block
      have hfill : Bytes.fill 0 16 block.val = block := Subtype.ext (Bytes.fill_val hval)
      rw [List.take_left' hval, List.drop_left' hval, hfill, ih _ htail, ← hblock,
        invCipher_cipher, xorWithIv_self, Bytes.fill_val hhead, List.take_append_drop]

end Aes

theorem aesDecrypt_aesEncrypt (key : Bytes 32) (iv : Aes.Block) (n : ℕ) {data : List UInt8}
    (hlen : data.length = 16 * n) :
    (aesDecrypt key iv n (aesEncrypt key iv n data).val).val = data :=
  Aes.cbcDecrypt_cbcEncrypt _ n iv hlen

end UnsoloKey
