import UnsoloKey.CipherInverse
import UnsoloKey.Fips197
import Mathlib.Data.Set.Finite.List
import Mathlib.Tactic

/-!
# The block cipher is that of the standard

The bits of a byte are the coefficients of an element of the field.  Under this
correspondence the table of aes.c is the S-box of the standard, `xtime` is the product
with `x`, and each layer of a round and each word of the key schedule is what the standard
has.  The encryption of pin.c is therefore the standard's in CBC mode, and its decryption
the inverse of that.
-/

namespace UnsoloKey

namespace Aes

open Fips197

/-! ## Bytes and elements -/

def bit (b : UInt8) (i : Fin 8) : ZMod 2 := if b.toNat.testBit i then 1 else 0

noncomputable def element (b : UInt8) : Element := ofCoeffs (bit b)

theorem element_injective : Function.Injective element := by
  intro a b h
  have hbits := ofCoeffs_injective h
  apply UInt8.toNat_inj.1
  apply Nat.eq_of_testBit_eq
  intro i
  by_cases hi : i < 8
  · have hbit : bit a ⟨i, hi⟩ = bit b ⟨i, hi⟩ := congrFun hbits ⟨i, hi⟩
    unfold bit at hbit
    split_ifs at hbit with hleft hright hright
    · rw [hleft, hright]
    · exact absurd hbit one_ne_zero
    · exact absurd hbit.symm one_ne_zero
    · rw [Bool.not_eq_true] at hleft hright
      rw [hleft, hright]
  · have hpow : 2 ^ 8 ≤ 2 ^ i := Nat.pow_le_pow_right (by decide) (by omega)
    rw [Nat.testBit_lt_two_pow (a.toNat_lt.trans_le hpow),
      Nat.testBit_lt_two_pow (b.toNat_lt.trans_le hpow)]

theorem bit_xor (a b : UInt8) : bit (a ^^^ b) = bit a + bit b := by
  funext i
  simp only [bit, UInt8.toNat_xor, Nat.testBit_xor, Pi.add_apply]
  cases a.toNat.testBit i <;> cases b.toNat.testBit i <;> decide

@[simp] theorem element_xor (a b : UInt8) : element (a ^^^ b) = element a + element b := by
  rw [element, bit_xor, map_add]
  rfl

theorem bit_zero : bit 0 = 0 := by
  funext i
  simp [bit]

@[simp] theorem element_zero : element 0 = 0 := by
  rw [element, bit_zero, map_zero]

theorem element_eq (b : UInt8) : element b = ∑ i, if b.toNat.testBit (i : Fin 8) then
    x ^ (i : ℕ) else 0 := by
  rw [element, ofCoeffs_eq_sum]
  refine Finset.sum_congr rfl fun i _ => ?_
  unfold bit
  split_ifs
  · rw [map_one, one_mul]
  · rw [map_zero, zero_mul]

theorem element_one : element 1 = 1 := by
  have hbits : ∀ i : Fin 8, (1 : UInt8).toNat.testBit i = decide (i = 0) := by decide
  rw [element_eq]
  simp only [hbits]
  simp

def rotateLeft (b k : UInt8) : UInt8 := (b <<< k) ||| (b >>> (8 - k))

theorem testBit_rotateLeft (b : UInt8) {k i : ℕ} (hpos : 0 < k) (hk : k < 8) (hi : i < 8) :
    (rotateLeft b (UInt8.ofNat k)).toNat.testBit i = b.toNat.testBit ((i + (8 - k)) % 8) := by
  have hleft : (UInt8.ofNat k).toNat = k := UInt8.toNat_ofNat_of_lt' (by omega : k < 256)
  have hright : (8 - UInt8.ofNat k).toNat = 8 - k := by
    rw [UInt8.toNat_sub_of_le, hleft]
    · rfl
    · rw [UInt8.le_iff_toNat_le, hleft]
      exact hk.le
  have hhigh : ∀ j, 8 ≤ j → b.toNat.testBit j = false := by
    intro j hj
    exact Nat.testBit_lt_two_pow (b.toNat_lt.trans_le (Nat.pow_le_pow_right (by decide) hj))
  rw [rotateLeft, UInt8.toNat_or, UInt8.toNat_shiftLeft, UInt8.toNat_shiftRight, hleft, hright,
    Nat.mod_eq_of_lt hk, Nat.mod_eq_of_lt (by omega : 8 - k < 8), Nat.testBit_or,
    Nat.testBit_mod_two_pow, Nat.testBit_shiftLeft, Nat.testBit_shiftRight]
  rcases Nat.lt_or_ge i k with h | h
  · have hplace : (i + (8 - k)) % 8 = 8 - k + i := by omega
    simp [hplace, hi, Nat.not_le.2 h]
  · have hplace : (i + (8 - k)) % 8 = i - k := by omega
    rw [hplace, hhigh (8 - k + i) (by omega)]
    simp [hi, h]

theorem bit_rotateLeft (b : UInt8) {k : ℕ} (hpos : 0 < k) (hk : k < 8) (i : Fin 8) :
    bit (rotateLeft b (UInt8.ofNat k)) i = bit b (i + ⟨8 - k, by omega⟩) := by
  unfold bit
  rw [testBit_rotateLeft b hpos hk i.isLt]
  rfl

/-- The affine transformation of a byte. -/
def affineByte (b : UInt8) : UInt8 :=
  b ^^^ rotateLeft b 4 ^^^ rotateLeft b 3 ^^^ rotateLeft b 2 ^^^ rotateLeft b 1 ^^^ 0x63

def affineInverse (b : UInt8) : UInt8 :=
  rotateLeft b 1 ^^^ rotateLeft b 3 ^^^ rotateLeft b 6 ^^^ 0x05

/-- Two identities of rotations, at every byte. -/
theorem rotate_checks : ∀ n < 256,
    xtime (UInt8.ofNat n) = (rotateLeft (UInt8.ofNat n) 1 ^^^ if n.testBit 7 then 0x1a else 0) ∧
      affineByte (affineInverse (UInt8.ofNat n)) = UInt8.ofNat n := by
  decide +kernel

theorem xtime_rotateLeft (b : UInt8) :
    xtime b = rotateLeft b 1 ^^^ if b.toNat.testBit 7 then 0x1a else 0 := by
  have hb := (rotate_checks b.toNat b.toNat_lt).1
  rwa [UInt8.ofNat_toNat] at hb

/-- The bits of the product with `x`. -/
theorem bit_xtime (b : UInt8) (i : Fin 8) :
    bit (xtime b) i = bit b (i + 7) + if i ∈ [1, 3, 4] then bit b 7 else 0 := by
  have hconst : ∀ i, bit 0x1a i = if i ∈ [1, 3, 4] then 1 else 0 := by decide
  have hrotate : bit (rotateLeft b 1) i = bit b (i + 7) :=
    bit_rotateLeft b (by decide : 0 < 1) (by decide) i
  rw [xtime_rotateLeft, bit_xor, Pi.add_apply, hrotate]
  refine congrArg _ ?_
  by_cases hhigh : b.toNat.testBit 7 = true
  · have hseven : bit b 7 = 1 := if_pos hhigh
    rw [if_pos hhigh, hconst, hseven]
  · have hseven : bit b 7 = 0 := if_neg hhigh
    rw [if_neg hhigh, bit_zero, hseven, ite_self, Pi.zero_apply]

theorem element_xtime (b : UInt8) : element (xtime b) = x * element b := by
  rw [element, element, ofCoeffs_eq_sum, ofCoeffs_eq_sum, Fin.sum_univ_eight, Fin.sum_univ_eight]
  simp only [bit_xtime, map_add]
  simp
  linear_combination (-AdjoinRoot.of modulus (bit b 7)) * x_pow_eight

theorem element_xtime_iterate (b : UInt8) (i : ℕ) :
    element (xtime^[i] b) = x ^ i * element b := by
  induction i with
  | zero => rw [Function.iterate_zero_apply, pow_zero, one_mul]
  | succ i ih => rw [Function.iterate_succ_apply', element_xtime, ih, pow_succ', mul_assoc]

/-- The product of two bytes, one bit of the second after the other. -/
def product (a b : UInt8) : UInt8 :=
  ((List.finRange 8).map fun i : Fin 8 =>
    if b.toNat.testBit i then xtime^[i] a else 0).foldr (· ^^^ ·) 0

theorem element_foldr (bs : List UInt8) :
    element (bs.foldr (· ^^^ ·) 0) = (bs.map element).sum := by
  induction bs with
  | nil => exact element_zero
  | cons b bs ih => rw [List.foldr_cons, element_xor, ih, List.map_cons, List.sum_cons]

theorem element_product (a b : UInt8) : element (product a b) = element a * element b := by
  rw [product, element_foldr, List.map_map, ← Fin.sum_univ_def, element_eq b, Finset.mul_sum]
  refine Finset.sum_congr rfl fun i _ => ?_
  rw [Function.comp_apply]
  split_ifs
  · rw [element_xtime_iterate, mul_comm]
  · rw [element_zero, mul_zero]

/-! ## The S-box -/

theorem bit_affineByte (b : UInt8) : bit (affineByte b) = affine (bit b) := by
  have hconst : ∀ i, bit 0x63 i = ![1, 1, 0, 0, 0, 1, 1, 0] i := by decide
  funext i
  simp only [affineByte, bit_xor, Pi.add_apply, affine, hconst]
  rw [show (4 : UInt8) = UInt8.ofNat 4 from rfl, bit_rotateLeft b (by decide) (by decide),
    show (3 : UInt8) = UInt8.ofNat 3 from rfl, bit_rotateLeft b (by decide) (by decide),
    show (2 : UInt8) = UInt8.ofNat 2 from rfl, bit_rotateLeft b (by decide) (by decide),
    show (1 : UInt8) = UInt8.ofNat 1 from rfl, bit_rotateLeft b (by decide) (by decide)]
  rfl

theorem affineByte_affineInverse (b : UInt8) : affineByte (affineInverse b) = b := by
  have hb := (rotate_checks b.toNat b.toNat_lt).2
  rwa [UInt8.ofNat_toNat] at hb

/-- The table is that of the inverses, transformed. -/
theorem sbox_entries : sbox.length = 256 ∧ ∀ p ∈ sbox.zipIdx,
    p.2 ≠ 0 → product (UInt8.ofNat p.2) (affineInverse p.1) = 1 := by
  decide +kernel

theorem product_subByte {b : UInt8} (h : b ≠ 0) : product b (affineInverse (subByte b)) = 1 := by
  have hlength : b.toNat < sbox.length := by
    rw [sbox_entries.1]
    exact b.toNat_lt
  have hentry := sbox_entries.2 (sbox[b.toNat], b.toNat)
    (List.mk_mem_zipIdx_iff_getElem?.2 (List.getElem?_eq_getElem hlength))
    fun hzero => h (UInt8.toNat_inj.1 hzero)
  rwa [UInt8.ofNat_toNat, ← List.getD_eq_getElem sbox 0 hlength] at hentry

theorem element_affineInverse (b : UInt8) :
    element (affineInverse (subByte b)) = Ring.inverse (element b) := by
  by_cases hzero : b = 0
  · rw [hzero, element_zero, Ring.inverse_zero]
    exact element_zero
  · have hone : element b * element (affineInverse (subByte b)) = 1 := by
      rw [← element_product, product_subByte hzero, element_one]
    have hunit : IsUnit (element b) := IsUnit.of_mul_eq_one _ hone
    have hinverse := (Ring.inverse_mul_eq_iff_eq_mul _ 1 _ hunit).2 hone.symm
    rw [← hinverse, mul_one]

theorem element_subByte (b : UInt8) : element (subByte b) = Fips197.sbox (element b) := by
  rw [Fips197.sbox, ← element_affineInverse, element, element, coeffs_ofCoeffs,
    ← bit_affineByte, affineByte_affineInverse]

/-! ## The layers of a round -/

/-- Byte `4 * c + r` of a block is the entry in row `r` and column `c`. -/
noncomputable def state (s : Block) : State := fun r c => element (s.byte (4 * c + r))

theorem state_injective : Function.Injective state := by
  intro s t h
  apply block_ext
  intro i hi
  have hentry := congrFun (congrFun h ⟨i % 4, by omega⟩) ⟨i / 4, by omega⟩
  have hplace : 4 * (i / 4) + i % 4 = i := by omega
  have hbyte := element_injective hentry
  rwa [hplace] at hbyte

section

variable (s : Block) (roundKey : List UInt8)

theorem state_ofFn (f : ℕ → UInt8) (r c : Fin 4) :
    state (Block.ofFn f) r c = element (f (4 * c + r)) := by
  rw [state, byte_ofFn _ (by omega)]

theorem state_subBytes : state (subBytes s) = Fips197.subBytes (state s) := by
  funext r c
  rw [subBytes, state_ofFn]
  exact element_subByte _

theorem state_shiftRows : state (shiftRows s) = Fips197.shiftRows (state s) := by
  funext r c
  have hcolumn : (c + r : Fin 4).val = ((4 * c.val + r) / 4 + (4 * c.val + r) % 4) % 4 := by
    rw [Fin.val_add]
    omega
  have hrow : (4 * c.val + r) % 4 = r := by omega
  rw [shiftRows, state_ofFn, Fips197.shiftRows, state, hcolumn, hrow]

theorem state_mixColumns : state (mixColumns s) = Fips197.mixColumns (state s) := by
  funext r c
  have hcolumn : (4 * c.val + r) / 4 = c := by omega
  have hrow : (4 * c.val + r) % 4 = r := by omega
  rw [mixColumns, state_ofFn]
  simp only [hcolumn, hrow, element_xor, element_xtime, Fips197.mixColumns, Matrix.mul_apply,
    Fin.sum_univ_four, state]
  fin_cases r
  · simp [mixMatrix]
    linear_combination element (s.byte (4 * c)) * two_eq_zero
  · simp [mixMatrix]
    linear_combination element (s.byte (4 * c + 1)) * two_eq_zero
  · simp [mixMatrix]
    linear_combination element (s.byte (4 * c + 2)) * two_eq_zero
  · simp [mixMatrix]
    linear_combination element (s.byte (4 * c + 3)) * two_eq_zero

/-- The words of the schedule. -/
noncomputable def words (i : ℕ) : Word := fun r => element (roundKey.getD (4 * i + r) 0)

theorem state_addRoundKey (round : ℕ) : state (addRoundKey round s roundKey) =
    state s + Fips197.roundKey (words roundKey) round := by
  funext r c
  have hplace : 16 * round + (4 * c.val + r) = 4 * (4 * round + c) + r := by omega
  rw [addRoundKey, state_ofFn, element_xor, hplace]
  rfl

theorem state_xorWithIv (iv : Block) : state (xorWithIv s iv) = state s + state iv := by
  funext r c
  rw [xorWithIv, state_ofFn, element_xor]
  rfl

theorem state_rounds (round : ℕ) : state ((List.range' 1 round).foldl (fun s round =>
      addRoundKey round (mixColumns (shiftRows (subBytes s))) roundKey)
      (addRoundKey 0 s roundKey)) = rounds (words roundKey) (state s) round := by
  induction round with
  | zero => exact state_addRoundKey s roundKey 0
  | succ round ih =>
      rw [List.range'_1_concat, List.foldl_append, List.foldl_cons, List.foldl_nil,
        state_addRoundKey, state_mixColumns, state_shiftRows, state_subBytes, ih, Nat.add_comm 1]
      rfl

theorem state_cipher :
    state (cipher roundKey s) = Fips197.cipher nr (words roundKey) (state s) := by
  unfold cipher
  dsimp only
  rw [state_addRoundKey, state_shiftRows, state_subBytes, state_rounds]
  rfl

end

/-! ## The key schedule -/

theorem element_rcon : ∀ i < 7, element (rcon.getD (i + 1) 0) = x ^ i := by
  intro i hi
  have hrcon : ∀ i < 7, rcon.getD (i + 1) 0 = xtime^[i] 1 := by decide
  rw [hrcon i hi, element_xtime_iterate, element_one, mul_one]

section

variable {w : List UInt8} {i k : ℕ}

theorem words_eq (roundKey : List UInt8) (i : ℕ) :
    words roundKey i = fun r => element (((roundKey.drop (4 * i)).take 4).getD r.val 0) := by
  funext r
  simp [words, List.getD, r.isLt]

theorem length_scheduleWord (i : ℕ) (hw : w.length = 4) : (scheduleWord i w).length = 4 := by
  match w, hw with
  | [b₀, b₁, b₂, b₃], _ =>
    unfold scheduleWord
    split_ifs <;> rfl

theorem element_scheduleWord (hw : w.length = 4) (hpos : 0 < i / 8) (hlt : i / 8 ≤ 7) :
    (fun r : Fin 4 => element ((scheduleWord i w).getD r 0)) =
      nextWord 8 i fun r => element (w.getD r 0) := by
  match w, hw with
  | [b₀, b₁, b₂, b₃], _ =>
    have hrcon : element (rcon.getD (i / 8) 0) = x ^ (i / 8 - 1) := by
      have h := element_rcon (i / 8 - 1) (by omega)
      rwa [Nat.sub_add_cancel hpos] at h
    unfold scheduleWord nextWord nk
    funext r
    by_cases hfirst : i % 8 = 0
    · rw [if_pos hfirst, if_pos hfirst]
      fin_cases r
      · simp [subWord, rotWord, Fips197.rcon, element_subByte, ← hrcon]
      · simp [subWord, rotWord, Fips197.rcon, element_subByte]
      · simp [subWord, rotWord, Fips197.rcon, element_subByte]
      · simp [subWord, rotWord, Fips197.rcon, element_subByte]
    · rw [if_neg hfirst, if_neg hfirst]
      by_cases hfourth : i % 8 = 4
      · rw [if_pos hfourth, if_pos ⟨by decide, hfourth⟩]
        fin_cases r <;> exact element_subByte _
      · rw [if_neg hfourth, if_neg fun h => hfourth h.2]

end

/-- The schedule after `k` words more than those of the key. -/
def schedulePrefix (key : Bytes 32) (k : ℕ) : List UInt8 :=
  (List.range' nk k).foldl (fun roundKey i =>
    let last := (roundKey.drop (4 * (i - 1))).take 4
    let old := (roundKey.drop (4 * (i - nk))).take 4
    roundKey ++ List.zipWith (· ^^^ ·) old (scheduleWord i last)) key.val

theorem schedulePrefix_succ (key : Bytes 32) (k : ℕ) : schedulePrefix key (k + 1) =
    schedulePrefix key k ++ List.zipWith (· ^^^ ·)
      (((schedulePrefix key k).drop (4 * k)).take 4)
      (scheduleWord (8 + k) (((schedulePrefix key k).drop (4 * (7 + k))).take 4)) := by
  have hlast : 8 + k - 1 = 7 + k := by omega
  rw [schedulePrefix, List.range'_1_concat, List.foldl_append, List.foldl_cons, List.foldl_nil]
  dsimp only [nk]
  rw [hlast, Nat.add_sub_cancel_left]
  rfl

theorem words_append_left {roundKey : List UInt8} {i : ℕ} (rest : List UInt8)
    (hi : 4 * (i + 1) ≤ roundKey.length) : words (roundKey ++ rest) i = words roundKey i := by
  funext r
  rw [words, words, List.getD_append _ _ _ _ (by omega)]

theorem words_append_right {roundKey : List UInt8} {i : ℕ} (rest : List UInt8)
    (hi : roundKey.length = 4 * i) :
    words (roundKey ++ rest) i = fun r : Fin 4 => element (rest.getD r 0) := by
  funext r
  rw [words, List.getD_append_right _ _ _ _ (by omega), hi, Nat.add_sub_cancel_left]

theorem getD_zipWith_xor {left right : List UInt8} (h : left.length = right.length) (i : ℕ) :
    (List.zipWith (· ^^^ ·) left right).getD i 0 = left.getD i 0 ^^^ right.getD i 0 := by
  simp only [List.getD, List.getElem?_zipWith]
  by_cases hi : i < left.length
  · rw [List.getElem?_eq_getElem hi, List.getElem?_eq_getElem (h ▸ hi)]
    rfl
  · rw [List.getElem?_eq_none (by omega), List.getElem?_eq_none (by omega)]
    rfl

/-- The schedule of the standard, word by word. -/
theorem schedulePrefix_words (key : Bytes 32) {k : ℕ} (hk : k ≤ 52) :
    (schedulePrefix key k).length = 4 * (8 + k) ∧
      ∀ i < 8 + k, words (schedulePrefix key k) i = keyWord 8 (words key.val) i := by
  induction k with
  | zero => exact ⟨key.length_val, fun i hi => (keyWord_lt hi).symm⟩
  | succ k ih =>
      obtain ⟨hlength, hwords⟩ := ih (by omega)
      have hold : (((schedulePrefix key k).drop (4 * k)).take 4).length = 4 := by
        rw [List.length_take, List.length_drop]
        omega
      have hlast : (((schedulePrefix key k).drop (4 * (7 + k))).take 4).length = 4 := by
        rw [List.length_take, List.length_drop]
        omega
      have hnew := length_scheduleWord (8 + k) hlast
      rw [schedulePrefix_succ]
      refine ⟨?_, fun i hi => ?_⟩
      · rw [List.length_append, List.length_zipWith, hold, hnew, hlength]
        omega
      · by_cases hbefore : i < 8 + k
        · rw [words_append_left _ (by omega), hwords i hbefore]
        · obtain rfl : i = 8 + k := by omega
          have hschedule := element_scheduleWord (i := 8 + k) hlast (by omega) (by omega)
          rw [← words_eq, hwords (7 + k) (by omega)] at hschedule
          have hprevious : 8 + k - 1 = 7 + k := by omega
          rw [keyWord_ge (by decide) (by omega), Nat.add_sub_cancel_left, hprevious, ← hschedule,
            ← hwords k (by omega), words_append_right _ hlength, words_eq]
          funext r
          rw [Pi.add_apply, ← element_xor]
          rw [getD_zipWith_xor (hold.trans hnew.symm)]

theorem words_keyExpansion (key : Bytes 32) :
    ∀ i < 4 * (nr + 1), words (keyExpansion key) i = keyWord 8 (words key.val) i :=
  (schedulePrefix_words key (k := 52) le_rfl).2

/-- The cipher of a key, as the standard has it. -/
noncomputable def standardCipher (key : Bytes 32) : State → State :=
  Fips197.cipher 14 (keyWord 8 (words key.val))

theorem state_cipher_keyExpansion (key : Bytes 32) (s : Block) :
    state (cipher (keyExpansion key) s) = standardCipher key (state s) := by
  rw [state_cipher, cipher_congr (words_keyExpansion key)]
  rfl

/-! ## CBC -/

def blocks : ℕ → List UInt8 → List Block
  | 0, _ => []
  | n + 1, data => Bytes.fill 0 16 (data.take 16) :: blocks n (data.drop 16)

theorem blocks_injective {n : ℕ} {left right : List UInt8} (hleft : left.length = 16 * n)
    (hright : right.length = 16 * n) (h : blocks n left = blocks n right) : left = right := by
  induction n generalizing left right with
  | zero => rw [List.eq_nil_of_length_eq_zero hleft, List.eq_nil_of_length_eq_zero hright]
  | succ n ih =>
      rw [blocks, blocks, List.cons.injEq] at h
      have htake : ∀ {data : List UInt8}, data.length = 16 * (n + 1) →
          (data.take 16).length = 16 := fun hlength => by
        rw [List.length_take]
        omega
      have hdrop : ∀ {data : List UInt8}, data.length = 16 * (n + 1) →
          (data.drop 16).length = 16 * n := fun hlength => by
        rw [List.length_drop]
        omega
      have hfirst := congrArg Subtype.val h.1
      rw [Bytes.fill_val (htake hleft), Bytes.fill_val (htake hright)] at hfirst
      rw [← List.take_append_drop 16 left, ← List.take_append_drop 16 right, hfirst,
        ih (hdrop hleft) (hdrop hright) h.2]

section

variable {roundKey : List UInt8} {encrypt : State → State}

theorem state_cbcEncrypt (h : ∀ s, state (cipher roundKey s) = encrypt (state s)) (n : ℕ)
    (iv : Block) (data : List UInt8) : (blocks n (cbcEncrypt roundKey n iv data)).map state =
      Fips197.cbcEncrypt encrypt (state iv) ((blocks n data).map state) := by
  induction n generalizing iv data with
  | zero => rfl
  | succ n ih =>
      rw [cbcEncrypt, blocks, blocks, List.map_cons, List.map_cons, Fips197.cbcEncrypt]
      generalize hblock : cipher roundKey (xorWithIv (Bytes.fill 0 16 (data.take 16)) iv) = block
      have hval : block.val.length = 16 := Bytes.length_val block
      have hfill : Bytes.fill 0 16 block.val = block := Subtype.ext (Bytes.fill_val hval)
      rw [List.take_left' hval, List.drop_left' hval, hfill, ih, ← state_xorWithIv, ← h, hblock]

/-- The cipher permutes the blocks, so that its left inverse is an inverse. -/
theorem cipher_invCipher (roundKey : List UInt8) (s : Block) :
    cipher roundKey (invCipher roundKey s) = s := by
  have hbytes : Finite UInt8 := Finite.of_injective UInt8.toFin fun _ _ => UInt8.toFin_inj.1
  have hfinite : Finite Block := List.finite_length_eq UInt8 16
  have hsurjective := Finite.surjective_of_injective
    (Function.LeftInverse.injective (invCipher_cipher roundKey))
  obtain ⟨t, rfl⟩ := hsurjective s
  rw [invCipher_cipher]

theorem cbcEncrypt_cbcDecrypt (roundKey : List UInt8) (n : ℕ) (iv : Block) {data : List UInt8}
    (hlen : data.length = 16 * n) :
    cbcEncrypt roundKey n iv (cbcDecrypt roundKey n iv data) = data := by
  induction n generalizing iv data with
  | zero => exact (List.eq_nil_of_length_eq_zero hlen).symm
  | succ n ih =>
      have hhead : (data.take 16).length = 16 := by
        rw [List.length_take]
        omega
      have htail : (data.drop 16).length = 16 * n := by
        rw [List.length_drop]
        omega
      rw [cbcDecrypt, cbcEncrypt]
      generalize hblock : xorWithIv (invCipher roundKey (Bytes.fill 0 16 (data.take 16))) iv = block
      have hval : block.val.length = 16 := Bytes.length_val block
      have hfill : Bytes.fill 0 16 block.val = block := Subtype.ext (Bytes.fill_val hval)
      rw [List.take_left' hval, List.drop_left' hval, hfill, ← hblock, xorWithIv_self,
        cipher_invCipher, ih _ htail, Bytes.fill_val hhead, List.take_append_drop]

end

end Aes

section

open Aes

variable (key : Bytes 32) (iv : Block) {n : ℕ} (data out : Bytes (16 * n))

/-- What pin.c encrypts is what the standard encrypts. -/
theorem aesEncrypt_standard : out = aesEncrypt key iv n data.val ↔
    (blocks n out.val).map state =
      Fips197.cbcEncrypt (standardCipher key) (state iv) ((blocks n data.val).map state) := by
  rw [← state_cbcEncrypt (state_cipher_keyExpansion key) n iv data.val]
  constructor
  · rintro rfl
    rfl
  · intro h
    have hblocks := List.map_injective_iff.2 state_injective h
    exact Subtype.ext (blocks_injective out.length_val (cbcEncrypt_length _ n iv _) hblocks)

/-- What pin.c decrypts is that of which the standard makes the encrypted bytes. -/
theorem aesDecrypt_standard : out = aesDecrypt key iv n data.val ↔
    Fips197.cbcEncrypt (standardCipher key) (state iv) ((blocks n out.val).map state) =
      (blocks n data.val).map state := by
  rw [← state_cbcEncrypt (state_cipher_keyExpansion key) n iv out.val]
  constructor
  · rintro rfl
    exact congrArg (fun bs => (blocks n bs).map state)
      (cbcEncrypt_cbcDecrypt _ n iv data.length_val)
  · intro h
    have hblocks := List.map_injective_iff.2 state_injective h
    have hsame := blocks_injective (cbcEncrypt_length _ n iv _) data.length_val hblocks
    apply Subtype.ext
    rw [← cbcDecrypt_cbcEncrypt (keyExpansion key) n iv out.length_val, hsame]
    rfl

end

end UnsoloKey
