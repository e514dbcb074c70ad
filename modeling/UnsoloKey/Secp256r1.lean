import UnsoloKey.P256
import UnsoloKey.VliMod
import Mathlib.Tactic

/-!
# The field of secp256r1

`curve_secp256r1` and `vli_mmod_fast_secp256r1`, which replaces the division by the
modulus with nine sums of rearranged words.  The sums may leave the modulus a few
times above or below the result; a carry with a sign keeps the count.
-/

namespace UnsoloKey.UEcc

/-! ## The functions -/

/-- The fields of `uECC_Curve_t` which the operations read. -/
structure Curve where
  numWords : ℕ
  numBytes : ℕ
  numNBits : ℕ
  p : List UInt32
  n : List UInt32
  g : List UInt32
  b : List UInt32

/-- `curve_secp256r1` -/
def secp256r1 : Curve where
  numWords := 8
  numBytes := 32
  numNBits := 256
  p := [0xFFFFFFFF, 0xFFFFFFFF, 0xFFFFFFFF, 0, 0, 0, 1, 0xFFFFFFFF]
  n := [0xFC632551, 0xF3B9CAC2, 0xA7179E84, 0xBCE6FAAD, 0xFFFFFFFF, 0xFFFFFFFF, 0, 0xFFFFFFFF]
  g := [0xD898C296, 0xF4A13945, 0x2DEB33A0, 0x77037D81, 0x63A440F2, 0xF8BCE6E5, 0xE12C4247,
    0x6B17D1F2, 0x37BF51F5, 0xCBB64068, 0x6B315ECE, 0x2BCE3357, 0x7C0F9E16, 0x8EE7EB4A,
    0xFE1A7F9B, 0x4FE342E2]
  b := [0x27D2604B, 0x3BCE3C3E, 0xCC53B0F6, 0x651D06B0, 0x769886BC, 0xB3EBBD55, 0xAA3A93E7,
    0x5AC635D8]

/-- The words of `result` and `carry`, whose type is signed. -/
structure FastSum where
  result : List UInt32
  carry : ℤ

namespace FastSum

/-- `carry += uECC_vli_add(result, result, tmp, ..)` -/
def add (tmp : List UInt32) (s : FastSum) : FastSum :=
  let sum := vliAdd s.result tmp
  ⟨sum.1, s.carry + sum.2.toNat⟩

/-- The same with `tmp` doubled in its place before. -/
def addTwice (tmp : List UInt32) (s : FastSum) : FastSum :=
  let twice := vliAdd tmp tmp
  add twice.1 ⟨s.result, s.carry + twice.2.toNat⟩

/-- `carry -= uECC_vli_sub(result, result, tmp, ..)` -/
def sub (tmp : List UInt32) (s : FastSum) : FastSum :=
  let diff := vliSub s.result tmp
  ⟨diff.1, s.carry - diff.2.toNat⟩

def raise : ℕ → FastSum → FastSum
  | 0, s => s
  | rounds + 1, s => if s.carry < 0 then raise rounds (s.add secp256r1.p) else s

def lower : ℕ → FastSum → FastSum
  | 0, s => s
  | rounds + 1, s =>
      if s.carry ≠ 0 ∨ vliCmpUnsafe secp256r1.p s.result ≠ .gt then
        lower rounds (s.sub secp256r1.p)
      else s

end FastSum

/-- The eight sums behind the low words of the product. -/
def fastSums (product : List UInt32) : FastSum :=
  let w := fun i => product.getD i 0
  let t : FastSum := ⟨product.take 8, 0⟩
  let s1 := t.addTwice [0, 0, 0, w 11, w 12, w 13, w 14, w 15]
  let s2 := s1.addTwice [0, 0, 0, w 12, w 13, w 14, w 15, 0]
  let s3 := s2.add [w 8, w 9, w 10, 0, 0, 0, w 14, w 15]
  let s4 := s3.add [w 9, w 10, w 11, w 13, w 14, w 15, w 13, w 8]
  let d1 := s4.sub [w 11, w 12, w 13, 0, 0, 0, w 8, w 10]
  let d2 := d1.sub [w 12, w 13, w 14, w 15, 0, 0, w 9, w 11]
  let d3 := d2.sub [w 13, w 14, w 15, w 8, w 9, w 10, 0, w 12]
  d3.sub [w 14, w 15, 0, w 9, w 10, w 11, 0, w 13]

/-- `vli_mmod_fast_secp256r1`.  Eight rounds are more than the sums can need. -/
def vliMmodFast (product : List UInt32) : List UInt32 :=
  let s := fastSums product
  (if s.carry < 0 then s.raise 8 else s.lower 8).result

/-- `uECC_vli_modMult_fast` -/
def vliModMultFast (left right : List UInt32) : List UInt32 :=
  vliMmodFast (vliMult left right secp256r1.numWords)

/-- `uECC_vli_modSquare_fast` -/
def vliModSquareFast (left : List UInt32) : List UInt32 := vliModMultFast left left

/-! ## The constants -/

theorem vliNat_p : vliNat secp256r1.p = p256 := by decide

theorem vliNat_n : vliNat secp256r1.n = n256 := by decide

theorem vliNat_gx : vliNat (secp256r1.g.take 8) = P256.gx := by decide

theorem vliNat_gy : vliNat (secp256r1.g.drop 8) = P256.gy := by decide

/-! ## The fast remainder -/

namespace FastSum

/-- The number which words and carry denote. -/
def value (s : FastSum) : ℤ := vliNat s.result + 2 ^ 256 * s.carry

/-- Eight words and a carry which denote the number. -/
structure Denotes (s : FastSum) (v : ℤ) : Prop where
  length : s.result.length = 8
  value_eq : s.value = v

variable {s : FastSum} {tmp : List UInt32} {v : ℤ}

theorem Denotes.add (h : s.Denotes v) (htmp : tmp.length = 8) :
    (s.add tmp).Denotes (v + vliNat tmp) := by
  obtain ⟨hlength, hsum, -⟩ := vliAdd_spec (h.length.trans htmp.symm)
  rw [h.length] at hsum
  refine ⟨hlength.trans h.length, ?_⟩
  rw [← h.value_eq]
  simp only [value, FastSum.add]
  omega

theorem Denotes.sub (h : s.Denotes v) (htmp : tmp.length = 8) :
    (s.sub tmp).Denotes (v - vliNat tmp) := by
  obtain ⟨hlength, hdiff, -⟩ := vliSub_spec (h.length.trans htmp.symm)
  rw [h.length] at hdiff
  refine ⟨hlength.trans h.length, ?_⟩
  rw [← h.value_eq]
  simp only [value, FastSum.sub]
  omega

theorem Denotes.addTwice (h : s.Denotes v) (htmp : tmp.length = 8) :
    (s.addTwice tmp).Denotes (v + 2 * vliNat tmp) := by
  obtain ⟨hlength, hsum, -⟩ := vliAdd_spec (rfl : tmp.length = tmp.length)
  rw [htmp] at hlength hsum
  have hstart : (⟨s.result, s.carry + (vliAdd tmp tmp).2.toNat⟩ : FastSum).Denotes
      (v + 2 ^ 256 * (vliAdd tmp tmp).2.toNat) := by
    refine ⟨h.length, ?_⟩
    rw [← h.value_eq]
    simp only [value]
    ring
  have hadd := hstart.add hlength
  have hv : v + 2 ^ 256 * (vliAdd tmp tmp).2.toNat + vliNat (vliAdd tmp tmp).1 =
      v + 2 * vliNat tmp := by omega
  rw [hv] at hadd
  exact hadd

/-- The loops add and subtract the modulus until the carry is used up. -/
structure Reduced (s : FastSum) (v : ℤ) : Prop where
  length : s.result.length = 8
  nonneg : 0 ≤ s.value
  lt : s.value < p256
  congr : s.value ≡ v [ZMOD p256]

theorem Denotes.raise {rounds : ℕ} (h : s.Denotes v) (hlt : v < p256)
    (hrounds : -(p256 * rounds : ℤ) ≤ v) : (s.raise rounds).Reduced v := by
  obtain ⟨hlength, rfl⟩ := h
  induction rounds generalizing s with
  | zero =>
      rw [Nat.cast_zero, mul_zero, neg_zero] at hrounds
      exact ⟨hlength, hrounds, hlt, Int.ModEq.refl _⟩
  | succ rounds ih =>
      have hwords := vliNat_lt s.result
      rw [hlength] at hwords
      rw [FastSum.raise]
      split_ifs with hcarry
      · have hp : secp256r1.p.length = 8 := rfl
        obtain ⟨hlength', hvalue⟩ := Denotes.add ⟨hlength, rfl⟩ hp
        rw [vliNat_p] at hvalue
        have hneg : s.value < 0 := by
          rw [value]
          omega
        have hrest := ih (s := s.add secp256r1.p) hlength' (by omega) (by
          rw [hvalue]
          push_cast at hrounds
          linarith)
        refine ⟨hrest.length, hrest.nonneg, hrest.lt, hrest.congr.trans ?_⟩
        rw [hvalue]
        exact Int.add_modulus_modEq_iff.2 (Int.ModEq.refl _)
      · refine ⟨hlength, ?_, hlt, Int.ModEq.refl _⟩
        rw [value]
        omega

theorem Denotes.lower {rounds : ℕ} (h : s.Denotes v) (hpos : 0 ≤ v)
    (hrounds : v < p256 * (rounds + 1)) : (s.lower rounds).Reduced v := by
  obtain ⟨hlength, rfl⟩ := h
  induction rounds generalizing s with
  | zero =>
      rw [Nat.cast_zero, zero_add, mul_one] at hrounds
      exact ⟨hlength, hpos, hrounds, Int.ModEq.refl _⟩
  | succ rounds ih =>
      have hwords := vliNat_lt s.result
      rw [hlength] at hwords
      have hcmp : vliCmpUnsafe secp256r1.p s.result = .gt ↔ vliNat s.result < p256 := by
        rw [vliCmpUnsafe_eq (show secp256r1.p.length = s.result.length from hlength.symm),
          vliNat_p]
        exact Nat.compare_eq_gt
      rw [FastSum.lower]
      split_ifs with hagain
      · have hp : secp256r1.p.length = 8 := rfl
        obtain ⟨hlength', hvalue⟩ := Denotes.sub ⟨hlength, rfl⟩ hp
        rw [vliNat_p] at hvalue
        have hge : p256 ≤ s.value := by
          simp only [ne_eq, hcmp] at hagain
          rw [value] at hpos ⊢
          rw [p256] at hagain ⊢
          omega
        have hrest := ih (s := s.sub secp256r1.p) hlength' (by omega) (by
          rw [hvalue]
          push_cast at hrounds
          linarith)
        refine ⟨hrest.length, hrest.nonneg, hrest.lt, hrest.congr.trans ?_⟩
        rw [hvalue]
        exact Int.sub_modulus_modEq_iff.2 (Int.ModEq.refl _)
      · rw [not_or, not_not, not_not, hcmp] at hagain
        refine ⟨hlength, hpos, ?_, Int.ModEq.refl _⟩
        rw [value, hagain.1]
        omega

theorem Reduced.result_eq {s : FastSum} {n : ℕ} (h : s.Reduced v) (hn : v ≡ n [ZMOD p256]) :
    vliNat s.result = n % p256 := by
  have hwords := vliNat_lt s.result
  rw [h.length] at hwords
  have hcarry : s.carry = 0 := by
    have hpos := h.nonneg
    have hlt := h.lt
    rw [value] at hpos hlt
    rw [p256] at hlt
    omega
  have hvalue : s.value = vliNat s.result := by
    rw [value, hcarry]
    ring
  have hlt := h.lt
  have hcongr := h.congr.trans hn
  rw [hvalue] at hlt hcongr
  rw [← Nat.mod_eq_of_lt (Int.ofNat_lt.1 hlt)]
  exact (Int.natCast_modEq_iff.1 hcongr)

/-- The sums differ from the product by a multiple of the modulus: the numbers are the
quotients of the powers of the radix. -/
theorem sums_congr (t : ℕ) (w8 w9 w10 w11 w12 w13 w14 w15 : UInt32) :
    (t + 2 * vliNat [0, 0, 0, w11, w12, w13, w14, w15] +
      2 * vliNat [0, 0, 0, w12, w13, w14, w15, 0] +
      vliNat [w8, w9, w10, 0, 0, 0, w14, w15] +
      vliNat [w9, w10, w11, w13, w14, w15, w13, w8] -
      vliNat [w11, w12, w13, 0, 0, 0, w8, w10] -
      vliNat [w12, w13, w14, w15, 0, 0, w9, w11] -
      vliNat [w13, w14, w15, w8, w9, w10, 0, w12] -
      vliNat [w14, w15, 0, w9, w10, w11, 0, w13] : ℤ) ≡
      (t + 2 ^ 256 * vliNat [w8, w9, w10, w11, w12, w13, w14, w15] : ℕ) [ZMOD p256] := by
  rw [Int.modEq_iff_dvd]
  refine ⟨w8.toNat + 4294967297 * w9.toNat + 18446744078004518912 * w10.toNat +
    79228162532711081667253501951 * w11.toNat +
    340282367000166625977638945021017194495 * w12.toNat +
    1461501637671185285124623296161210883009696235519 * w13.toNat +
    6277101736848182401166692341332123086285927382448418586623 * w14.toNat +
    26959946673427741530053695850515137729844644212646842236464328081408 * w15.toNat, ?_⟩
  have hzero : (0 : UInt32).toNat = 0 := rfl
  simp only [vliNat_cons, vliNat_nil, hzero, p256]
  push_cast
  ring

theorem sums_bounds {t s1 s2 s3 s4 d1 d2 d3 d4 : ℕ} (ht : t < 2 ^ 256) (hs1 : s1 < 2 ^ 256)
    (hs2 : s2 < 2 ^ 256) (hs3 : s3 < 2 ^ 256) (hs4 : s4 < 2 ^ 256) (hd1 : d1 < 2 ^ 256)
    (hd2 : d2 < 2 ^ 256) (hd3 : d3 < 2 ^ 256) (hd4 : d4 < 2 ^ 256) :
    -(4 * 2 ^ 256) < (t + 2 * s1 + 2 * s2 + s3 + s4 - d1 - d2 - d3 - d4 : ℤ) ∧
      (t + 2 * s1 + 2 * s2 + s3 + s4 - d1 - d2 - d3 - d4 : ℤ) < 7 * 2 ^ 256 := by
  omega

theorem fastSums_denotes {product : List UInt32} (h : product.length = 16) :
    ∃ v : ℤ, (fastSums product).Denotes v ∧ v ≡ vliNat product [ZMOD p256] ∧
      -(4 * 2 ^ 256) < v ∧ v < 7 * 2 ^ 256 := by
  have htake : (product.take 8).length = 8 := by rw [List.length_take, h]; rfl
  have hsplit : vliNat product = vliNat (product.take 8) + 2 ^ 256 * vliNat (product.drop 8) := by
    rw [← List.take_append_drop 8 product, vliNat_append, htake, List.take_append_drop]
  have hend : vliNat (product.drop 16) = 0 := by
    rw [List.drop_of_length_le (by omega)]
    rfl
  have hhigh : vliNat (product.drop 8) = vliNat [product.getD 8 0, product.getD 9 0,
      product.getD 10 0, product.getD 11 0, product.getD 12 0, product.getD 13 0,
      product.getD 14 0, product.getD 15 0] := by
    rw [vliNat_drop product 8, vliNat_drop product 9, vliNat_drop product 10,
      vliNat_drop product 11, vliNat_drop product 12, vliNat_drop product 13,
      vliNat_drop product 14, vliNat_drop product 15, hend]
    rfl
  have hstart : (⟨product.take 8, 0⟩ : FastSum).Denotes (vliNat (product.take 8)) := by
    refine ⟨htake, ?_⟩
    rw [value, mul_zero, add_zero]
  have height : ∀ {ws : List UInt32}, ws.length = 8 → vliNat ws < 2 ^ 256 := fun {ws} hws => by
    have hlt := vliNat_lt ws
    rwa [hws] at hlt
  rw [hsplit, hhigh]
  exact ⟨_, ((((((((hstart.addTwice rfl).addTwice rfl).add rfl).add rfl).sub rfl).sub rfl).sub
    rfl).sub rfl), sums_congr _ _ _ _ _ _ _ _ _, sums_bounds (height htake) (height rfl)
    (height rfl) (height rfl) (height rfl) (height rfl) (height rfl) (height rfl) (height rfl)⟩

end FastSum

/-- The fast remainder is the remainder. -/
theorem vliMmodFast_spec {product : List UInt32} (h : product.length = 16) :
    (vliMmodFast product).length = 8 ∧ vliNat (vliMmodFast product) = vliNat product % p256 := by
  obtain ⟨v, hv, hcongr, hlow, hhigh⟩ := FastSum.fastSums_denotes h
  have hred : FastSum.Reduced (if (fastSums product).carry < 0 then (fastSums product).raise 8
      else (fastSums product).lower 8) v := by
    have hwords := vliNat_lt (fastSums product).result
    have hvalue := hv.value_eq
    rw [hv.length] at hwords
    rw [FastSum.value] at hvalue
    have hp : p256 = 0xFFFFFFFF00000001000000000000000000000000FFFFFFFFFFFFFFFFFFFFFFFF := rfl
    split_ifs with hcarry
    · exact hv.raise (by omega) (by push_cast; omega)
    · exact hv.lower (by omega) (by push_cast; omega)
  exact ⟨hred.length, hred.result_eq hcongr⟩

theorem vliModMultFast_spec {left right : List UInt32} (hleft : left.length = 8)
    (hright : right.length = 8) :
    (vliModMultFast left right).length = 8 ∧
      vliNat (vliModMultFast left right) = vliNat left * vliNat right % p256 := by
  obtain ⟨hlength, hvalue⟩ := vliMult_spec (n := 7) hleft hright (by decide)
  rw [← hvalue]
  exact vliMmodFast_spec hlength

/-- The fast product is the plain one, limb by limb. -/
theorem vliModMultFast_eq_vliModMult {left right : List UInt32} (hleft : left.length = 8)
    (hright : right.length = 8) :
    vliModMultFast left right = vliModMult left right secp256r1.p 8 ∧
      vliNat (vliModMultFast left right) = vliNat left * vliNat right % p256 := by
  obtain ⟨hlength, hvalue⟩ := vliModMultFast_spec hleft hright
  obtain ⟨hlength', hvalue'⟩ := vliModMult_spec (n := 7) hleft hright
    (show secp256r1.p.length = 7 + 1 from rfl) (by decide) (by decide)
  rw [vliNat_p] at hvalue'
  exact ⟨vliNat_inj (hlength.trans hlength'.symm) (hvalue.trans hvalue'.symm), hvalue⟩

theorem vliModMultFast_eq_vliModMult_generator :
    vliModMultFast (secp256r1.g.take 8) (secp256r1.g.drop 8) =
        vliModMult (secp256r1.g.take 8) (secp256r1.g.drop 8) secp256r1.p 8 ∧
      vliNat (vliModMultFast (secp256r1.g.take 8) (secp256r1.g.drop 8)) =
        vliNat (secp256r1.g.take 8) * vliNat (secp256r1.g.drop 8) % p256 :=
  vliModMultFast_eq_vliModMult rfl rfl

/-! ## Elements of the field -/

/-- Eight words below the modulus which denote the element. -/
structure IsFp (ws : List UInt32) (x : P256.Fp) : Prop where
  length : ws.length = 8
  lt : vliNat ws < p256
  cast : (vliNat ws : P256.Fp) = x

namespace IsFp

open P256

variable {a b : List UInt32} {x y : Fp}

theorem of_eq (h : IsFp a x) (hxy : x = y) : IsFp a y := hxy ▸ h

theorem ext (ha : IsFp a x) (hb : IsFp b x) : a = b := by
  refine vliNat_inj (ha.length.trans hb.length.symm) ?_
  have hcast := ha.cast.trans hb.cast.symm
  rwa [ZMod.natCast_eq_natCast_iff', Nat.mod_eq_of_lt ha.lt, Nat.mod_eq_of_lt hb.lt] at hcast

theorem isZero_iff (ha : IsFp a x) : vliIsZero a = true ↔ x = 0 := by
  rw [vliIsZero_iff, ← ha.cast, ZMod.natCast_eq_zero_iff]
  exact ⟨fun h => h ▸ dvd_zero _, fun h => Nat.eq_zero_of_dvd_of_lt h ha.lt⟩

theorem mul (ha : IsFp a x) (hb : IsFp b y) : IsFp (vliModMultFast a b) (x * y) := by
  obtain ⟨hlength, hvalue⟩ := vliModMultFast_spec ha.length hb.length
  refine ⟨hlength, ?_, ?_⟩
  · rw [hvalue]
    exact Nat.mod_lt _ (by decide)
  · rw [hvalue, ZMod.natCast_mod, Nat.cast_mul, ha.cast, hb.cast]

theorem sq (ha : IsFp a x) : IsFp (vliModSquareFast a) (x * x) := ha.mul ha

theorem add (ha : IsFp a x) (hb : IsFp b y) : IsFp (vliModAdd a b secp256r1.p) (x + y) := by
  have hlt := ha.lt
  have hlt' := hb.lt
  rw [← vliNat_p] at hlt hlt'
  obtain ⟨hlength, hvalue⟩ := vliModAdd_spec ha.length hb.length hlt hlt'
  rw [vliNat_p] at hvalue
  refine ⟨hlength, ?_, ?_⟩
  · rw [hvalue]
    exact Nat.mod_lt _ (by decide)
  · rw [hvalue, ZMod.natCast_mod, Nat.cast_add, ha.cast, hb.cast]

theorem sub (ha : IsFp a x) (hb : IsFp b y) : IsFp (vliModSub a b secp256r1.p) (x - y) := by
  have hlt := ha.lt
  have hlt' := hb.lt
  rw [← vliNat_p] at hlt hlt'
  obtain ⟨hlength, hvalue⟩ := vliModSub_spec ha.length hb.length hlt hlt'
  rw [vliNat_p] at hvalue
  refine ⟨hlength, ?_, ?_⟩
  · rw [hvalue]
    exact Nat.mod_lt _ (by decide)
  · rw [hvalue, ZMod.natCast_mod, Nat.cast_add, Nat.cast_sub hb.lt.le, ZMod.natCast_self,
      ha.cast, hb.cast, zero_sub, sub_eq_add_neg]

theorem inv (ha : IsFp a x) : IsFp (vliModInv a secp256r1.p secp256r1.numWords) x⁻¹ := by
  by_cases hx : x = 0
  · have hzero : vliNat a = 0 := vliIsZero_iff.1 (ha.isZero_iff.2 hx)
    rw [vliModInv_zero hzero, hx, inv_zero]
    exact ⟨rfl, by decide, Nat.cast_zero⟩
  · have hcoprime : (vliNat a).Coprime p256 := by
      rw [Nat.coprime_comm, p256_prime.coprime_iff_not_dvd, ← ZMod.natCast_eq_zero_iff, ha.cast]
      exact hx
    rw [← vliNat_p] at hcoprime
    obtain ⟨hlength, hlt, hmul⟩ := vliModInv_spec (n := 7) ha.length
      (show secp256r1.p.length = 7 + 1 from rfl) (by decide) (by decide) hcoprime
    rw [vliNat_p] at hlt hmul
    refine ⟨hlength, hlt, ?_⟩
    rw [ha.cast] at hmul
    exact eq_inv_of_mul_eq_one_right hmul

end IsFp

end UnsoloKey.UEcc
