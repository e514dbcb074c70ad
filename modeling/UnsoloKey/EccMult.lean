import UnsoloKey.EccPoint
import Mathlib.GroupTheory.OrderOfElement
import Mathlib.Tactic

/-!
# Scalar multiplication

`regularize_k` adds the order of the group once or twice, so that every scalar has 257
bits.  The ladder then meets the order at one of its last steps for three scalars: for
these `EccPoint_mult` leaves zeros, for all others the multiple of the point.
-/

namespace UnsoloKey.UEcc

open CoZ P256

/-! ## The functions -/

/-- `regularize_k`: the carry with `k0` and `k1`. -/
def regularizeK (k : Vli) : Bool × Vli × Vli :=
  let sum := vliAdd k secp256r1.n
  let numNWords := (secp256r1.numNBits + 31) / 32
  let carry := sum.2 != 0 ||
    (decide (secp256r1.numNBits < numNWords * 32) && vliTestBit sum.1 secp256r1.numNBits)
  (carry, sum.1, (vliAdd sum.1 secp256r1.n).1)

/-- The scalar which the callers of `regularize_k` go on with: `p2[!carry]`. -/
def regularScalar (k : Vli) : Vli :=
  let r := regularizeK k
  if r.1 then r.2.1 else r.2.2

/-! ## Multiples of a point of that order -/

section Order

variable {P : curve.Point}

theorem nsmul_eq_zero_iff (hP : P ≠ 0) (horder : n256 • P = 0) {j : ℕ} :
    j • P = 0 ↔ n256 ∣ j := by
  rw [← addOrderOf_dvd_iff_nsmul_eq_zero, addOrderOf_eq_prime horder hP]

theorem y_ne_zero {x y : Fp} {h : curve.Nonsingular x y}
    (horder : n256 • WeierstrassCurve.Affine.Point.some x y h = 0) : y ≠ 0 := by
  rintro rfl
  have hdouble : 2 • WeierstrassCurve.Affine.Point.some x 0 h = 0 := by
    rw [two_nsmul]
    exact WeierstrassCurve.Affine.Point.add_self_of_Y_eq (by rw [negY_short, neg_zero])
  rw [nsmul_eq_zero_iff (WeierstrassCurve.Affine.Point.some_ne_zero h) horder] at hdouble
  exact absurd (Nat.le_of_dvd (by decide) hdouble) (by decide)

/-- The multiplier has 257 bits and keeps away from twice the order. -/
structure Regular (k : ℕ) : Prop where
  bits : k / 2 ^ 256 = 1
  below : n256 + 2 ≤ k
  above : k ≤ 3 * n256 - 3
  apart : k < 2 * n256 - 2 ∨ 2 * n256 + 1 < k

theorem div_two_pow_le {a i j : ℕ} (h : i ≤ j) : a / 2 ^ j ≤ a / 2 ^ i :=
  Nat.div_le_div_left (Nat.pow_le_pow_right (by decide) h) (Nat.two_pow_pos i)

theorem not_dvd_of_regular {k j v : ℕ} (hk : Regular k) (hj : j ≤ 255)
    (hlow : 2 * (k / 2 ^ (j + 1)) ≤ v) (hhigh : v ≤ 2 * (k / 2 ^ (j + 1)) + 2) :
    ¬ n256 ∣ v := by
  obtain ⟨hbits, hbelow, habove, hapart⟩ := hk
  have hpos : 1 ≤ k / 2 ^ (j + 1) := by
    rw [← hbits]
    exact div_two_pow_le (by omega)
  have hle : k / 2 ^ (j + 1) ≤ k / 2 ^ 1 := div_two_pow_le (by omega)
  simp only [n256] at hbelow habove hapart ⊢
  rintro ⟨c, rfl⟩
  obtain rfl | rfl : c = 1 ∨ c = 2 := by omega
  all_goals
    obtain rfl | rfl | hj : j = 0 ∨ j = 1 ∨ 2 ≤ j := by omega
    · omega
    · omega
    · have hle : k / 2 ^ (j + 1) ≤ k / 2 ^ 3 := div_two_pow_le (by omega)
      omega

theorem apart_of_regular {k : ℕ} (hP : P ≠ 0) (horder : n256 • P = 0) (hk : Regular k) {j : ℕ}
    (hj : j ≤ 255) : Apart P (k / 2 ^ (j + 1)) := by
  refine ⟨fun bit => ?_, ?_⟩
  · rw [Ne, nsmul_eq_zero_iff hP horder]
    exact not_dvd_of_regular hk hj (by omega) (by have hbit := bit.toNat_le; omega)
  · rw [Ne, nsmul_eq_zero_iff hP horder]
    exact not_dvd_of_regular hk hj (by omega) (by omega)

/-! ## The ladder over the field -/

/-- The ladder of `EccPoint_mult` for 257 bits. -/
def ladder (k : ℕ) (x y z : Fp) : Fp × Fp :=
  ((Rungs.initial half x y z).run (bitsBelow (k / 2) 255)).finish (k.testBit 0) x y

variable {x y z : Fp} {h : curve.Nonsingular x y} {k : ℕ}

theorem ladder_spec (horder : n256 • WeierstrassCurve.Affine.Point.some x y h = 0)
    (hk : Regular k) (hx : x ≠ 0) (hz : z ≠ 0) :
    ∃ h' : curve.Nonsingular (ladder k x y z).1 (ladder k x y z).2,
      k • WeierstrassCurve.Affine.Point.some x y h = .some _ _ h' := by
  have hP := WeierstrassCurve.Affine.Point.some_ne_zero h
  have hy := y_ne_zero horder
  have hstart := Rungs.Holds.initial two_mul_half a₄_eq h hy hz
  have hone : k / 2 / 2 ^ 255 = 1 := by
    rw [Nat.div_div_eq_div_mul, ← pow_succ', hk.bits]
  rw [← hone] at hstart
  have hrun := hstart.run fun j hj => by
    rw [Nat.div_div_eq_div_mul, ← pow_succ']
    exact apart_of_regular hP horder hk (show j + 1 ≤ 255 by omega)
  have hlast : Apart _ (k / 2) := apart_of_regular hP horder hk (Nat.zero_le 255)
  have hfinish := hrun.finish hlast hx hy (k.testBit 0)
  have hbit : 2 * (k / 2) + (k.testBit 0).toNat = k := by
    have hbit := @testBit_div k 0
    rwa [zero_add, pow_one, pow_zero, Nat.div_one] at hbit
  rw [hbit] at hfinish
  exact hfinish

/-- Where the ladder meets the order before its last two bits, it ends with zeros. -/
theorem ladder_collapse (horder : n256 • WeierstrassCurve.Affine.Point.some x y h = 0)
    (hk : k / 4 = n256 / 2) (hz : z ≠ 0) : ladder k x y z = (0, 0) := by
  have hP := WeierstrassCurve.Affine.Point.some_ne_zero h
  have hstart := Rungs.Holds.initial two_mul_half a₄_eq h (y_ne_zero horder) hz
  have hone : n256 / 2 / 2 ^ 254 = 1 := by decide
  rw [← hone] at hstart
  have hrun := hstart.run fun j hj => by
    have hle : n256 / 2 / 2 ^ (j + 1) ≤ n256 / 2 / 2 ^ 1 := div_two_pow_le (by omega)
    have hpos : 1 ≤ n256 / 2 / 2 ^ (j + 1) := by
      rw [← hone]
      exact div_two_pow_le (by omega)
    refine ⟨fun bit => ?_, ?_⟩
    · rw [Ne, nsmul_eq_zero_iff hP horder]
      intro hdvd
      have hbit := bit.toNat_le
      have hlt := Nat.le_of_dvd (by omega) hdvd
      rw [n256] at hlt hle
      omega
    · rw [Ne, nsmul_eq_zero_iff hP horder]
      intro hdvd
      have hlt := Nat.le_of_dvd (by omega) hdvd
      rw [n256] at hlt hle
      omega
  have hodd : 2 * (n256 / 2) + 1 = n256 := by decide
  obtain ⟨hx, hy, hsub⟩ := hrun.collapse (by rw [hodd, horder])
  obtain ⟨w, hw⟩ := Rungs.step_collapse hx hy hsub ((k / 2).testBit 0)
  have hhalf : k / 2 / 2 = n256 / 2 := by rw [Nat.div_div_eq_div_mul, hk]
  rw [ladder, bitsBelow_succ, hhalf, Rungs.run_append, Rungs.run, Rungs.run, hw]
  exact Rungs.finish_collapse w _ _

/-- A point with the first coordinate zero leaves no third coordinate. -/
theorem ladder_of_x_zero (k : ℕ) (y z : Fp) : ladder k 0 y z = (0, 0) := by
  simp [ladder, Rungs.finish]

end Order

/-! ## The words of `EccPoint_mult` -/

section

variable {point k : Vli} {initialZ : Option Vli} {x y z : Fp} {P : curve.Point}

theorem isFp_zero : IsFp (List.replicate 8 0) 0 := ⟨rfl, by decide, by decide⟩

theorem isFp_one : IsFp (1 :: List.replicate 7 0) 1 := ⟨rfl, by decide, by decide⟩

theorem eccPointMult_eq_ladder (scalar : Vli) (hx : IsFp (point.take 8) x) (hy : IsFp (point.drop 8) y)
    (hz : Blinding initialZ z) :
    IsFp ((eccPointMult point scalar initialZ 257).take 8)
        (ladder (2 ^ 256 + vliNat scalar) x y z).1 ∧
      IsFp ((eccPointMult point scalar initialZ 257).drop 8)
        (ladder (2 ^ 256 + vliNat scalar) x y z).2 := by
  have hbit : ∀ i < 256, (2 ^ 256 + vliNat scalar).testBit i = (vliNat scalar).testBit i :=
    fun i hi => Nat.testBit_two_pow_add_gt hi _
  have hbits : ∀ i ≤ 255, bitsBelow ((2 ^ 256 + vliNat scalar) / 2) i =
      bitsBelow (vliNat scalar / 2) i := by
    intro i hi
    induction i with
    | zero => rfl
    | succ i ih =>
        rw [bitsBelow, bitsBelow, ih (by omega), ← Nat.testBit_succ, ← Nat.testBit_succ,
          hbit _ (by omega)]
  have hloop := (IsRungs.initial hx hy hz).loop scalar 255
  rw [← hbits 255 le_rfl] at hloop
  obtain ⟨hfx, hfy⟩ := hloop.finish (vliTestBit scalar 0) hx hy
  have hmult : eccPointMult point scalar initialZ 257 =
      (ladderFinish (vliTestBit scalar 0) (point.take 8) (point.drop 8)
        (ladderLoop scalar 255 (initialDouble (point.take 8) (point.drop 8) initialZ))).1 ++
      (ladderFinish (vliTestBit scalar 0) (point.take 8) (point.drop 8)
        (ladderLoop scalar 255 (initialDouble (point.take 8) (point.drop 8) initialZ))).2 := rfl
  rw [hmult, List.take_left' hfx.length, List.drop_left' hfx.length, ladder, hbit 0 (by decide),
    ← vliTestBit_eq]
  exact ⟨hfx, hfy⟩

/-- Sixteen words which denote the affine coordinates of the point. -/
def IsPoint (ws : Vli) (P : curve.Point) : Prop :=
  ∃ x y, ∃ h : curve.Nonsingular x y,
    P = .some x y h ∧ IsFp (ws.take 8) x ∧ IsFp (ws.drop 8) y

/-- The multiplier which the regularized scalar stands for. -/
def multiplier (d : ℕ) : ℕ := if 2 ^ 256 ≤ d + n256 then d + n256 else d + 2 * n256

theorem regularScalar_spec (hlen : k.length = 8) :
    (regularScalar k).length = 8 ∧ 2 ^ 256 + vliNat (regularScalar k) = multiplier (vliNat k) := by
  obtain ⟨hlength, hsum, hcarry⟩ := vliAdd_spec (hlen.trans (show 8 = secp256r1.n.length from rfl))
  rw [hlen] at hlength hsum
  obtain ⟨hlength', hsum', hcarry'⟩ :=
    vliAdd_spec (hlength.trans (show 8 = secp256r1.n.length from rfl))
  rw [hlength] at hlength' hsum'
  have hlt := vliNat_lt (vliAdd k secp256r1.n).1
  have hlt' := vliNat_lt (vliAdd (vliAdd k secp256r1.n).1 secp256r1.n).1
  rw [hlength] at hlt
  rw [hlength'] at hlt'
  have hor : (regularizeK k).1 = ((vliAdd k secp256r1.n).2 != 0) := Bool.or_false _
  have hone : (vliAdd k secp256r1.n).2 = 0 ↔ (vliAdd k secp256r1.n).2.toNat = 0 :=
    UInt32.toNat_inj.symm
  have hn : n256 = 0xFFFFFFFF00000000FFFFFFFFFFFFFFFFBCE6FAADA7179E84F3B9CAC2FC632551 := rfl
  rw [vliNat_n] at hsum hsum'
  have hscalar : regularScalar k = if (vliAdd k secp256r1.n).2.toNat = 0
      then (vliAdd (vliAdd k secp256r1.n).1 secp256r1.n).1 else (vliAdd k secp256r1.n).1 := by
    rw [regularScalar, hor]
    split_ifs with hcond hzero hzero
    · exact absurd (hone.2 hzero) (bne_iff_ne.1 hcond)
    · rfl
    · rfl
    · exact absurd (bne_iff_ne.2 (mt hone.1 hzero)) hcond
  rw [hscalar, multiplier]
  split_ifs with hzero hle hle
  · omega
  · exact ⟨hlength', by omega⟩
  · exact ⟨hlength, by omega⟩
  · omega

theorem multiplier_regular {d : ℕ} (hlow : 2 ≤ d) (hhigh : d ≤ n256 - 3) :
    Regular (multiplier d) := by
  have hn : n256 = 0xFFFFFFFF00000000FFFFFFFFFFFFFFFFBCE6FAADA7179E84F3B9CAC2FC632551 := rfl
  unfold multiplier
  split_ifs
  · exact ⟨by omega, by omega, by omega, by omega⟩
  · exact ⟨by omega, by omega, by omega, by omega⟩

theorem multiplier_nsmul (horder : n256 • P = 0) (d : ℕ) : multiplier d • P = d • P := by
  unfold multiplier
  split_ifs
  · rw [add_nsmul, horder, add_zero]
  · rw [add_nsmul, mul_nsmul', horder, nsmul_zero, add_zero]

/-- The three scalars for which the ladder fails. -/
def Fails (d : ℕ) : Prop := d = 1 ∨ d = n256 - 2 ∨ d = n256 - 1

instance (d : ℕ) : Decidable (Fails d) :=
  inferInstanceAs (Decidable (d = 1 ∨ d = n256 - 2 ∨ d = n256 - 1))

theorem multiplier_fails {d : ℕ} (h : Fails d) : multiplier d / 4 = n256 / 2 := by
  obtain rfl | rfl | rfl := h <;> decide

/-- `EccPoint_mult` over a regularized scalar leaves the multiple of the point. -/
theorem eccPointMult_point (hpoint : IsPoint point P) (horder : n256 • P = 0)
    (hx : vliNat (point.take 8) ≠ 0) (hk : k.length = 8) (hlow : 2 ≤ vliNat k)
    (hhigh : vliNat k ≤ n256 - 3) (hz : Blinding initialZ z) :
    IsPoint (eccPointMult point (regularScalar k) initialZ 257) (vliNat k • P) := by
  obtain ⟨x, y, h, rfl, hpx, hpy⟩ := hpoint
  have hx' : x ≠ 0 := fun hzero => hx (vliIsZero_iff.1 (hpx.isZero_iff.2 hzero))
  obtain ⟨hrx, hry⟩ := eccPointMult_eq_ladder (regularScalar k) hpx hpy hz
  rw [(regularScalar_spec hk).2] at hrx hry
  obtain ⟨h', hpoint⟩ := ladder_spec horder (multiplier_regular hlow hhigh) hx' hz.2
  rw [multiplier_nsmul horder] at hpoint
  exact ⟨_, _, h', hpoint, hrx, hry⟩

/-- For the scalars which fail, and for points on the second axis, it leaves zeros. -/
theorem eccPointMult_zero (hpoint : IsPoint point P) (horder : n256 • P = 0) (hk : k.length = 8)
    (hfails : vliNat (point.take 8) = 0 ∨ Fails (vliNat k)) (hz : Blinding initialZ z) :
    eccPointMult point (regularScalar k) initialZ 257 = List.replicate 16 0 := by
  obtain ⟨x, y, h, rfl, hpx, hpy⟩ := hpoint
  obtain ⟨hrx, hry⟩ := eccPointMult_eq_ladder (regularScalar k) hpx hpy hz
  have hzero : ladder (2 ^ 256 + vliNat (regularScalar k)) x y z = (0, 0) := by
    rw [(regularScalar_spec hk).2]
    rcases hfails with hx | hfails
    · rw [hpx.isZero_iff.1 (vliIsZero_iff.2 hx)]
      exact ladder_of_x_zero _ _ _
    · exact ladder_collapse horder (multiplier_fails hfails) hz.2
  rw [hzero] at hrx hry
  rw [← List.take_append_drop 8 (eccPointMult point (regularScalar k) initialZ 257),
    hrx.ext isFp_zero, hry.ext isFp_zero]
  rfl

theorem isPoint_g : IsPoint secp256r1.g generator :=
  ⟨_, _, generator_nonsingular, rfl, ⟨rfl, by decide, by rw [vliNat_gx]⟩,
    ⟨rfl, by decide, by rw [vliNat_gy]⟩⟩

/-- The product of the ladder for every scalar below the order: it is the multiple, but
for the points on the second axis and for three scalars. -/
theorem eccPointMult_exact (hpoint : IsPoint point P) (horder : n256 • P = 0) (hk : k.length = 8)
    (hpos : 0 < vliNat k) (hlt : vliNat k < n256) (hz : Blinding initialZ z) :
    if vliNat (point.take 8) = 0 ∨ Fails (vliNat k)
    then eccPointMult point (regularScalar k) initialZ 257 = List.replicate 16 0
    else IsPoint (eccPointMult point (regularScalar k) initialZ 257) (vliNat k • P) := by
  split_ifs with hfails
  · exact eccPointMult_zero hpoint horder hk hfails hz
  · rw [not_or, Fails] at hfails
    exact eccPointMult_point hpoint horder hfails.1 hk (by omega) (by omega) hz

theorem eccPointMult_exact_five :
    if vliNat (secp256r1.g.take 8) = 0 ∨ Fails (vliNat (5 :: List.replicate 7 0))
    then eccPointMult secp256r1.g (regularScalar (5 :: List.replicate 7 0)) none 257 =
      List.replicate 16 0
    else IsPoint (eccPointMult secp256r1.g (regularScalar (5 :: List.replicate 7 0)) none 257)
      (vliNat (5 :: List.replicate 7 0) • generator) :=
  eccPointMult_exact isPoint_g order_nsmul_generator rfl (by decide) (by decide)
    ⟨isFp_one, one_ne_zero⟩

end

end UnsoloKey.UEcc
