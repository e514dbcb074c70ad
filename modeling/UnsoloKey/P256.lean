import UnsoloKey.CoZ
import UnsoloKey.HostPoint
import UnsoloKey.Lucas
import Mathlib.Algebra.Field.ZMod
import Mathlib.Tactic

/-!
# The group of P-256

The field and the order of the generator are prime.  That the order annihilates the
generator is read off the ladder itself: it meets two points with one first coordinate
at the half of the order, and nowhere before.
-/

namespace UnsoloKey

open CoZ Lucas

/-! ## The two primes -/

/-- The order of the generator. -/
def n256 : ℕ := 0xFFFFFFFF00000000FFFFFFFFFFFFFFFFBCE6FAADA7179E84F3B9CAC2FC632551

section Primes

set_option maxRecDepth 4000

theorem prime_35 : Nat.Prime 34282281433 :=
  prime_of_root 35 17 [2, 2, 2, 3, 7, 204061199]
    (by decide) (by norm_num)

theorem prime_36 : Nat.Prime 66417393611 :=
  prime_of_root 36 6 [2, 5, 53, 173, 197, 3677]
    (by decide) (by norm_num)

theorem prime_44 : Nat.Prime 11290956913871 :=
  prime_of_root 44 13 [66417393611, 2, 5, 17]
    (by decide) (List.forall_mem_cons.2 ⟨prime_36, by norm_num⟩)

theorem prime_56 : Nat.Prime 46076956964474543 :=
  prime_of_root 56 5 [2, 23, 18169, 78283, 704251]
    (by decide) (by norm_num)

theorem prime_150 : Nat.Prime 774023187263532362759620327192479577272145303 :=
  prime_of_root 150 3 [46076956964474543, 11290956913871, 34282281433, 2, 3, 3, 2411]
    (by decide) (List.forall_mem_cons.2 ⟨prime_56, List.forall_mem_cons.2 ⟨prime_44,
      List.forall_mem_cons.2 ⟨prime_35, by norm_num⟩⟩⟩)

theorem prime_160 : Nat.Prime 835945042244614951780389953367877943453916927241 :=
  prime_of_root 160 11 [774023187263532362759620327192479577272145303, 2, 2, 2, 3, 3, 3, 5]
    (by decide) (List.forall_mem_cons.2 ⟨prime_150, by norm_num⟩)

theorem p256_prime : p256.Prime :=
  prime_of_root 256 6 [835945042244614951780389953367877943453916927241, 2, 3, 5, 5, 17, 257,
    641, 1531, 65537, 490463, 6700417]
    (by decide) (List.forall_mem_cons.2 ⟨prime_160, by norm_num⟩)

theorem prime_40 : Nat.Prime 1002328039319 :=
  prime_of_root 40 19 [2, 126241, 3969899]
    (by decide) (by norm_num)

theorem prime_58 : Nat.Prime 208150935158385979 :=
  prime_of_root 58 2 [2, 3, 11, 43, 127, 3023, 191039911]
    (by decide) (by norm_num)

theorem prime_92 : Nat.Prime 2624747550333869278416773953 :=
  prime_of_root 92 7 [208150935158385979, 2, 2, 2, 2, 2, 2, 3, 3, 1297, 16879]
    (by decide) (List.forall_mem_cons.2 ⟨prime_58, by norm_num⟩)

theorem n256_prime : n256.Prime :=
  prime_of_root 256 7 [2624747550333869278416773953, 1002328039319, 2, 2, 2, 2, 3, 71, 131, 373,
    3407, 17449, 38189, 187019741, 622491383]
    (by decide) (List.forall_mem_cons.2 ⟨prime_92, List.forall_mem_cons.2 ⟨prime_40, by norm_num⟩⟩)

end Primes

instance : Fact p256.Prime := ⟨p256_prime⟩

instance : Fact n256.Prime := ⟨n256_prime⟩

/-! ## The curve -/

namespace P256

abbrev Fp : Type := ZMod p256

def curve : WeierstrassCurve.Affine Fp := ⟨0, 0, 0, -3, b256⟩

instance : curve.IsShortNF := ⟨rfl, rfl, rfl⟩

theorem a₄_eq : curve.a₄ = -3 := rfl

theorem Δ_ne_zero : curve.Δ ≠ 0 := by decide +kernel

theorem nonsingular_iff {x y : Fp} : curve.Nonsingular x y ↔ y ^ 2 = x ^ 3 - 3 * x + b256 := by
  rw [← WeierstrassCurve.Affine.equation_iff_nonsingular_of_Δ_ne_zero Δ_ne_zero,
    WeierstrassCurve.Affine.equation_iff]
  have ha : y ^ 2 + curve.a₁ * x * y + curve.a₃ * y = y ^ 2 := by
    rw [curve.a₁_of_isShortNF, curve.a₃_of_isShortNF]
    ring
  have hb : x ^ 3 + curve.a₂ * x ^ 2 + curve.a₄ * x + curve.a₆ = x ^ 3 - 3 * x + b256 := by
    rw [curve.a₂_of_isShortNF, a₄_eq]
    change x ^ 3 + 0 * x ^ 2 + -3 * x + (b256 : Fp) = x ^ 3 - 3 * x + b256
    ring
  rw [ha, hb]

/-- The coordinates of a finite point, as the host sends them. -/
theorem onP256_iff {x y : ℕ} :
    OnP256 x y ↔ x < p256 ∧ y < p256 ∧ curve.Nonsingular (x : Fp) (y : Fp) := by
  have hequation : (y : ℤ) ^ 2 ≡ (x : ℤ) ^ 3 - 3 * x + b256 [ZMOD p256] ↔
      curve.Nonsingular (x : Fp) (y : Fp) := by
    rw [nonsingular_iff, ← ZMod.intCast_eq_intCast_iff]
    push_cast
    rfl
  rw [← hequation]
  exact ⟨fun h => ⟨h.x_lt, h.y_lt, h.equation⟩, fun h => ⟨h.1, h.2.1, h.2.2⟩⟩

/-! ## The generator -/

def gx : ℕ := 0x6B17D1F2E12C4247F8BCE6E563A440F277037D812DEB33A0F4A13945D898C296

def gy : ℕ := 0x4FE342E2FE1A7F9B8EE7EB4A7C0F9E162BCE33576B315ECECBB6406837BF51F5

theorem generator_nonsingular : curve.Nonsingular (gx : Fp) (gy : Fp) :=
  (onP256_iff.1 ⟨by decide, by decide, by decide⟩).2.2

/-- The generator of the group. -/
def generator : curve.Point := .some _ _ generator_nonsingular

/-- The inverse of two. -/
def half (r : Fp) : Fp := r * ((p256 + 1) / 2 : ℕ)

theorem two_mul_half (r : Fp) : 2 * half r = r := by
  have hsum : 2 * ((p256 + 1) / 2) = p256 + 1 := by decide
  have htwo : (2 : Fp) * ((p256 + 1) / 2 : ℕ) = 1 := by
    have hcast := congrArg (Nat.cast (R := Fp)) hsum
    rwa [Nat.cast_mul, Nat.cast_add, ZMod.natCast_self, zero_add, Nat.cast_one] at hcast
  rw [half, mul_left_comm, htwo, mul_one]

theorem natCast_ne_zero {n : ℕ} (hpos : 0 < n) (hlt : n < p256) : (n : Fp) ≠ 0 := by
  rw [Ne, ZMod.natCast_eq_zero_iff]
  exact fun hdvd => absurd (Nat.le_of_dvd hpos hdvd) (by omega)

/-- The ladder up to the half of the order. -/
def halfOrder : Rungs Fp := Rungs.initial half (gx : Fp) (gy : Fp) 1

theorem halfOrder_meets : halfOrder.distinct (bitsBelow (n256 / 2) 254) = true ∧
    (halfOrder.run (bitsBelow (n256 / 2) 254)).points.x₁ =
      (halfOrder.run (bitsBelow (n256 / 2) 254)).points.x₂ := by
  decide +kernel

theorem order_nsmul_generator : n256 • generator = 0 := by
  have hstart : halfOrder.Holds generator (n256 / 2 / 2 ^ 254) :=
    Rungs.Holds.initial two_mul_half a₄_eq generator_nonsingular
      (natCast_ne_zero (by decide) (by decide)) one_ne_zero
  have hodd : n256 = 2 * (n256 / 2) + 1 := by decide
  rw [hodd]
  exact (hstart.run_distinct halfOrder_meets.1).odd_eq_zero
    (WeierstrassCurve.Affine.Point.some_ne_zero _) halfOrder_meets.2

end P256

end UnsoloKey
