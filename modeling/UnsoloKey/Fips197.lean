import Mathlib.Algebra.Polynomial.OfFn
import Mathlib.Data.Matrix.Mul
import Mathlib.LinearAlgebra.Matrix.Notation
import Mathlib.RingTheory.AdjoinRoot
import Mathlib.Tactic

/-!
# AES as the standard describes it

A byte is an element of the field of 256 elements, polynomials over the bits modulo
`x ^ 8 + x ^ 4 + x ^ 3 + x + 1`.  A state is a matrix of such elements, and the steps of a
round are the S-box at each entry, a rotation of the rows, a product of matrices and a
sum.  The key schedule is a recurrence, for any number of key words and rounds.
-/

namespace Fips197

open Polynomial

/-! ## The field -/

noncomputable def modulus : (ZMod 2)[X] := X ^ 8 + X ^ 4 + X ^ 3 + X + 1

theorem modulus_monic : modulus.Monic := by
  unfold modulus
  monicity!

theorem modulus_natDegree : modulus.natDegree = 8 := by
  unfold modulus
  compute_degree!

abbrev Element : Type := AdjoinRoot modulus

noncomputable def x : Element := AdjoinRoot.root modulus

theorem two_eq_zero : (2 : Element) = 0 := by
  rw [← map_ofNat (algebraMap (ZMod 2) Element) 2]
  exact (congrArg _ (by decide : (OfNat.ofNat 2 : ZMod 2) = 0)).trans (map_zero _)

theorem x_pow_eight : x ^ 8 = x ^ 4 + x ^ 3 + x + 1 := by
  have hroot : x ^ 8 + x ^ 4 + x ^ 3 + x + 1 = 0 := by
    have h : eval₂ (AdjoinRoot.of modulus) x modulus = 0 := AdjoinRoot.eval₂_root modulus
    have hexpand : ∀ p, p = modulus → eval₂ (AdjoinRoot.of modulus) x p = 0 := by
      rintro p rfl
      exact h
    have hmodulus := hexpand (X ^ 8 + X ^ 4 + X ^ 3 + X + 1) rfl
    simpa only [eval₂_add, eval₂_pow, eval₂_X, eval₂_one] using hmodulus
  linear_combination hroot - (x ^ 4 + x ^ 3 + x + 1) * two_eq_zero

/-- The element with these coefficients. -/
noncomputable def ofCoeffs : (Fin 8 → ZMod 2) →+ Element :=
  (AdjoinRoot.mk modulus).toAddMonoidHom.comp (Polynomial.ofFn 8).toAddMonoidHom

/-- The coefficients of the remainder. -/
noncomputable def coeffs (a : Element) : Fin 8 → ZMod 2 :=
  Polynomial.toFn 8 (AdjoinRoot.modByMonicHom modulus_monic a)

theorem coeffs_ofCoeffs (b : Fin 8 → ZMod 2) : coeffs (ofCoeffs b) = b := by
  have hdegree : (Polynomial.ofFn 8 b).degree < modulus.degree := by
    rw [degree_eq_natDegree modulus_monic.ne_zero, modulus_natDegree]
    exact Polynomial.ofFn_degree_lt b
  change Polynomial.toFn 8 (AdjoinRoot.modByMonicHom modulus_monic
    (AdjoinRoot.mk modulus (Polynomial.ofFn 8 b))) = b
  rw [AdjoinRoot.modByMonicHom_mk, (modByMonic_eq_self_iff modulus_monic).2 hdegree]
  exact Polynomial.toFn_comp_ofFn_eq_id 8 b

theorem ofCoeffs_injective : Function.Injective ofCoeffs :=
  Function.LeftInverse.injective coeffs_ofCoeffs

theorem ofCoeffs_eq_sum (b : Fin 8 → ZMod 2) :
    ofCoeffs b = ∑ i, AdjoinRoot.of modulus (b i) * x ^ (i : ℕ) := by
  change AdjoinRoot.mk modulus (Polynomial.ofFn 8 b) = _
  rw [Polynomial.ofFn_eq_sum_monomial, map_sum]
  refine Finset.sum_congr rfl fun i _ => ?_
  rw [← C_mul_X_pow_eq_monomial, map_mul, map_pow]
  rfl

/-! ## The steps of a round -/

abbrev State : Type := Matrix (Fin 4) (Fin 4) Element

/-- The affine transformation of the coefficients. -/
def affine (b : Fin 8 → ZMod 2) : Fin 8 → ZMod 2 := fun i =>
  b i + b (i + 4) + b (i + 5) + b (i + 6) + b (i + 7) + ![1, 1, 0, 0, 0, 1, 1, 0] i

/-- The inverse, with that of zero zero, and the affine transformation. -/
noncomputable def sbox (a : Element) : Element := ofCoeffs (affine (coeffs (Ring.inverse a)))

noncomputable def subBytes (s : State) : State := s.map sbox

def shiftRows (s : State) : State := fun r c => s r (c + r)

noncomputable def mixMatrix : State :=
  !![x, x + 1, 1, 1; 1, x, x + 1, 1; 1, 1, x, x + 1; x + 1, 1, 1, x]

noncomputable def mixColumns (s : State) : State := mixMatrix * s

/-! ## The key schedule -/

abbrev Word : Type := Fin 4 → Element

def rotWord (w : Word) : Word := fun i => w (i + 1)

noncomputable def subWord (w : Word) : Word := fun i => sbox (w i)

noncomputable def rcon (i : ℕ) : Word := ![x ^ (i - 1), 0, 0, 0]

/-- What is added to the word `nk` places before, from the last word. -/
noncomputable def nextWord (nk i : ℕ) (last : Word) : Word :=
  if i % nk = 0 then subWord (rotWord last) + rcon (i / nk)
  else if 6 < nk ∧ i % nk = 4 then subWord last
  else last

/-- The words of the schedule of a key of `nk` words. -/
noncomputable def keyWord (nk : ℕ) (key : ℕ → Word) (i : ℕ) : Word :=
  if _h : nk = 0 ∨ i < nk then key i
  else keyWord nk key (i - nk) + nextWord nk i (keyWord nk key (i - 1))
termination_by i
decreasing_by all_goals omega

theorem keyWord_lt {nk i : ℕ} {key : ℕ → Word} (h : i < nk) : keyWord nk key i = key i := by
  rw [keyWord, dif_pos (.inr h)]

theorem keyWord_ge {nk i : ℕ} {key : ℕ → Word} (hpos : 0 < nk) (h : nk ≤ i) :
    keyWord nk key i = keyWord nk key (i - nk) + nextWord nk i (keyWord nk key (i - 1)) := by
  rw [keyWord, dif_neg (by omega)]

/-! ## The cipher -/

/-- Four words as a matrix, one a column. -/
def roundKey (w : ℕ → Word) (round : ℕ) : State := fun r c => w (4 * round + c) r

/-- The state after that many rounds. -/
noncomputable def rounds (w : ℕ → Word) (s : State) : ℕ → State
  | 0 => s + roundKey w 0
  | round + 1 =>
      mixColumns (shiftRows (subBytes (rounds w s round))) + roundKey w (round + 1)

/-- `nr` rounds, the last of them without the product. -/
noncomputable def cipher (nr : ℕ) (w : ℕ → Word) (s : State) : State :=
  shiftRows (subBytes (rounds w s (nr - 1))) + roundKey w nr

/-- Each block is added to the cipher of the block before it. -/
noncomputable def cbcEncrypt (encrypt : State → State) : State → List State → List State
  | _, [] => []
  | iv, block :: blocks =>
      encrypt (block + iv) :: cbcEncrypt encrypt (encrypt (block + iv)) blocks

section

variable {w w' : ℕ → Word}

theorem roundKey_congr {round : ℕ} (h : ∀ i < 4 * (round + 1), w i = w' i) :
    roundKey w round = roundKey w' round := by
  funext r c
  exact congrFun (h _ (by omega)) r

theorem rounds_congr {s : State} {round : ℕ} (h : ∀ i < 4 * (round + 1), w i = w' i) :
    rounds w s round = rounds w' s round := by
  induction round with
  | zero => rw [rounds, rounds, roundKey_congr h]
  | succ round ih => rw [rounds, rounds, ih fun i hi => h i (by omega), roundKey_congr h]

theorem cipher_congr {nr : ℕ} {s : State} (h : ∀ i < 4 * (nr + 1), w i = w' i) :
    cipher nr w s = cipher nr w' s := by
  rw [cipher, cipher, rounds_congr fun i hi => h i (by omega), roundKey_congr h]

end

end Fips197
