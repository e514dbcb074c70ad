import Mathlib.NumberTheory.LucasPrimality
import Mathlib.Tactic

/-!
# Primes with a known primitive root

Lucas's test in a form which evaluation decides: the powers are taken by repeated
squaring, and the prime factors of `n - 1` are given with the root.
-/

namespace Lucas

/-- `r * a ^ e` modulo `n` for an exponent of at most that many bits. -/
def powMod (n : ℕ) : ℕ → ℕ → ℕ → ℕ → ℕ
  | 0, _, _, r => r
  | bits + 1, a, e, r =>
      powMod n bits (a * a % n) (e / 2) (if e % 2 = 1 then r * a % n else r)

theorem powMod_modEq {n bits a e r : ℕ} (he : e < 2 ^ bits) :
    powMod n bits a e r ≡ r * a ^ e [MOD n] := by
  induction bits generalizing a e r with
  | zero =>
      obtain rfl : e = 0 := by omega
      rw [powMod, pow_zero, mul_one]
  | succ bits ih =>
      rw [pow_succ] at he
      have hsq : (a * a % n) ^ (e / 2) ≡ a ^ (2 * (e / 2)) [MOD n] := by
        rw [pow_mul, sq]
        exact (Nat.mod_modEq _ n).pow _
      refine (ih (by omega)).trans ?_
      split_ifs with hodd
      · calc r * a % n * (a * a % n) ^ (e / 2) ≡ r * a * a ^ (2 * (e / 2)) [MOD n] :=
              (Nat.mod_modEq _ n).mul hsq
          _ = r * a ^ e := by
              rw [mul_assoc, ← pow_succ']
              congr 2
              omega
      · have heven : 2 * (e / 2) = e := by omega
        rw [heven] at hsq
        exact (Nat.ModEq.refl r).mul hsq

/-- `a` has order `n - 1` modulo `n`, whose prime factors are listed. -/
def IsRoot (bits a n : ℕ) (factors : List ℕ) : Prop :=
  1 < n ∧ n < 2 ^ bits ∧ factors.prod = n - 1 ∧ powMod n bits a (n - 1) 1 = 1 ∧
    ∀ q ∈ factors, powMod n bits a ((n - 1) / q) 1 % n ≠ 1

instance (bits a n : ℕ) (factors : List ℕ) : Decidable (IsRoot bits a n factors) :=
  inferInstanceAs (Decidable (1 < n ∧ n < 2 ^ bits ∧ factors.prod = n - 1 ∧
    powMod n bits a (n - 1) 1 = 1 ∧ ∀ q ∈ factors, powMod n bits a ((n - 1) / q) 1 % n ≠ 1))

theorem prime_of_root (bits a : ℕ) (factors : List ℕ) {n : ℕ} (h : IsRoot bits a n factors)
    (hprime : ∀ q ∈ factors, q.Prime) : n.Prime := by
  obtain ⟨hone, hbits, hprod, hroot, hne⟩ := h
  have hpow : ∀ {e : ℕ}, e ≤ n - 1 → ((a : ZMod n) ^ e = 1 ↔ powMod n bits a e 1 % n = 1) := by
    intro e he
    have hmod : powMod n bits a e 1 ≡ a ^ e [MOD n] := by
      have hmod := @powMod_modEq n bits a e 1 (by omega)
      rwa [one_mul] at hmod
    rw [← Nat.cast_pow, ← Nat.cast_one, ZMod.natCast_eq_natCast_iff', ← hmod,
      Nat.mod_eq_of_lt hone]
  refine lucas_primality n a ((hpow le_rfl).2 ?_) fun q hq hdvd heq => ?_
  · rw [hroot, Nat.mod_eq_of_lt hone]
  · rw [← hprod, hq.prime.dvd_prod_iff] at hdvd
    obtain ⟨r, hr, hdvd⟩ := hdvd
    rw [(Nat.prime_dvd_prime_iff_eq hq (hprime r hr)).1 hdvd] at heq
    exact hne r hr ((hpow (Nat.div_le_self _ _)).1 heq)

end Lucas
