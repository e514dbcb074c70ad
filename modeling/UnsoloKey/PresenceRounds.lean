import Mathlib.Tactic

/-!
# The rounds of a touch wait

A touch is three readings in a row which lie more than a quarter below the baseline.  A
wait reads once in each of at most 301 rounds, and a cancellation is looked for at the end
of every round.  The first round which ends the wait decides what it returns.
-/

namespace UnsoloKey

/-- The reading lies more than a quarter below the baseline. -/
def Dips (base val : ℕ) : Prop := 64 < base ∧ val < base - base / 4

instance (base val : ℕ) : Decidable (Dips base val) := inferInstanceAs (Decidable (_ ∧ _))

section

variable (base : ℕ) (vals : ℕ → ℕ) (seen : ℕ → Bool)

/-- The readings directly before round `k` which dip, back to the last one which does not. -/
def dipsBefore : ℕ → ℕ
  | 0 => 0
  | k + 1 => if Dips base (vals k) then dipsBefore k + 1 else 0

/-- Rounds `k` to `k + 2` all dip. -/
def ThreeDips (k : ℕ) : Prop :=
  Dips base (vals k) ∧ Dips base (vals (k + 1)) ∧ Dips base (vals (k + 2))

/-- Round `k` is the last one, unless an earlier one is. -/
def EndsAt (k : ℕ) : Prop :=
  3 ≤ dipsBefore base vals (k + 1) ∨ seen k = true ∨ 300 ≤ k

instance : DecidablePred (EndsAt base vals seen) := fun _ =>
  inferInstanceAs (Decidable (_ ∨ _ ∨ _))

/-- The touch comes before the cancellation, and both before the timeout. -/
def statusAt (k : ℕ) : UInt8 :=
  if 3 ≤ dipsBefore base vals (k + 1) then 0x00 else if seen k then 0x2D else 0x2F

/-- What a wait returns, and after how many rounds. -/
structure Decided (status : UInt8) (polls : ℕ) : Prop where
  polls_le : polls ≤ 301
  touched : status = 0x00 ↔
    ∃ k, k + 2 ≤ 300 ∧ ThreeDips base vals k ∧ ∀ j < k + 2, seen j = false
  cancelled : status = 0x2D ↔
    ∃ j ≤ 300, seen j = true ∧ ∀ k, k + 2 ≤ j → ¬ ThreeDips base vals k
  timedOut : status = 0x2F ↔ status ≠ 0x00 ∧ status ≠ 0x2D

end

section

variable {base : ℕ} {vals : ℕ → ℕ} {seen : ℕ → Bool} {k : ℕ}

theorem dipsBefore_le (k : ℕ) : dipsBefore base vals k ≤ k := by
  induction k with
  | zero => exact le_rfl
  | succ k ih =>
      rw [dipsBefore]
      split_ifs
      · omega
      · omega

theorem three_le_dipsBefore :
    3 ≤ dipsBefore base vals (k + 1) ↔ ∃ i, k = i + 2 ∧ ThreeDips base vals i := by
  constructor
  · intro h
    have hle : dipsBefore base vals (k + 1) ≤ k + 1 := dipsBefore_le (k + 1)
    obtain ⟨i, rfl⟩ : ∃ i, k = i + 2 := ⟨k - 2, by omega⟩
    refine ⟨i, rfl, ?_⟩
    simp only [dipsBefore] at h
    split_ifs at h with hlast hmiddle hfirst
    · exact ⟨hfirst, hmiddle, hlast⟩
    all_goals omega
  · rintro ⟨i, rfl, hfirst, hmiddle, hlast⟩
    simp only [dipsBefore, if_pos hfirst, if_pos hmiddle, if_pos hlast]
    omega

theorem dipsBefore_lt (h : ∀ j < k, ¬ EndsAt base vals seen j) : dipsBefore base vals k < 3 := by
  cases k with
  | zero => exact Nat.zero_lt_succ 2
  | succ k =>
      by_contra hthree
      exact h k (Nat.lt_succ_self k) (.inl (Nat.le_of_not_lt hthree))

theorem round_le (h : ∀ j < k, ¬ EndsAt base vals seen j) : k ≤ 300 := by
  by_contra hlate
  exact h 300 (Nat.lt_of_not_le hlate) (.inr (.inr le_rfl))

/-- The first round which ends the wait decides. -/
theorem decided_of_first (hends : EndsAt base vals seen k)
    (hfirst : ∀ j < k, ¬ EndsAt base vals seen j) :
    Decided base vals seen (statusAt base vals seen k) (k + 1) := by
  have hk := round_le hfirst
  have hseen : ∀ j < k, seen j = false := fun j hj =>
    Bool.eq_false_iff.2 fun h => hfirst j hj (.inr (.inl h))
  have hdips : ∀ i, i + 2 < k → ¬ ThreeDips base vals i := fun i hi hthree =>
    hfirst (i + 2) hi (.inl (three_le_dipsBefore.2 ⟨i, rfl, hthree⟩))
  have hlater : ∀ j, EndsAt base vals seen j → k ≤ j := fun j hj =>
    Nat.le_of_not_lt fun hlt => hfirst j hlt hj
  have hstatus : statusAt base vals seen k = 0x00 ↔ 3 ≤ dipsBefore base vals (k + 1) := by
    unfold statusAt
    split_ifs <;> simp_all
  have hstatus' : statusAt base vals seen k = 0x2D ↔
      ¬ 3 ≤ dipsBefore base vals (k + 1) ∧ seen k = true := by
    unfold statusAt
    split_ifs <;> simp_all
  refine ⟨by omega, ?_, ?_, ?_⟩
  · rw [hstatus, three_le_dipsBefore]
    constructor
    · rintro ⟨i, rfl, hthree⟩
      exact ⟨i, hk, hthree, hseen⟩
    · rintro ⟨i, hi, hthree, hquiet⟩
      have hle := hlater (i + 2) (.inl (three_le_dipsBefore.2 ⟨i, rfl, hthree⟩))
      by_cases hlast : k = i + 2
      · exact ⟨i, hlast, hthree⟩
      · rcases hends with hends | hends | hends
        · exact three_le_dipsBefore.1 hends
        · rw [hquiet k (by omega)] at hends
          cases hends
        · omega
  · rw [hstatus', three_le_dipsBefore]
    constructor
    · rintro ⟨hnone, hcancel⟩
      refine ⟨k, hk, hcancel, fun i hi hthree => ?_⟩
      by_cases hlast : k = i + 2
      · exact hnone ⟨i, hlast, hthree⟩
      · exact hdips i (by omega) hthree
    · rintro ⟨j, hj, hcancel, hnone⟩
      have hle := hlater j (.inr (.inl hcancel))
      have hthree : ¬ ∃ i, k = i + 2 ∧ ThreeDips base vals i := by
        rintro ⟨i, rfl, hthree⟩
        exact hnone i hle hthree
      refine ⟨hthree, ?_⟩
      rcases hends with hends | hends | hends
      · exact absurd (three_le_dipsBefore.1 hends) hthree
      · exact hends
      · obtain rfl : k = j := by omega
        exact hcancel
  · unfold statusAt
    split_ifs <;> decide

theorem Decided.status_unique {status status' : UInt8} {polls polls' : ℕ}
    (h : Decided base vals seen status polls) (h' : Decided base vals seen status' polls') :
    status = status' := by
  have htouched := h.touched.trans h'.touched.symm
  have hcancelled := h.cancelled.trans h'.cancelled.symm
  by_cases hzero : status = 0x00
  · rw [hzero, htouched.1 hzero]
  by_cases hcancel : status = 0x2D
  · rw [hcancel, hcancelled.1 hcancel]
  · rw [h.timedOut.2 ⟨hzero, hcancel⟩,
      h'.timedOut.2 ⟨mt htouched.2 hzero, mt hcancelled.2 hcancel⟩]

theorem exists_endsAt (base : ℕ) (vals : ℕ → ℕ) (seen : ℕ → Bool) :
    ∃ k, EndsAt base vals seen k ∧ ∀ j < k, ¬ EndsAt base vals seen j := by
  have hexists : ∃ k, EndsAt base vals seen k := ⟨300, .inr (.inr le_rfl)⟩
  exact ⟨Nat.find hexists, Nat.find_spec hexists, fun j hj => Nat.find_min hexists hj⟩

theorem Decided.not_touched {status : UInt8} {polls : ℕ} (h : Decided base vals seen status polls)
    (hisolated : ∀ k, k + 2 ≤ 300 → ¬ ThreeDips base vals k) : status ≠ 0x00 := by
  intro htouched
  obtain ⟨k, hk, hthree, -⟩ := h.touched.1 htouched
  exact hisolated k hk hthree

end

end UnsoloKey
