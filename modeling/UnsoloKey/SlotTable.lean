import Mathlib.Data.Set.Card
import Mathlib.Data.Fintype.Card
import Mathlib.Tactic

/-!
# Finite maps kept in a table of slots

A table with finitely many slots, each empty or holding one value, stands for
the finite map which sends the key of every stored value to that value.  The
correspondence needs no order and no search strategy: it only asks that no two
slots hold the same key.  Writing a slot then updates the map at one key,
provided that the slot was free or held that key, and clearing a slot removes
one key.
-/

namespace UnsoloKey.SlotTable

open Function

variable {ι K V : Type*} {key : V → K} {slots : ι → Option V}
  {map : K → Option V}

/-- The slots hold exactly the entries of the map, each in one slot. -/
structure Represents (key : V → K) (slots : ι → Option V)
    (map : K → Option V) : Prop where
  lookup_iff : ∀ k v, map k = some v ↔ ∃ i, slots i = some v ∧ key v = k
  one_slot : ∀ i j v w, slots i = some v → slots j = some w →
    key v = key w → i = j

namespace Represents

theorem empty (hempty : ∀ i, slots i = none) :
    Represents key slots fun _ => none where
  lookup_iff := by
    intro k v
    simp [hempty]
  one_slot := by
    intro i j v w hi
    simp [hempty] at hi

theorem lookup (h : Represents key slots map) {i : ι} {v : V}
    (hslot : slots i = some v) : map (key v) = some v :=
  (h.lookup_iff (key v) v).2 ⟨i, hslot, rfl⟩

theorem lookup_eq_none_iff (h : Represents key slots map) {k : K} :
    map k = none ↔ ∀ i v, slots i = some v → key v ≠ k := by
  constructor
  · intro hnone i v hslot hkey
    have hsome : map k = some v := (h.lookup_iff k v).2 ⟨i, hslot, hkey⟩
    rw [hnone] at hsome
    cases hsome
  · intro habsent
    cases hlookup : map k with
    | none => rfl
    | some v =>
        cases (h.lookup_iff k v).1 hlookup with
        | intro i hi => exact absurd hi.2 (habsent i v hi.1)

section Update

variable [DecidableEq ι] [DecidableEq K]

theorem put (h : Represents key slots map) {i : ι} {w : V}
    (hslot : ∀ v, slots i = some v → key v = key w)
    (hother : ∀ j v, slots j = some v → key v = key w → j = i) :
    Represents key (update slots i (some w)) (update map (key w) (some w)) where
  lookup_iff := by
    intro k v
    by_cases hk : k = key w
    · subst hk
      rw [update_self]
      constructor
      · intro hv
        cases hv
        exact ⟨i, update_self i _ slots, rfl⟩
      · rintro ⟨j, hj, hkey⟩
        by_cases hji : j = i
        · subst hji
          rwa [update_self] at hj
        · rw [update_of_ne hji] at hj
          exact absurd (hother j v hj hkey) hji
    · rw [update_of_ne hk, h.lookup_iff]
      constructor
      · rintro ⟨j, hj, hkey⟩
        have hji : j ≠ i := by
          rintro rfl
          exact hk (hkey.symm.trans (hslot v hj))
        exact ⟨j, by rwa [update_of_ne hji], hkey⟩
      · rintro ⟨j, hj, hkey⟩
        by_cases hji : j = i
        · subst hji
          rw [update_self, Option.some.injEq] at hj
          subst hj
          exact absurd hkey.symm hk
        · exact ⟨j, by rwa [update_of_ne hji] at hj, hkey⟩
  one_slot := by
    intro a b v v' ha hb hkey
    by_cases hai : a = i <;> by_cases hbi : b = i
    · rw [hai, hbi]
    · rw [hai, update_self, Option.some.injEq] at ha
      rw [update_of_ne hbi] at hb
      rw [hai, hother b v' hb (by rw [← hkey, ha])]
    · rw [hbi, update_self, Option.some.injEq] at hb
      rw [update_of_ne hai] at ha
      rw [hbi, hother a v ha (by rw [hkey, hb])]
    · rw [update_of_ne hai] at ha
      rw [update_of_ne hbi] at hb
      exact h.one_slot a b v v' ha hb hkey

theorem clear (h : Represents key slots map) {i : ι} {w : V}
    (hslot : slots i = some w) :
    Represents key (update slots i none) (update map (key w) none) where
  lookup_iff := by
    intro k v
    by_cases hk : k = key w
    · subst hk
      rw [update_self]
      constructor
      · intro hv
        cases hv
      · rintro ⟨j, hj, hkey⟩
        by_cases hji : j = i
        · simp [hji] at hj
        · rw [update_of_ne hji] at hj
          exact absurd (h.one_slot j i v w hj hslot hkey) hji
    · rw [update_of_ne hk, h.lookup_iff]
      constructor
      · rintro ⟨j, hj, hkey⟩
        have hji : j ≠ i := by
          rintro rfl
          rw [hslot, Option.some.injEq] at hj
          exact hk (by rw [← hkey, hj])
        exact ⟨j, by rwa [update_of_ne hji], hkey⟩
      · rintro ⟨j, hj, hkey⟩
        by_cases hji : j = i
        · simp [hji] at hj
        · exact ⟨j, by rwa [update_of_ne hji] at hj, hkey⟩
  one_slot := by
    intro a b v v' ha hb hkey
    by_cases hai : a = i
    · simp [hai] at ha
    · by_cases hbi : b = i
      · simp [hbi] at hb
      · rw [update_of_ne hai] at ha
        rw [update_of_ne hbi] at hb
        exact h.one_slot a b v v' ha hb hkey

end Update

section Count

variable [Fintype ι]

theorem ncard_eq (h : Represents key slots map) :
    {k | map k ≠ none}.ncard =
      (Finset.univ.filter fun i => (slots i).isSome).card := by
  classical
  let held : Finset ι := Finset.univ.filter fun i => (slots i).isSome
  let keyAt : ∀ i ∈ held, K := fun i hi =>
    key ((slots i).get (Finset.mem_filter.1 hi).2)
  have hget : ∀ i (hi : i ∈ held),
      slots i = some ((slots i).get (Finset.mem_filter.1 hi).2) :=
    fun i hi => (Option.some_get _).symm
  have hkeys : {k | map k ≠ none} = {k | ∃ i hi, keyAt i hi = k} := by
    ext k
    constructor
    · intro hk
      cases hlookup : map k with
      | none => exact absurd hlookup hk
      | some v =>
          rcases (h.lookup_iff k v).1 hlookup with ⟨i, hi, hkey⟩
          have hheld : i ∈ held := by simp [held, hi]
          refine ⟨i, hheld, ?_⟩
          simpa [keyAt, hi] using hkey
    · rintro ⟨i, hi, rfl⟩ hnone
      rw [h.lookup (hget i hi)] at hnone
      cases hnone
  rw [hkeys]
  have hinj : ∀ i hi j hj, keyAt i hi = keyAt j hj → i = j :=
    fun i hi j hj hij => h.one_slot i j _ _ (hget i hi) (hget j hj) hij
  have himage : {k | ∃ i hi, keyAt i hi = k} =
      (held.attach.image fun i => keyAt i.1 i.2 : Finset K) := by
    ext k
    simp
  rw [himage, Set.ncard_coe_finset, Finset.card_image_of_injOn,
    Finset.card_attach]
  intro i _ j _ hij
  exact Subtype.ext (hinj i.1 i.2 j.1 j.2 hij)

theorem ncard_le (h : Represents key slots map) :
    {k | map k ≠ none}.ncard ≤ Fintype.card ι := by
  rw [h.ncard_eq]
  exact Finset.card_le_univ _

theorem ncard_lt_iff (h : Represents key slots map) :
    {k | map k ≠ none}.ncard < Fintype.card ι ↔ ∃ i, slots i = none := by
  rw [h.ncard_eq, Finset.card_lt_iff_ne_univ]
  simp [Finset.ext_iff]

end Count

end Represents

end UnsoloKey.SlotTable
