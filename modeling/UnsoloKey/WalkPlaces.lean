import UnsoloKey.CborExtent
import Mathlib.Tactic

/-!
# The places where an accessor looks

The accessors with integer keys are one walk with different ends.  Where the walk
looks, and at which value it stops, is described here by the lengths which the bytes
declare; the accessors then are functions of that place.
-/

namespace UnsoloKey

open Rd

variable {m : Mem} {d len : ℕ}

/-- `skip_cbor_item` returns exactly the lengths which the bytes declare. -/
theorem skipCborItem_run_iff {r : ℕ} :
    (skipCborItem d len).run m = some r ↔ DeclaredLen m d len r := by
  constructor
  · exact fun h => declaredLen_of_run h
  · exact fun h => skipCborItem_run_eq_some_iff.2 h.run

/-! ## Running offsets -/

namespace RunningOffset

variable {i j k o o' : ℕ}

theorem pred (h : RunningOffset m d len (j + 1) o) (hmore : o < len) :
    ∃ o' r, RunningOffset m d len j o' ∧ o' < len ∧ DeclaredLen m (d + o') (len - o') r ∧
      o = u16 (o' + r) := by
  cases h with
  | stop hoffset hend => exact absurd hmore (by omega)
  | next hoffset hmore' hitem => exact ⟨_, _, hoffset, hmore', hitem, rfl⟩

theorem upTo (h : RunningOffset m d len j o) (hmore : o < len) (hle : k ≤ j) :
    ∃ o', RunningOffset m d len k o' ∧ o' < len := by
  induction j generalizing o with
  | zero =>
      obtain rfl : k = 0 := by omega
      exact ⟨o, h, hmore⟩
  | succ j ih =>
      rcases Nat.eq_or_lt_of_le hle with rfl | hlt
      · exact ⟨o, h, hmore⟩
      · obtain ⟨o', _, hoffset, hmore', _, _⟩ := h.pred hmore
        exact ih hoffset hmore' (by omega)

/-- Before a place inside the buffer every item has a length. -/
theorem item (h : RunningOffset m d len i o) (hlater : RunningOffset m d len j o')
    (hmore : o' < len) (hlt : i < j) :
    o < len ∧ ∃ r, (skipCborItem (d + o) (len - o)).run m = some r ∧
      RunningOffset m d len (i + 1) (u16 (o + r)) ∧ u16 (o + r) < len := by
  obtain ⟨next, hnext, hnextMore⟩ := hlater.upTo hmore hlt
  obtain ⟨here, r, hhere, hhereMore, hlength, rfl⟩ := hnext.pred hnextMore
  obtain rfl : o = here := h.unique hhere
  exact ⟨hhereMore, r, skipCborItem_run_iff.2 hlength, hnext, hnextMore⟩

end RunningOffset

/-! ## Looking for a key -/

/-- The buffer begins with the head of a map. -/
def Mem.BeginsMap (m : Mem) (d len : ℕ) : Prop := len ≠ 0 ∧ majorBits (m d) = 0xA0

/-- The walk over the map at `d` looks at item number `j`, which stands at offset `o`: it
starts inside the buffer, and no key before it was the right one. -/
structure Looks (m : Mem) (hit : ℕ → Bool) (d len j o : ℕ) : Prop where
  count : j < m.count d * 2
  offset : RunningOffset m d len j o
  more : o < len
  before : ∀ i o', 2 * i + 1 < j → RunningOffset m d len (2 * i) o' → hit (d + o') = false

/-- The value of the first right key stands at offset `o`. -/
def Finds (m : Mem) (hit : ℕ → Bool) (d len o : ℕ) : Prop :=
  ∃ i k, Looks m hit d len (2 * i + 1) o ∧ RunningOffset m d len (2 * i) k ∧
    hit (d + k) = true

section

variable {hit : ℕ → Bool} {isKey : ℕ → Rd Bool} {i o : ℕ}

/-- No key with a number below `i` is the right one. -/
def NoHit (m : Mem) (hit : ℕ → Bool) (d len i : ℕ) : Prop :=
  ∀ i' < i, ∀ o, RunningOffset m d len (2 * i') o → hit (d + o) = false

theorem NoHit.succ (h : NoHit m hit d len i) (hoffset : RunningOffset m d len (2 * i) o)
    (hmiss : hit (d + o) = false) : NoHit m hit d len (i + 1) := by
  intro i' hlt o' ho'
  rcases Nat.lt_succ_iff_lt_or_eq.1 hlt with hearlier | rfl
  · exact h i' hearlier o' ho'
  · rw [ho'.unique hoffset]
    exact hmiss

theorem Finds.at_or_after {v : ℕ} (h : Finds m hit d len v) (hnone : NoHit m hit d len i) :
    ∃ j k, i ≤ j ∧ Looks m hit d len (2 * j + 1) v ∧ RunningOffset m d len (2 * j) k ∧
      hit (d + k) = true := by
  obtain ⟨j, k, hlooks, hk, hhit⟩ := h
  refine ⟨j, k, ?_, hlooks, hk, hhit⟩
  by_contra hlt
  rw [hnone j (by omega) k hk] at hhit
  cases hhit

theorem Finds.unique {v v' : ℕ} (h : Finds m hit d len v) (h' : Finds m hit d len v') :
    v = v' := by
  obtain ⟨i, k, hlooks, hk, hhit⟩ := h
  obtain ⟨i', k', hlooks', hk', hhit'⟩ := h'
  rcases Nat.lt_trichotomy i i' with hlt | rfl | hlt
  · rw [hlooks'.before i k (by omega) hk] at hhit
    cases hhit
  · exact hlooks.offset.unique hlooks'.offset
  · rw [hlooks.before i' k' (by omega) hk'] at hhit'
    cases hhit'

theorem Finds.more {v : ℕ} (h : Finds m hit d len v) : v < len := by
  obtain ⟨_, _, hlooks, _, _⟩ := h
  exact hlooks.more

variable (hkey : ∀ a, (isKey a).run m = some (hit a))

include hkey

/-- The walk stops at the value of the first right key. -/
theorem walkEntries_place_iff {left p remaining : ℕ}
    (hstart : RunningOffset m d len (2 * i) o) (hcount : i + left = m.count d)
    (hnone : NoHit m hit d len i) :
    (walkEntries isKey placeFound none d len left o).run m = some (some (p, remaining)) ↔
      ∃ v, Finds m hit d len v ∧ p = d + v ∧ remaining = len - v := by
  induction left generalizing i o with
  | zero =>
      refine iff_of_false (by simp [walkEntries]) ?_
      rintro ⟨v, hfinds, -, -⟩
      obtain ⟨j, k, hle, hlooks, -, -⟩ := hfinds.at_or_after hnone
      have hlt := hlooks.count
      omega
  | succ left ih =>
      -- whatever is found is found from here on, so that there is an item here
      have hhere : ∀ {v}, Finds m hit d len v → o < len ∧ ∃ r,
          (skipCborItem (d + o) (len - o)).run m = some r ∧
            RunningOffset m d len (2 * i + 1) (u16 (o + r)) ∧ u16 (o + r) < len := by
        intro v hfinds
        obtain ⟨j, k, hle, hlooks, -, -⟩ := hfinds.at_or_after hnone
        exact hstart.item hlooks.offset hlooks.more (by omega)
      rw [walkEntries]
      by_cases hend : o ≥ len
      · rw [if_pos hend]
        refine iff_of_false (by simp) ?_
        rintro ⟨v, hfinds, -, -⟩
        have hmore := (hhere hfinds).1
        omega
      rw [if_neg hend, run_bind, hkey, Option.bind_some, run_bind]
      cases hskip : (skipCborItem (d + o) (len - o)).run m with
      | none =>
          refine iff_of_false (by simp) ?_
          rintro ⟨v, hfinds, -, -⟩
          obtain ⟨-, r, hr, -⟩ := hhere hfinds
          rw [hskip] at hr
          cases hr
      | some r =>
          have hvalue : RunningOffset m d len (2 * i + 1) (u16 (o + r)) :=
            .next hstart (by omega) (skipCborItem_run_iff.1 hskip)
          rw [Option.bind_some]
          by_cases hlast : u16 (o + r) ≥ len
          · rw [if_pos hlast]
            refine iff_of_false (by simp) ?_
            rintro ⟨v, hfinds, -, -⟩
            obtain ⟨-, r', hr', -, hmore⟩ := hhere hfinds
            rw [hskip, Option.some.injEq] at hr'
            rw [← hr'] at hmore
            omega
          rw [if_neg hlast]
          cases hhit : hit (d + o) with
          | true =>
              have hfinds : Finds m hit d len (u16 (o + r)) :=
                ⟨i, o, ⟨by omega, hvalue, by omega, fun i' o' hlt ho' =>
                  hnone i' (by omega) o' ho'⟩, hstart, hhit⟩
              rw [if_pos rfl, placeFound, run_pure]
              simp only [Option.some.injEq, Prod.mk.injEq]
              constructor
              · rintro ⟨rfl, rfl⟩
                exact ⟨_, hfinds, rfl, rfl⟩
              · rintro ⟨v, hv, rfl, rfl⟩
                rw [hv.unique hfinds]
                exact ⟨rfl, rfl⟩
          | false =>
              have hnext := hnone.succ hstart hhit
              rw [if_neg (by simp), run_bind]
              cases hskipValue :
                  (skipCborItem (d + u16 (o + r)) (len - u16 (o + r))).run m with
              | none =>
                  refine iff_of_false (by simp) ?_
                  rintro ⟨v, hfinds, -, -⟩
                  obtain ⟨j, k, hle, hlooks, -, -⟩ := hfinds.at_or_after hnext
                  obtain ⟨-, r', hr', -⟩ :=
                    hvalue.item hlooks.offset hlooks.more (by omega)
                  rw [hskipValue] at hr'
                  cases hr'
              | some value =>
                  rw [Option.bind_some]
                  exact ih (.next hvalue (by omega) (skipCborItem_run_iff.1 hskipValue))
                    (by omega) hnext

theorem walkMap_place_iff {p remaining : ℕ} :
    (walkMap isKey placeFound none none d len).run m = some (some (p, remaining)) ↔
      m.BeginsMap d len ∧ ∃ v, Finds m hit d len v ∧ p = d + v ∧ remaining = len - v := by
  rw [walkMap]
  by_cases hlen : len = 0
  · rw [if_pos hlen]
    exact iff_of_false (by simp) fun h => h.1.1 hlen
  rw [if_neg hlen, run_bind, run_byte, Option.bind_some]
  by_cases hmap : majorBits (m d) = 0xA0
  · rw [if_neg (not_not.2 hmap), run_bind, run_headCount, Option.bind_some,
      walkEntries_place_iff hkey .start (Nat.zero_add _) fun i hi => absurd hi (by omega)]
    exact (and_iff_right ⟨hlen, hmap⟩).symm
  · rw [if_pos hmap]
    exact iff_of_false (by simp) fun h => hmap h.1.2

end

/-- The item at `a` is the number as `get_cbor_map_value` reads it: an argument of two
bytes counts as zero. -/
def Mem.uintKey (m : Mem) (key a : ℕ) : Bool :=
  majorBits (m a) = 0x00 ∧ if infoBits (m a) = 25 then key = 0 else m.count a = key

theorem isUintKey_eq (key a : ℕ) : (isUintKey key a).run m = some (m.uintKey key a) :=
  isUintKey_run m key a

/-- Where the walk for an integer key stops. -/
def Mem.keyPlace (m : Mem) (d len key : ℕ) : Option (Option (ℕ × ℕ)) :=
  (walkMap (isUintKey key) placeFound none none d len).run m

theorem keyPlace_iff {key p remaining : ℕ} :
    m.keyPlace d len key = some (some (p, remaining)) ↔ m.BeginsMap d len ∧
      ∃ v, Finds m (m.uintKey key) d len v ∧ p = d + v ∧ remaining = len - v :=
  walkMap_place_iff (isUintKey_eq key)

/-! ## The accessors at the place -/

section

variable {α : Type} {isKey : ℕ → Rd Bool} {found : ℕ → ℕ → Rd α} {notMap missing : α}

theorem walkEntries_run_place {count offset : ℕ} :
    (walkEntries isKey found missing d len count offset).run m =
      ((walkEntries isKey placeFound none d len count offset).run m).bind fun place =>
        place.elim (some missing) fun q => (found q.1 q.2).run m := by
  induction count generalizing offset with
  | zero => rfl
  | succ count ih =>
      rw [walkEntries, walkEntries]
      by_cases hend : offset ≥ len
      · rw [if_pos hend, if_pos hend]
        rfl
      rw [if_neg hend, if_neg hend, run_bind, run_bind]
      cases hhit : (isKey (d + offset)).run m with
      | none => rfl
      | some hit =>
          rw [Option.bind_some, Option.bind_some, run_bind, run_bind]
          cases hskip : (skipCborItem (d + offset) (len - offset)).run m with
          | none => rfl
          | some r =>
              rw [Option.bind_some, Option.bind_some]
              by_cases hlast : u16 (offset + r) ≥ len
              · rw [if_pos hlast, if_pos hlast]
                rfl
              rw [if_neg hlast, if_neg hlast]
              cases hit with
              | true => rfl
              | false =>
                  rw [if_neg (by simp), if_neg (by simp), run_bind, run_bind]
                  cases (skipCborItem (d + u16 (offset + r)) (len - u16 (offset + r))).run m
                    with
                  | none => rfl
                  | some value => exact ih

/-- An accessor is what it makes of the place where the walk stops. -/
theorem walkMap_run_place (hmap : m.BeginsMap d len) :
    (walkMap isKey found notMap missing d len).run m =
      ((walkMap isKey placeFound none none d len).run m).bind fun place =>
        place.elim (some missing) fun q => (found q.1 q.2).run m := by
  obtain ⟨hlen, hmajor⟩ := hmap
  have hnot : ¬ majorBits (m d) ≠ 0xA0 := not_not.2 hmajor
  simp only [walkMap, hlen, hnot, if_false, run_bind, run_byte, Option.bind_some,
    run_headCount]
  exact walkEntries_run_place

theorem walkMap_run_keyPlace {key : ℕ} (hmap : m.BeginsMap d len) :
    (walkMap (isUintKey key) found notMap missing d len).run m =
      (m.keyPlace d len key).bind fun place =>
        place.elim (some missing) fun q => (found q.1 q.2).run m :=
  walkMap_run_place hmap

theorem walkMap_notMap (hmap : ¬ m.BeginsMap d len) :
    (walkMap isKey found notMap missing d len).run m = some notMap := by
  rw [walkMap]
  by_cases hlen : len = 0
  · rw [if_pos hlen]
    rfl
  · rw [if_neg hlen, run_bind, run_byte, Option.bind_some,
      if_pos fun h => hmap ⟨hlen, h⟩]
    rfl

end

end UnsoloKey
