import UnsoloKey.OptionSearch
import UnsoloKey.WalkBounds
import Mathlib.Tactic

/-!
# The parsers and the end of the request

All seven parsers test that an item starts inside the buffer and none that it ends
there.  Each parser stays inside the buffer exactly if the heads on its way are complete
and what it returns was declared to end in time.
-/

namespace UnsoloKey

open Rd

/-! ## Accessors with integer keys -/

section

variable {α : Type} {m : Mem} {d len p rest : ℕ} {isKey : ℕ → Rd Bool}
  {found : ℕ → ℕ → Rd α} {notMap missing : α} {hit : ℕ → Bool} {P : α → Prop}
  {fits : ℕ → ℕ → Prop}

end

/-! ## The accessor with a text key -/

section

variable {m : Mem} {d len p rest : ℕ} {key : List UInt8}

end

/-! ## The search for a text -/

/-- The value behind the place at which the search stops fits. -/
def SearchFits (m : Mem) (key : List UInt8) (fits : ℕ → ℕ → Prop) (d len : ℕ) : Prop :=
  ∀ i, DecidesAt m d len key i → (∀ j < i, ¬ DecidesAt m d len key j) →
    fits (d + (i + 1 + key.length)) (len - (i + 1 + key.length))

section

variable {m : Mem} {d len lo i v left : ℕ} {key : List UInt8} {fits : ℕ → ℕ → Prop}

theorem findCborValue_span_none {P : Option (ℕ × ℕ) → Prop} (hlo : lo ≤ d)
    (hnone : ¬ (v < len ∧ IsOptionValue (m (d + v)))) :
    (findCborValue d len v).Meets m True (InSpan lo (d + len)) P ↔ P none := by
  rw [meets_of_run (findCborValue_none hnone), and_iff_right]
  intro a ha
  rw [findCborValue] at ha
  by_cases hmore : v < len
  · have hvalue : ¬ IsOptionValue (m (d + v)) := fun h => hnone ⟨hmore, h⟩
    rw [IsOptionValue, not_or] at hvalue
    rw [if_neg (by omega), reads_bind, run_byte, Option.elim_some, if_neg hvalue.1,
      if_neg hvalue.2, reads_byte, reads_pure, List.append_nil, List.mem_singleton] at ha
    exact ⟨by omega, by omega⟩
  · rw [if_pos (by omega)] at ha
    exact absurd ha List.not_mem_nil

/-- The condition for a search which has come to position `i`. -/
def SearchFitsFrom (m : Mem) (key : List UInt8) (fits : ℕ → ℕ → Prop) (d len i : ℕ) : Prop :=
  ∀ j, i ≤ j → DecidesAt m d len key j → (∀ j', i ≤ j' → j' < j → ¬ DecidesAt m d len key j') →
    fits (d + (j + 1 + key.length)) (len - (j + 1 + key.length))

theorem searchFitsFrom_of_decides (h : DecidesAt m d len key i) :
    SearchFitsFrom m key fits d len i ↔
      fits (d + (i + 1 + key.length)) (len - (i + 1 + key.length)) := by
  constructor
  · exact fun hall => hall i le_rfl h fun j hij hlt => absurd hij (by omega)
  · intro hfits j hij hj hfirst
    rcases Nat.eq_or_lt_of_le hij with rfl | hlt
    · exact hfits
    · exact absurd h (hfirst i le_rfl hlt)

theorem searchFitsFrom_of_not_decides (h : ¬ DecidesAt m d len key i) :
    SearchFitsFrom m key fits d len i ↔ SearchFitsFrom m key fits d len (i + 1) := by
  constructor
  · intro hall j hij hj hfirst
    refine hall j (by omega) hj fun j' hij' hlt => ?_
    rcases Nat.eq_or_lt_of_le hij' with rfl | hlater
    · exact h
    · exact hfirst j' hlater hlt
  · intro hall j hij hj hfirst
    rcases Nat.eq_or_lt_of_le hij with rfl | hlater
    · exact absurd hj h
    · exact hall j hlater hj fun j' hij' hlt => hfirst j' (by omega) hlt

section

variable {P : Option (ℕ × ℕ) → Prop} (hnone : P none)
  (hfound : ∀ v < len, IsOptionValue (m (d + v)) → ∀ Q : Option (ℕ × ℕ) → Prop,
    (∀ found, Q (some found) ↔ P (some found)) →
      ((findCborValue d len v).Meets m True (InSpan lo (d + len)) Q ↔ fits (d + v) (len - v)))
  (hlen : len < 65536) (hlo : lo ≤ d)

include hnone hfound hlen hlo

theorem findCborFrom_span (hend : i + left + key.length = len) :
    (findCborFrom key d len left i).Meets m True (InSpan lo (d + len)) P ↔
      SearchFitsFrom m key fits d len i := by
  induction left generalizing i with
  | zero =>
      refine iff_of_true hnone fun j hij hj => ?_
      have hwithin := hj.within
      omega
  | succ left ih =>
      have hrest := ih (i := i + 1) (by omega)
      have hhere : InSpan lo (d + len) (d + i) := ⟨by omega, by omega⟩
      rw [findCborFrom, meets_bind, meets_byte, and_iff_right hhere]
      by_cases hhead : (m (d + i)).toNat = 0x60 ||| key.length
      · have htext : ∀ a, d + i + 1 ≤ a → a < d + i + 1 + key.length →
            InSpan lo (d + len) a := fun a ha hlt => ⟨by omega, by omega⟩
        rw [if_neg (not_not.2 hhead), meets_bind, meets_bytes, and_iff_right htext]
        by_cases hkey : m.slice (d + i + 1) key.length = key
        · rw [if_neg (not_not.2 hkey), meets_bind, u16_of_lt (by omega)]
          by_cases hvalue : i + 1 + key.length < len ∧
              IsOptionValue (m (d + (i + 1 + key.length)))
          · rw [searchFitsFrom_of_decides ⟨hvalue.1, hhead, hkey, hvalue.2⟩]
            exact hfound _ hvalue.1 hvalue.2 _ fun found => Iff.rfl
          · rw [searchFitsFrom_of_not_decides fun h => hvalue ⟨h.within, h.value⟩, ← hrest]
            exact findCborValue_span_none hlo hvalue
        · rw [if_pos hkey]
          exact hrest.trans (searchFitsFrom_of_not_decides fun h => hkey h.text).symm
      · rw [if_pos hhead]
        exact hrest.trans (searchFitsFrom_of_not_decides fun h => hhead h.head).symm

/-- The search itself stays inside the buffer; what it makes of the value need not. -/
theorem findCborString_span :
    (findCborString d len key).Meets m True (InSpan lo (d + len)) P ↔
      SearchFits m key fits d len := by
  have hfrom : SearchFitsFrom m key fits d len 0 ↔ SearchFits m key fits d len := by
    simp [SearchFitsFrom, SearchFits]
  rw [findCborString, ← hfrom]
  by_cases hshort : len ≤ key.length
  · rw [if_pos hshort]
    refine iff_of_true hnone fun j hij hj => ?_
    have hwithin := hj.within
    omega
  · rw [if_neg hshort, findCborFrom_span hnone hfound hlen hlo (by omega)]

end

end

/-! ## All parsers -/

/-- The key test of `get_cbor_map_neg_value`, on the bytes. -/
def Mem.negKey (m : Mem) (negVal a : ℕ) : Bool :=
  majorBits (m a) = 0x20 ∧ 0 < negVal ∧ (m a).toNat = 0x20 ||| (negVal - 1)

/-- A call of one of the parsers. -/
inductive Parser where
  | skipItem
  | mapValue (key : ℕ)
  | mapInt (key : ℕ)
  | mapItem (key : ℕ)
  | mapNegValue (negVal : ℕ)
  | mapGetString (key : List UInt8)
  | findString (key : List UInt8)

def MapValue.range (v : MapValue) : ℕ × ℕ := (v.ptr, v.len)

def ItemResult.range : ItemResult → Option (ℕ × ℕ)
  | .item p n => some (p, n)
  | _ => none

/-- The call, with the pointer and the length which it returns, if it returns a pointer. -/
def Parser.call (d len : ℕ) : Parser → Rd (Option (ℕ × ℕ))
  | .skipItem => do
      let _ ← skipCborItem d len
      return none
  | .mapValue key => do return (← getCborMapValue d len key).map MapValue.range
  | .mapInt key => do
      let _ ← getCborMapInt d len key
      return none
  | .mapItem key => do return (← getCborMapItem d len key).range
  | .mapNegValue negVal => do return (← getCborMapNegValue d len negVal).map MapValue.range
  | .mapGetString key => cborMapGetString d len key
  | .findString key => findCborString d len key

section

variable {m : Mem} {d len p rest key negVal : ℕ}

theorem isUintKey_reads (p : ℕ) : ∀ a ∈ (isUintKey key p).reads m,
    p ≤ a ∧ a < p + m.headLen p := by
  intro a ha
  have hpos := Mem.headLen_pos (m := m) p
  by_cases hmajor : majorBits (m p) = 0x00
  · by_cases h24 : infoBits (m p) = 24
    · have hhead : m.headLen p = 2 := by rw [Mem.headLen, if_pos h24]
      simp only [isUintKey, reads_bind, reads_byte, run_byte, Option.elim_some, hmajor, h24,
        ne_eq, not_true_eq_false, if_false, if_true, reads_pure, List.append_nil,
        List.cons_append, List.nil_append, List.mem_cons, List.not_mem_nil, or_false] at ha
      omega
    · have hreads : (isUintKey key p).reads m = [p] := by
        by_cases h25 : infoBits (m p) = 25
        · simp [isUintKey, hmajor, h25]
        · simp [isUintKey, hmajor, h24]
      rw [hreads, List.mem_singleton] at ha
      omega
  · have hreads : (isUintKey key p).reads m = [p] := by simp [isUintKey, hmajor]
    rw [hreads, List.mem_singleton] at ha
    omega

theorem isNegKey_eq (a : ℕ) : (isNegKey negVal a).run m = some (m.negKey negVal a) := rfl

theorem isNegKey_reads (p : ℕ) : ∀ a ∈ (isNegKey negVal p).reads m,
    p ≤ a ∧ a < p + m.headLen p := by
  intro a ha
  have hpos := Mem.headLen_pos (m := m) p
  obtain rfl : a = p := List.mem_singleton.1 ha
  omega

end

end UnsoloKey
