import UnsoloKey.CanonicalRequest
import UnsoloKey.WalkChallenge
import Mathlib.Tactic

/-!
# The search for options

An option is not looked up in the options map.  `find_cbor_string` takes the first
place behind the head of that map, up to the end of the request, at which the text key
is followed by a boolean or by a string, whatever that place belongs to.
-/

namespace UnsoloKey

open Rd Cbor

/-! ## Places -/

/-- A byte which `find_cbor_string` takes for a value: the head of a string or a
boolean. -/
def IsOptionValue (b : UInt8) : Prop :=
  (majorBits b = 0x40 ∨ majorBits b = 0x60) ∨ b = 0xF4 ∨ b = 0xF5

/-- At position `i` of the bytes stands the text key, with a value behind it. -/
structure DecidesAt (m : Mem) (ptr len : ℕ) (key : List UInt8) (i : ℕ) : Prop where
  within : i + 1 + key.length < len
  head : (m (ptr + i)).toNat = 0x60 ||| key.length
  text : m.Holds (ptr + i + 1) key
  value : IsOptionValue (m (ptr + (i + 1 + key.length)))

/-- The value is the boolean `val`, or a string of the one byte `val`. -/
def SaysAt (m : Mem) (p : ℕ) (val : UInt8) : Prop :=
  if majorBits (m p) = 0x40 ∨ majorBits (m p) = 0x60 then
    infoBits (m p) = 24 ∧ m (p + 1) = 1 ∧ m (p + 2) = val ∨
      infoBits (m p) = 1 ∧ m (p + 1) = val
  else m p = val

/-- The first place which decides says `val`. -/
def FirstSays (m : Mem) (ptr len : ℕ) (key : List UInt8) (val : UInt8) : Prop :=
  ∃ i, DecidesAt m ptr len key i ∧ (∀ j < i, ¬ DecidesAt m ptr len key j) ∧
    SaysAt m (ptr + (i + 1 + key.length)) val

/-! ## The search -/

/-- The comparison which follows the search. -/
def optionIs (val : UInt8) : Option (ℕ × ℕ) → Rd Bool
  | some (p, 1) => do return (← byte p) = val
  | _ => return false

section

variable {m : Mem} {ptr len i left : ℕ} {key : List UInt8} {val : UInt8}

theorem hasOption_eq (ptr len : ℕ) (key : String) (val : UInt8) :
    hasOption ptr len key val = findCborString ptr len (ascii key) >>= optionIs val := by
  unfold hasOption
  congr 1

theorem optionIs_ne {p n : ℕ} (hn : n ≠ 1) : (optionIs val (some (p, n))).run m = some false := by
  match n with
  | 0 => rfl
  | 1 => exact absurd rfl hn
  | n + 2 => rfl

theorem optionIs_one {p : ℕ} :
    (optionIs val (some (p, 1))).run m = some (decide (m p = val)) := rfl

theorem findCborValue_value (val : UInt8) {valIdx : ℕ} (hidx : valIdx < len)
    (hvalue : IsOptionValue (m (ptr + valIdx))) :
    ∃ found b, (findCborValue ptr len valIdx).run m = some (some found) ∧
      (optionIs val (some found)).run m = some b ∧ (b = true ↔ SaysAt m (ptr + valIdx) val) := by
  have hnot : ¬ valIdx ≥ len := Nat.not_le.2 hidx
  rw [findCborValue, if_neg hnot, run_bind, run_byte, Option.bind_some]
  unfold SaysAt
  by_cases hstring : majorBits (m (ptr + valIdx)) = 0x40 ∨ majorBits (m (ptr + valIdx)) = 0x60
  · rw [if_pos hstring, if_pos hstring]
    by_cases hlong : infoBits (m (ptr + valIdx)) = 24
    · rw [if_pos hlong, run_bind, run_byte, Option.bind_some, run_pure]
      by_cases hone : (m (ptr + valIdx + 1)).toNat = 1
      · have hbyte : m (ptr + valIdx + 1) = 1 := UInt8.toNat_inj.1 hone
        exact ⟨_, _, rfl, by rw [hone, optionIs_one], by simp [hlong, hbyte]⟩
      · have hbyte : m (ptr + valIdx + 1) ≠ 1 := fun h => hone (congrArg UInt8.toNat h)
        exact ⟨_, _, rfl, optionIs_ne hone, by simp [hlong, hbyte]⟩
    · rw [if_neg hlong, run_pure]
      by_cases hone : infoBits (m (ptr + valIdx)) = 1
      · exact ⟨_, _, rfl, by rw [hone, optionIs_one], by simp [hone]⟩
      · exact ⟨_, _, rfl, optionIs_ne hone, by simp [hlong, hone]⟩
  · rw [if_neg hstring, if_neg hstring, if_pos (hvalue.resolve_left hstring), run_pure]
    exact ⟨_, _, rfl, optionIs_one, by simp⟩

theorem findCborValue_none {valIdx : ℕ}
    (hnone : ¬ (valIdx < len ∧ IsOptionValue (m (ptr + valIdx)))) :
    (findCborValue ptr len valIdx).run m = some none := by
  rw [findCborValue]
  by_cases hidx : valIdx < len
  · have hvalue : ¬ IsOptionValue (m (ptr + valIdx)) := fun h => hnone ⟨hidx, h⟩
    rw [IsOptionValue, not_or] at hvalue
    rw [if_neg (Nat.not_le.2 hidx), run_bind, run_byte, Option.bind_some, if_neg hvalue.1,
      if_neg hvalue.2, run_pure]
  · rw [if_pos (Nat.not_lt.1 hidx), run_pure]

/-- One position of the search. -/
theorem findCborFrom_succ (hlen : i + 1 + key.length < 65536) :
    (findCborFrom key ptr len (left + 1) i).run m =
      if (m (ptr + i)).toNat = 0x60 ||| key.length ∧
          m.slice (ptr + i + 1) key.length = key then
        ((findCborValue ptr len (i + 1 + key.length)).run m).bind fun found =>
          match found with
          | some found => some (some found)
          | none => (findCborFrom key ptr len left (i + 1)).run m
      else (findCborFrom key ptr len left (i + 1)).run m := by
  rw [findCborFrom, run_bind, run_byte, Option.bind_some, run_ite]
  by_cases hhead : (m (ptr + i)).toNat = 0x60 ||| key.length
  · have hnot : ¬ (m (ptr + i)).toNat ≠ 0x60 ||| key.length := not_not.2 hhead
    rw [if_neg hnot, run_bind, run_bytes, Option.bind_some, run_ite]
    by_cases hkey : m.slice (ptr + i + 1) key.length = key
    · rw [if_neg (not_not.2 hkey), if_pos ⟨hhead, hkey⟩, run_bind, u16_of_lt hlen]
      congr 1
      funext found
      cases found <;> rfl
    · rw [if_pos hkey, if_neg fun h => hkey h.2]
  · rw [if_pos hhead, if_neg fun h => hhead h.1]

/-- The search stops at the first place which decides. -/
theorem findCborFrom_run (m : Mem) (ptr : ℕ) (hlen : len < 65536) (hend : i + left + key.length ≤ len) :
    ((findCborFrom key ptr len left i).run m = some none ∧
      ∀ j, i ≤ j → j < i + left → ¬ DecidesAt m ptr len key j) ∨
    ∃ j found, i ≤ j ∧ DecidesAt m ptr len key j ∧
      (∀ k, i ≤ k → k < j → ¬ DecidesAt m ptr len key k) ∧
      (findCborFrom key ptr len left i).run m = some (some found) ∧
      (findCborValue ptr len (j + 1 + key.length)).run m = some (some found) := by
  induction left generalizing i with
  | zero => exact .inl ⟨rfl, fun j hj hlt => absurd hlt (by omega)⟩
  | succ left ih =>
      rw [findCborFrom_succ (by omega)]
      have hrest : ¬ DecidesAt m ptr len key i →
          ((findCborFrom key ptr len left (i + 1)).run m = some none ∧
            ∀ j, i ≤ j → j < i + (left + 1) → ¬ DecidesAt m ptr len key j) ∨
          ∃ j found, i ≤ j ∧ DecidesAt m ptr len key j ∧
            (∀ k, i ≤ k → k < j → ¬ DecidesAt m ptr len key k) ∧
            (findCborFrom key ptr len left (i + 1)).run m = some (some found) ∧
            (findCborValue ptr len (j + 1 + key.length)).run m = some (some found) := by
        intro hmiss
        have hsplit : ∀ j, i ≤ j → j = i ∨ i + 1 ≤ j := fun j hj => by omega
        rcases ih (i := i + 1) (by omega) with ⟨hrun, hnone⟩ |
          ⟨j, found, hij, hdecides, hbefore, hrun, hvalue⟩
        · refine .inl ⟨hrun, fun j hj hlt => ?_⟩
          rcases hsplit j hj with rfl | hj
          · exact hmiss
          · exact hnone j hj (by omega)
        · refine .inr ⟨j, found, by omega, hdecides, fun k hk hlt => ?_, hrun, hvalue⟩
          rcases hsplit k hk with rfl | hk
          · exact hmiss
          · exact hbefore k hk hlt
      by_cases hmatch : (m (ptr + i)).toNat = 0x60 ||| key.length ∧
          m.slice (ptr + i + 1) key.length = key
      · rw [if_pos hmatch]
        by_cases hvalue : i + 1 + key.length < len ∧
            IsOptionValue (m (ptr + (i + 1 + key.length)))
        · obtain ⟨found, -, hfound, -⟩ :=
            findCborValue_value 0 hvalue.1 hvalue.2
          rw [hfound]
          exact .inr ⟨i, found, le_rfl, ⟨hvalue.1, hmatch.1, hmatch.2, hvalue.2⟩,
            fun k hk hlt => absurd hlt (by omega), rfl, hfound⟩
        · rw [findCborValue_none hvalue]
          exact hrest fun h => hvalue ⟨h.within, h.value⟩
      · rw [if_neg hmatch]
        exact hrest fun h => hmatch ⟨h.head, h.text⟩

/-- The option is found exactly where the first place which decides says so. -/
theorem hasOption_iff (hlen : len < 65536) (key : String) :
    ∃ b, (hasOption ptr len key val).run m = some b ∧
      (b = true ↔ FirstSays m ptr len (ascii key) val) := by
  have hnone : (∀ j, ¬ DecidesAt m ptr len (ascii key) j) →
      ¬ FirstSays m ptr len (ascii key) val := fun h ⟨i, hi, _⟩ => h i hi
  rw [hasOption_eq, run_bind, findCborString]
  by_cases hshort : len ≤ (ascii key).length
  · rw [if_pos hshort]
    refine ⟨false, rfl, iff_of_false Bool.false_ne_true (hnone fun j hj => ?_)⟩
    have hwithin := hj.within
    omega
  · rw [if_neg hshort]
    have hend : 0 + (len - (ascii key).length) + (ascii key).length ≤ len := by omega
    rcases findCborFrom_run m ptr hlen hend with ⟨hrun, hmiss⟩ |
      ⟨j, found, -, hdecides, hbefore, hrun, hvalue⟩
    · rw [hrun]
      refine ⟨false, rfl, iff_of_false Bool.false_ne_true (hnone fun j hj => ?_)⟩
      have hwithin := hj.within
      exact hmiss j (Nat.zero_le j) (by omega) hj
    · obtain ⟨found', b, hfound', hb, hiff⟩ :=
        findCborValue_value val hdecides.within hdecides.value
      obtain rfl : found = found' :=
        Option.some.inj (Option.some.inj (hvalue.symm.trans hfound'))
      rw [hrun, Option.bind_some]
      refine ⟨b, hb, hiff.trans ⟨fun hsearch => ⟨j, hdecides, fun k hk =>
        hbefore k (Nat.zero_le k) hk, hsearch⟩, ?_⟩⟩
      rintro ⟨i, hi, hfirst, hsearch⟩
      have hij : i = j := by
        rcases lt_trichotomy i j with hlt | heq | hlt
        · exact absurd hi (hbefore i (Nat.zero_le i) hlt)
        · exact heq
        · exact absurd hdecides (hfirst j hlt)
      rwa [← hij]

end

end UnsoloKey
