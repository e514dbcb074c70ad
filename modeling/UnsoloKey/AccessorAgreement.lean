import UnsoloKey.WalkPlaces
import Mathlib.Tactic

/-!
# Three accessors and one key

`get_cbor_map_value`, `get_cbor_map_int` and `get_cbor_map_item` repeat one walk, and
the dispatcher asks more than one of them for the same key.  They are taken here with
their output parameters.  Where the walk comes to the key they mean the same entry;
where it does not, `get_cbor_map_item` alone ends without a `return`.
-/

namespace UnsoloKey

open Rd

/-! ## Output parameters -/

/-- `get_cbor_map_value`: the pointer, `*out_len` and `*out_type`. -/
def getCborMapValueOut (data len key outLen : ℕ) (outType : UInt8) :
    Rd (Option ℕ × ℕ × UInt8) :=
  walkMap (isUintKey key)
    (fun at_ _ => do
      let header ← byte at_
      let (count, headerLen) ← headCount at_ (infoBits header)
      return (some (at_ + headerLen), count, majorBits header))
    (none, outLen, outType) (none, outLen, outType) data len

/-- `get_cbor_map_int`: the result and `*out_val`. -/
def getCborMapIntOut (data len key outVal : ℕ) : Rd (Bool × ℕ) :=
  walkMap (isUintKey key)
    (fun at_ _ => do
      let header ← byte at_
      if majorBits header ≠ 0x00 then return (false, outVal)
      if infoBits header ≤ 25 then
        let (value, _) ← headCount at_ (infoBits header)
        return (true, value)
      else
        return (false, outVal))
    (false, outVal) (false, outVal) data len

/-- `get_cbor_map_item`: what it returns and `*out_len`.  The end of the loop is the end
of the function, so a call which does not find the key returns nothing at all. -/
def getCborMapItemOut (data len key outLen : ℕ) : Rd (Option (Option ℕ) × ℕ) :=
  walkMap (isUintKey key)
    (fun at_ remaining => do
      let itemLen ← skipCborItem at_ remaining
      return (some (some at_), itemLen))
    (some none, outLen) (none, outLen) data len

/-- The results of the three calls for one key. -/
structure ResultsAgree (m : Mem) (outLen outLen' : ℕ) (value : Option ℕ × ℕ × UInt8)
    (item : Option (Option ℕ) × ℕ) (int : Bool × ℕ) : Prop where
  defined : item.1 ≠ none
  found : value.1 ≠ none ↔ ∃ p, item.1 = some (some p)
  head : ∀ ptr p, value.1 = some ptr → item.1 = some (some p) →
    value = (some (p + m.headLen p), m.count p, majorBits (m p))
  number : int.1 = true → ∃ p, item.1 = some (some p) ∧ majorBits (m p) = 0x00 ∧
    int.2 = m.count p
  absent : value.1 = none → item = (some none, outLen') ∧ value.2.1 = outLen

/-- The three accessors agree on the entry of the key, whatever their outputs hold
before. -/
def AccessorsAgree (m : Mem) (d len key : ℕ) : Prop :=
  ∀ (outLen outLen' outVal : ℕ) (outType : UInt8), ∃ value item int,
    (getCborMapValueOut d len key outLen outType).run m = some value ∧
    (getCborMapItemOut d len key outLen').run m = some item ∧
    (getCborMapIntOut d len key outVal).run m = some int ∧
    ResultsAgree m outLen outLen' value item int

section

variable {m : Mem} {d len key : ℕ}

/-! ## The outputs and the results -/

theorem getCborMapValueOut_run (outLen : ℕ) (outType : UInt8) :
    (getCborMapValueOut d len key outLen outType).run m =
      ((getCborMapValue d len key).run m).map fun result =>
        result.elim (none, outLen, outType) fun v => (some v.ptr, v.len, v.type) := by
  unfold getCborMapValueOut getCborMapValue
  by_cases hmap : m.BeginsMap d len
  · rw [walkMap_run_keyPlace hmap, walkMap_run_keyPlace hmap]
    cases m.keyPlace d len key with
    | none => rfl
    | some place =>
        cases place with
        | none => rfl
        | some q => simp [valuePayload_eq]
  · rw [walkMap_notMap hmap, walkMap_notMap hmap]
    rfl

theorem getCborMapIntOut_run (outVal : ℕ) :
    (getCborMapIntOut d len key outVal).run m =
      ((getCborMapInt d len key).run m).map fun result =>
        result.elim (false, outVal) fun n => (true, n) := by
  unfold getCborMapIntOut getCborMapInt
  by_cases hmap : m.BeginsMap d len
  · rw [walkMap_run_keyPlace hmap, walkMap_run_keyPlace hmap]
    cases m.keyPlace d len key with
    | none => rfl
    | some place =>
        cases place with
        | none => rfl
        | some q =>
            by_cases hmajor : majorBits (m q.1) = 0x00
            · by_cases hinfo : infoBits (m q.1) ≤ 25
              · simp [valueInt, hmajor, hinfo]
              · simp [valueInt, hmajor, hinfo]
            · simp [valueInt, hmajor]
  · rw [walkMap_notMap hmap, walkMap_notMap hmap]
    rfl

theorem getCborMapItemOut_run (outLen : ℕ) :
    (getCborMapItemOut d len key outLen).run m =
      ((getCborMapItem d len key).run m).map fun result =>
        match result with
        | .null => (some none, outLen)
        | .item p n => (some (some p), n)
        | .fallsOff => (none, outLen) := by
  unfold getCborMapItemOut getCborMapItem
  by_cases hmap : m.BeginsMap d len
  · rw [walkMap_run_keyPlace hmap, walkMap_run_keyPlace hmap]
    cases m.keyPlace d len key with
    | none => rfl
    | some place =>
        cases place with
        | none => rfl
        | some q =>
            simp only [Option.bind_some, Option.elim_some, run_bind]
            cases (skipCborItem q.1 q.2).run m <;> rfl
  · rw [walkMap_notMap hmap, walkMap_notMap hmap]
    rfl

/-! ## The three outcomes of a walk -/

theorem accessors_notMap (key : ℕ) (hmap : ¬ m.BeginsMap d len) :
    (getCborMapValue d len key).run m = some none ∧
      (getCborMapItem d len key).run m = some .null ∧
      (getCborMapInt d len key).run m = some none :=
  ⟨walkMap_notMap hmap, walkMap_notMap hmap, walkMap_notMap hmap⟩

theorem accessors_missing (hmap : m.BeginsMap d len)
    (hplace : m.keyPlace d len key = some none) :
    (getCborMapValue d len key).run m = some none ∧
      (getCborMapItem d len key).run m = some .fallsOff ∧
      (getCborMapInt d len key).run m = some none := by
  unfold getCborMapValue getCborMapItem getCborMapInt
  rw [walkMap_run_keyPlace hmap, walkMap_run_keyPlace hmap, walkMap_run_keyPlace hmap, hplace]
  exact ⟨rfl, rfl, rfl⟩

theorem valueInt_eq (m : Mem) (at_ remaining : ℕ) : (valueInt at_ remaining).run m =
    some (if majorBits (m at_) = 0x00 ∧ infoBits (m at_) ≤ 25 then some (m.count at_)
      else none) := by
  by_cases hmajor : majorBits (m at_) = 0x00
  · by_cases hinfo : infoBits (m at_) ≤ 25
    · simp [valueInt, hmajor, hinfo]
    · simp [valueInt, hmajor, hinfo]
  · simp [valueInt, hmajor]

/-- The accessors where the walk comes to the value at offset `o`. -/
theorem accessors_found {o : ℕ} (hmap : m.BeginsMap d len)
    (hfinds : Finds m (m.uintKey key) d len o) :
    (getCborMapValue d len key).run m =
        some (some ⟨d + o + m.headLen (d + o), m.count (d + o), majorBits (m (d + o))⟩) ∧
      (getCborMapItem d len key).run m =
        ((skipCborItem (d + o) (len - o)).run m).map (.item (d + o)) ∧
      (getCborMapInt d len key).run m =
        some (if majorBits (m (d + o)) = 0x00 ∧ infoBits (m (d + o)) ≤ 25 then
          some (m.count (d + o)) else none) := by
  have hplace : m.keyPlace d len key = some (some (d + o, len - o)) :=
    keyPlace_iff.2 ⟨hmap, o, hfinds, rfl, rfl⟩
  unfold getCborMapValue getCborMapItem getCborMapInt
  rw [walkMap_run_keyPlace hmap, walkMap_run_keyPlace hmap, walkMap_run_keyPlace hmap, hplace]
  refine ⟨valuePayload_eq m (d + o) (len - o), ?_, valueInt_eq m (d + o) (len - o)⟩
  change (Rd.run _ m) = _
  rw [run_bind]
  cases (skipCborItem (d + o) (len - o)).run m <;> rfl

/-- A walk which ends comes to the key or does not have it. -/
theorem place_cases (hitem : (getCborMapItem d len key).run m ≠ none)
    (hmap : m.BeginsMap d len) :
    m.keyPlace d len key = some none ∨
      ∃ o r, Finds m (m.uintKey key) d len o ∧
        (skipCborItem (d + o) (len - o)).run m = some r := by
  cases hplace : m.keyPlace d len key with
  | none =>
      rw [getCborMapItem, walkMap_run_keyPlace hmap, hplace] at hitem
      exact absurd rfl hitem
  | some place =>
      cases place with
      | none => exact .inl rfl
      | some q =>
          obtain ⟨-, o, hfinds, hp, hremaining⟩ :=
            keyPlace_iff.1 hplace
          refine .inr ⟨o, ?_⟩
          rw [(accessors_found hmap hfinds).2.1] at hitem
          cases hskip : (skipCborItem (d + o) (len - o)).run m with
          | none =>
              rw [hskip] at hitem
              exact absurd rfl hitem
          | some r => exact ⟨r, hfinds, rfl⟩

end

/-- Whenever they end, the accessors agree on a key exactly if the buffer is not that of
a map or the walk comes to an entry with the key. -/
theorem accessorsAgree_iff (m : Mem) (d len key : ℕ)
    (hitem : (getCborMapItem d len key).run m ≠ none) :
    AccessorsAgree m d len key ↔
      ¬ m.BeginsMap d len ∨ ∃ o, Finds m (m.uintKey key) d len o := by
  constructor
  · intro hagree
    by_contra hneither
    rw [not_or, not_not] at hneither
    obtain ⟨hmap, hmissing⟩ := hneither
    rcases place_cases hitem hmap with hplace | ⟨o, r, hfinds, -⟩
    · obtain ⟨value, item, int, -, hrun, -, hresults⟩ := hagree 0 0 0 0
      rw [getCborMapItemOut_run, (accessors_missing hmap hplace).2.1] at hrun
      obtain rfl := Option.some.inj hrun
      exact hresults.defined rfl
    · exact hmissing ⟨o, hfinds⟩
  · intro hcases outLen outLen' outVal outType
    simp only [getCborMapValueOut_run, getCborMapItemOut_run, getCborMapIntOut_run]
    by_cases hmap : m.BeginsMap d len
    · obtain ⟨o, hfinds⟩ := hcases.resolve_left (not_not.2 hmap)
      obtain ⟨hvalue, hitemRun, hint⟩ := accessors_found hmap hfinds
      rw [hitemRun] at hitem
      cases hskip : (skipCborItem (d + o) (len - o)).run m with
      | none =>
          rw [hskip] at hitem
          exact absurd rfl hitem
      | some r =>
          rw [hvalue, hitemRun, hskip, hint]
          refine ⟨_, _, _, rfl, rfl, rfl, ?_⟩
          exact {
            defined := by simp
            found := by simp
            head := by
              intro ptr p _ hp
              obtain rfl := Option.some.inj (Option.some.inj hp)
              rfl
            number := by
              intro hfound
              refine ⟨d + o, rfl, ?_⟩
              by_cases hnumber :
                  majorBits (m (d + o)) = 0x00 ∧ infoBits (m (d + o)) ≤ 25
              · rw [if_pos hnumber]
                exact ⟨hnumber.1, rfl⟩
              · rw [if_neg hnumber] at hfound
                cases hfound
            absent := by
              intro habsent
              cases habsent }
    · obtain ⟨hvalue, hitemRun, hint⟩ := accessors_notMap key hmap
      rw [hvalue, hitemRun, hint]
      refine ⟨_, _, _, rfl, rfl, rfl, ?_⟩
      exact {
        defined := by simp
        found := by simp
        head := by
          intro ptr p hptr _
          cases hptr
        number := by
          intro hfound
          cases hfound
        absent := fun _ => ⟨rfl, rfl⟩ }

/-- The map `{1: 2}`. -/
def oneEntry : Mem := fun i => [0xA1, 0x01, 0x02].getD i 0

theorem accessorsAgree_oneEntry : AccessorsAgree oneEntry 0 3 1 := by
  have hplace : oneEntry.keyPlace 0 3 1 = some (some (2, 1)) := by decide
  obtain ⟨-, v, hfinds, -, -⟩ := keyPlace_iff.1 hplace
  exact (accessorsAgree_iff oneEntry 0 3 1 (by decide)).2 (.inr ⟨v, hfinds⟩)

/-- A key which the map does not have: `get_cbor_map_item` returns nothing. -/
theorem item_without_return :
    ¬ ∀ (m : Mem) (d len key : ℕ), (getCborMapItem d len key).run m ≠ none →
      AccessorsAgree m d len key := by
  intro hclaim
  obtain ⟨value, item, int, -, hrun, -, hresults⟩ :=
    hclaim oneEntry 0 3 5 (by decide) 0 0 0 0
  have hnothing : (getCborMapItemOut 0 3 5 0).run oneEntry = some (none, 0) := by decide
  rw [hnothing] at hrun
  obtain rfl := Option.some.inj hrun
  exact hresults.defined rfl

end UnsoloKey
