import UnsoloKey.AccessorAgreement
import UnsoloKey.ParserBounds
import Mathlib.Tactic

/-!
# What a lookup finds, and how far it looks

For every lookup of a command there are two descriptions by the lengths which the bytes
declare: what it finds, if it returns, and the condition under which all the bytes which
it looks at lie below an address.  The payload behind what is found belongs to neither:
that is for the one who reads it.
-/

namespace UnsoloKey

open Rd

/-- The only value with the property, if there is one. -/
noncomputable def theOnly {α : Type} (R : α → Prop) : Option α :=
  open Classical in if h : ∃ a, R a then some h.choose else none

theorem theOnly_eq_some_iff {α : Type} {R : α → Prop} (hunique : ∀ a b, R a → R b → a = b)
    {a : α} : theOnly R = some a ↔ R a := by
  unfold theOnly
  constructor
  · intro h
    split at h
    · rename_i hex
      rw [← Option.some.inj h]
      exact hex.choose_spec
    · cases h
  · intro h
    have hex : ∃ a, R a := ⟨a, h⟩
    rw [dif_pos hex, hunique _ _ hex.choose_spec h]

/-! ## Maps with integer keys -/

/-- Where the value of the first right key stands. -/
noncomputable def Mem.place (m : Mem) (hit : ℕ → Bool) (d len : ℕ) : Option ℕ :=
  theOnly fun p => m.BeginsMap d len ∧ ∃ o, Finds m hit d len o ∧ p = d + o

section

variable {m : Mem} {hit : ℕ → Bool} {d len n p : ℕ}

theorem place_eq_some_iff : m.place hit d len = some p ↔
    m.BeginsMap d len ∧ ∃ o, Finds m hit d len o ∧ p = d + o := by
  refine theOnly_eq_some_iff ?_
  rintro _ _ ⟨-, o, ho, rfl⟩ ⟨-, o', ho', rfl⟩
  rw [ho.unique ho']

theorem place_bounds (h : m.place hit d len = some p) : d ≤ p ∧ p < d + len := by
  obtain ⟨-, o, ho, rfl⟩ := place_eq_some_iff.1 h
  have hmore := ho.more
  omega

section

variable {α : Type} {isKey : ℕ → Rd Bool} {found : ℕ → ℕ → Rd α} {notMap missing : α}
  {fits : ℕ → ℕ → Prop} (hkey : ∀ a, (isKey a).run m = some (hit a))

include hkey

theorem place_eq_some_iff_run : m.place hit d len = some p ↔
    (walkMap isKey placeFound none none d len).run m = some (some (p, d + len - p)) := by
  rw [place_eq_some_iff, walkMap_place_iff hkey]
  refine and_congr_right fun _ => exists_congr fun o => and_congr_right fun _ => ?_
  omega

/-- At the place an accessor does what it does with a value. -/
theorem walkMap_run_at (hp : m.place hit d len = some p) :
    (walkMap isKey found notMap missing d len).run m = (found p (d + len - p)).run m := by
  rw [walkMap_run_place (place_eq_some_iff.1 hp).1, (place_eq_some_iff_run hkey).1 hp]
  rfl

/-- Without a place an accessor says so, if it returns. -/
theorem walkMap_run_missing (hp : m.place hit d len = none) {r : α}
    (h : (walkMap isKey found notMap missing d len).run m = some r) :
    r = missing ∧ m.BeginsMap d len ∨ r = notMap ∧ ¬ m.BeginsMap d len := by
  by_cases hmap : m.BeginsMap d len
  · rw [walkMap_run_place hmap, Option.bind_eq_some_iff] at h
    obtain ⟨place, hplace, hr⟩ := h
    cases place with
    | none => exact .inl ⟨(Option.some.inj hr).symm, hmap⟩
    | some q =>
        obtain ⟨-, o, ho, hq, -⟩ := (walkMap_place_iff hkey).1 hplace
        rw [place_eq_some_iff.2 ⟨hmap, o, ho, hq⟩] at hp
        cases hp
  · rw [walkMap_notMap hmap] at h
    exact .inr ⟨(Option.some.inj h).symm, hmap⟩

/-- Where the walk stops, what is taken of the value ends in time. -/
theorem MapBelow.found_fits (hreads : ∀ p, ∀ a ∈ (isKey p).reads m, p ≤ a ∧ a < p + m.headLen p)
    (h : MapBelow m hit fits d len n) (hp : m.place hit d len = some p) :
    fits p (d + len - p) := by
  have hspan : (walkMap isKey placeFound none none d len).Meets m True (InSpan 0 n)
      (fun place => ∀ q, place = some q → fits q.1 q.2) ↔ MapBelow m hit fits d len n :=
    walkMap_span hreads hkey (by simp) (by simp) (fun p rest _ _ _ => by simp [placeFound])
      (Nat.zero_le d)
  exact (meets_partial_iff.1 (hspan.2 h)).2 _ ((place_eq_some_iff_run hkey).1 hp) _ rfl

end

end

/-- What stands behind the key of the value at `p`: the payload, with the count and the type
in its head. -/
def Mem.valueOf (m : Mem) (p : ℕ) : MapValue := ⟨p + m.headLen p, m.count p, majorBits (m p)⟩

noncomputable def Mem.valueAt (m : Mem) (d len key : ℕ) : Option MapValue :=
  (m.place (m.uintKey key) d len).map m.valueOf

noncomputable def Mem.negValueAt (m : Mem) (d len negVal : ℕ) : Option MapValue :=
  (m.place (m.negKey negVal) d len).map m.valueOf

/-- A value which is a string. -/
def MapValue.string (v : MapValue) : Option (ℕ × ℕ) :=
  if v.type = 0x40 ∨ v.type = 0x60 then some (v.ptr, v.len) else none

noncomputable def Mem.stringAt (m : Mem) (d len key : ℕ) : Option (ℕ × ℕ) :=
  (m.valueAt d len key).bind MapValue.string

/-- A value which is an unsigned number with an argument of two bytes at most. -/
def Mem.intOf (m : Mem) (p : ℕ) : Option ℕ :=
  if majorBits (m p) = 0x00 ∧ infoBits (m p) ≤ 25 then some (m.count p) else none

noncomputable def Mem.intAt (m : Mem) (d len key : ℕ) : Option ℕ :=
  (m.place (m.uintKey key) d len).bind m.intOf

/-- The length which an item declares, zero if it declares none. -/
noncomputable def Mem.declaredLen (m : Mem) (p rest : ℕ) : ℕ :=
  (theOnly (DeclaredLen m p rest)).getD 0

noncomputable def Mem.itemAt (m : Mem) (d len key : ℕ) : ItemResult :=
  match m.place (m.uintKey key) d len with
  | some p => .item p (m.declaredLen p (d + len - p))
  | none => open Classical in if m.BeginsMap d len then .fallsOff else .null

/-- The head of the value ends below `n`. -/
def HeadBelow (m : Mem) (n p : ℕ) (_rest : ℕ) : Prop := p + m.headLen p ≤ n

/-- The head of a value which is an unsigned number ends below `n`. -/
def IntBelow (m : Mem) (n p : ℕ) (_rest : ℕ) : Prop :=
  p < n ∧ (majorBits (m p) = 0x00 → p + m.headLen p ≤ n)

/-- All heads inside the value end below `n`. -/
def ItemBelow (m : Mem) (n p rest : ℕ) : Prop := HeadsBelow m p rest n

/-- A lookup of a value or of a string ends below `n`. -/
def Mem.LooksValue (m : Mem) (d len key n : ℕ) : Prop :=
  MapBelow m (m.uintKey key) (HeadBelow m n) d len n

def Mem.LooksNegValue (m : Mem) (d len negVal n : ℕ) : Prop :=
  MapBelow m (m.negKey negVal) (HeadBelow m n) d len n

def Mem.LooksInt (m : Mem) (d len key n : ℕ) : Prop :=
  MapBelow m (m.uintKey key) (IntBelow m n) d len n

def Mem.LooksItem (m : Mem) (d len key n : ℕ) : Prop :=
  MapBelow m (m.uintKey key) (ItemBelow m n) d len n

section

variable {m : Mem} {d len key negVal n p rest : ℕ}

theorem readsBelow_iff_meets {α : Type} {x : Rd α} :
    x.ReadsBelow n m ↔ x.Meets m True (InSpan 0 n) fun _ => True := by
  rw [meets_partial_iff]
  refine (forall₂_congr fun a _ => ?_).trans (and_iff_left fun _ _ => trivial).symm
  exact (and_iff_right (Nat.zero_le a)).symm

theorem valuePayload_span : (valuePayload p rest).Meets m True (InSpan 0 n) (fun _ => True) ↔
    HeadBelow m n p rest := by
  rw [valuePayload, meets_bind]
  simp only [meets_bind]
  rw [head_meets, head_span (Nat.zero_le p)]
  exact and_iff_left trivial

theorem valueInt_span : (valueInt p rest).Meets m True (InSpan 0 n) (fun _ => True) ↔
    IntBelow m n p rest := by
  have hhead : InSpan 0 n p ↔ p < n := and_iff_right (Nat.zero_le p)
  rw [valueInt, meets_bind, meets_byte, hhead]
  refine and_congr_right fun hstart => ?_
  by_cases hmajor : majorBits (m p) = 0x00
  · rw [if_neg (not_not.2 hmajor), forall_prop_of_true hmajor, ← head_span (Nat.zero_le p)]
    by_cases hinfo : infoBits (m p) ≤ 25
    · rw [if_pos hinfo, meets_bind, headCount_meets, ← forall_head_iff, hhead,
        and_iff_right hstart]
      exact and_iff_left trivial
    · rw [if_neg hinfo, meets_pure]
      refine iff_of_true trivial fun a ha hlt => ?_
      rw [Mem.headLen, if_neg (by omega), if_neg (by omega)] at hlt
      exact ⟨by omega, by omega⟩
  · rw [if_pos hmajor]
    exact iff_of_true trivial fun h => absurd h hmajor

theorem valueItem_span :
    (do return ItemResult.item p (← skipCborItem p rest) : Rd ItemResult).Meets m True
      (InSpan 0 n) (fun _ => True) ↔ ItemBelow m n p rest := by
  rw [meets_bind, meets_partial_iff, skipCborItem_span (Nat.zero_le p)]
  exact and_iff_left fun _ _ => trivial

theorem getCborMapValue_confined :
    (getCborMapValue d len key).Confined m n (m.LooksValue d len key n) :=
  confined_of_iff (readsBelow_iff_meets.trans (walkMap_span isUintKey_reads
    (isUintKey_eq key) trivial trivial (fun _ _ _ _ _ => valuePayload_span) (Nat.zero_le d)))

theorem getCborMapNegValue_confined :
    (getCborMapNegValue d len negVal).Confined m n (m.LooksNegValue d len negVal n) :=
  confined_of_iff (readsBelow_iff_meets.trans (walkMap_span isNegKey_reads
    isNegKey_eq trivial trivial (fun _ _ _ _ _ => valuePayload_span) (Nat.zero_le d)))

theorem getCborMapInt_confined :
    (getCborMapInt d len key).Confined m n (m.LooksInt d len key n) :=
  confined_of_iff (readsBelow_iff_meets.trans (walkMap_span isUintKey_reads
    (isUintKey_eq key) trivial trivial (fun _ _ _ _ _ => valueInt_span) (Nat.zero_le d)))

theorem getCborMapItem_confined :
    (getCborMapItem d len key).Confined m n (m.LooksItem d len key n) :=
  confined_of_iff (readsBelow_iff_meets.trans (walkMap_span isUintKey_reads
    (isUintKey_eq key) trivial trivial (fun _ _ _ _ _ => valueItem_span) (Nat.zero_le d)))

theorem valueLookup_finds {isKey : ℕ → Rd Bool} {hit : ℕ → Bool}
    (hkey : ∀ a, (isKey a).run m = some (hit a)) :
    (walkMap isKey valuePayload none none d len).Returns m fun r =>
      r = (m.place hit d len).map m.valueOf := by
  intro r hr
  cases hplace : m.place hit d len with
  | none => exact (walkMap_run_missing hkey hplace hr).elim And.left And.left
  | some p =>
      rw [walkMap_run_at hkey hplace, valuePayload_eq, Option.some.injEq] at hr
      exact hr.symm

theorem getCborMapValue_finds :
    (getCborMapValue d len key).Returns m fun r => r = m.valueAt d len key :=
  valueLookup_finds (isUintKey_eq key)

theorem getCborMapNegValue_finds :
    (getCborMapNegValue d len negVal).Returns m fun r => r = m.negValueAt d len negVal :=
  valueLookup_finds isNegKey_eq

theorem getCborMapInt_finds :
    (getCborMapInt d len key).Returns m fun r => r = m.intAt d len key := by
  intro r hr
  unfold Mem.intAt
  cases hplace : m.place (m.uintKey key) d len with
  | none => exact (walkMap_run_missing (isUintKey_eq key) hplace hr).elim And.left And.left
  | some p =>
      rw [getCborMapInt, walkMap_run_at (isUintKey_eq key) hplace, valueInt_eq,
        Option.some.injEq] at hr
      exact hr.symm

theorem declaredLen_eq_some_iff {r : ℕ} :
    theOnly (DeclaredLen m p rest) = some r ↔ DeclaredLen m p rest r :=
  theOnly_eq_some_iff fun _ _ ha hb => Option.some.inj
    ((skipCborItem_run_iff.2 ha).symm.trans (skipCborItem_run_iff.2 hb))

theorem getCborMapItem_finds :
    (getCborMapItem d len key).Returns m fun r => r = m.itemAt d len key := by
  intro r hr
  unfold Mem.itemAt
  cases hplace : m.place (m.uintKey key) d len with
  | none =>
      rcases walkMap_run_missing (isUintKey_eq key) hplace hr with ⟨rfl, hmap⟩ | ⟨rfl, hmap⟩
      · exact (if_pos hmap).symm
      · exact (if_neg hmap).symm
  | some p =>
      rw [getCborMapItem, walkMap_run_at (isUintKey_eq key) hplace, run_bind_eq_some] at hr
      obtain ⟨r', hr', hitem⟩ := hr
      have hlength : m.declaredLen p (d + len - p) = r' := by
        rw [Mem.declaredLen, declaredLen_eq_some_iff.2 (skipCborItem_run_iff.1 hr')]
        rfl
      exact (Option.some.inj hitem).symm.trans (congrArg (ItemResult.item p) hlength.symm)

theorem getCborMapString_eq : getCborMapString d len key =
    (getCborMapValue d len key >>= fun v => pure (v.bind MapValue.string)) := by
  unfold getCborMapString
  congr 1
  funext v
  cases v with
  | none => rfl
  | some v =>
      by_cases hstring : v.type = 0x40 ∨ v.type = 0x60
      · rw [Option.bind_some, MapValue.string, if_pos hstring]
        exact if_neg fun h => hstring.elim h.1 h.2
      · rw [Option.bind_some, MapValue.string, if_neg hstring]
        exact if_pos (not_or.1 hstring)

theorem getCborMapString_confined :
    (getCborMapString d len key).Confined m n (m.LooksValue d len key n) := by
  rw [getCborMapString_eq]
  exact getCborMapValue_confined.map

theorem getCborMapString_finds :
    (getCborMapString d len key).Returns m fun r => r = m.stringAt d len key := by
  rw [getCborMapString_eq]
  exact Returns.bind_of getCborMapValue_finds fun v hv => Returns.pure (by rw [hv]; rfl)

/-- The payload of a value which has been looked up begins at `n` at the latest. -/
theorem Mem.LooksValue.ptr_le {v : MapValue} (h : m.LooksValue d len key n)
    (hv : m.valueAt d len key = some v) : v.ptr ≤ n := by
  obtain ⟨p, hp, rfl⟩ := Option.map_eq_some_iff.1 hv
  exact h.found_fits (isUintKey_eq key) isUintKey_reads hp

end

/-! ## Maps with text keys -/

/-- The value behind the first right key stands at `p`. -/
def StandsAt (m : Mem) (key : List UInt8) (d len p : ℕ) : Prop :=
  m.BeginsMap d len ∧ ∃ k r, ComesToText m key d len k ∧ DeclaredLen m (d + k) (len - k) r ∧
    r ≠ 0 ∧ m.textKey key (d + k) = true ∧ k + r < len ∧ p = d + (k + r)

/-- The string at `p`, with the low byte of its length. -/
def Mem.stringOf (m : Mem) (p : ℕ) : Option (ℕ × ℕ) :=
  if majorBits (m p) = 0x40 ∨ majorBits (m p) = 0x60 then
    some (p + m.headLen p, u8 (m.count p))
  else none

noncomputable def Mem.textAt (m : Mem) (d len : ℕ) (key : List UInt8) : Option (ℕ × ℕ) :=
  theOnly fun s => ∃ p, StandsAt m key d len p ∧ m.stringOf p = some s

/-- The head of a value which is a string ends below `n`. -/
def StringBelow (m : Mem) (n p : ℕ) (_rest : ℕ) : Prop :=
  p < n ∧ (majorBits (m p) = 0x40 ∨ majorBits (m p) = 0x60 → p + m.headLen p ≤ n)

def Mem.LooksText (m : Mem) (d len : ℕ) (key : List UInt8) (n : ℕ) : Prop :=
  TextMapBelow m key (StringBelow m n) d len n

section

variable {m : Mem} {d len n p rest : ℕ} {key : List UInt8}

theorem stringPayload_eq (p : ℕ) : (stringPayload p).run m = some (m.stringOf p) := by
  unfold Mem.stringOf
  by_cases hstring : majorBits (m p) = 0x40 ∨ majorBits (m p) = 0x60
  · simp [stringPayload, hstring]
  · simp [stringPayload, hstring]

theorem stringPayload_span : (stringPayload p).Meets m True (InSpan 0 n) (fun _ => True) ↔
    StringBelow m n p rest := by
  have hhead : InSpan 0 n p ↔ p < n := and_iff_right (Nat.zero_le p)
  rw [stringPayload, meets_bind, meets_byte, hhead]
  refine and_congr_right fun hstart => ?_
  by_cases hstring : majorBits (m p) = 0x40 ∨ majorBits (m p) = 0x60
  · rw [if_pos hstring, forall_prop_of_true hstring, meets_bind, headCount_meets,
      ← head_span (Nat.zero_le p), ← forall_head_iff, hhead, and_iff_right hstart]
    exact and_iff_left trivial
  · rw [if_neg hstring, meets_pure]
    exact iff_of_true trivial fun h => absurd h hstring

theorem cborMapGetString_confined :
    (cborMapGetString d len key).Confined m n (m.LooksText d len key n) :=
  confined_of_iff (readsBelow_iff_meets.trans (cborMapGetString_span trivial
    (fun _ _ _ _ _ => stringPayload_span) (Nat.zero_le d)))

theorem cborMapGetString_run_map (hmap : m.BeginsMap d len) : (cborMapGetString d len key).run m =
    (getStringEntries key d len (m.count d) (m.headLen d)).run m := by
  rw [cborMapGetString, if_neg hmap.1, run_bind, run_byte, Option.bind_some,
    if_neg (not_not.2 hmap.2), run_bind, run_headCount, Option.bind_some]

theorem cborMapGetString_notMap (hmap : ¬ m.BeginsMap d len) :
    (cborMapGetString d len key).run m = some none := by
  rw [cborMapGetString]
  by_cases hlen : len = 0
  · rw [if_pos hlen, run_pure]
  · rw [if_neg hlen, run_bind, run_byte, Option.bind_some, if_pos fun h => hmap ⟨hlen, h⟩,
      run_pure]

theorem returns_iff_meets {α : Type} {x : Rd α} {P : α → Prop} :
    x.Returns m P ↔ x.Meets m True (fun _ => True) P := by
  rw [meets_partial_iff]
  exact (and_iff_right fun _ _ => trivial).symm

/-- What is found is the string behind the first right key: nothing else can be returned
by any step of the walk. -/
theorem cborMapGetString_run_iff {s : ℕ × ℕ} :
    (cborMapGetString d len key).run m = some (some s) ↔
      ∃ p, StandsAt m key d len p ∧ m.stringOf p = some s := by
  by_cases hmap : m.BeginsMap d len
  · have hreturns : (getStringEntries key d len (m.count d) (m.headLen d)).Returns m
        (fun r => r ≠ some s) ↔ ∀ k, ComesToText m key d len k → ∀ r,
          DeclaredLen m (d + k) (len - k) r → r ≠ 0 → m.textKey key (d + k) = true →
            k + r < len → m.stringOf (d + (k + r)) ≠ some s := by
      rw [returns_iff_meets, getStringEntries_meets (by simp)]
      simp only [ComesToText, and_imp]
      refine forall₃_congr fun k _ _ => ?_
      rw [TextEntryMeets, ← returns_iff_meets, Returns]
      simp only [skipCborItem_run_iff]
      refine forall₃_congr fun r _ _ => ?_
      rw [isTextKey_meets, and_iff_right ⟨trivial, fun _ _ _ _ => trivial,
        fun _ _ _ _ => trivial⟩]
      cases m.textKey key (d + k) with
      | true =>
          rw [if_pos rfl, forall_prop_of_true rfl]
          refine forall_congr' fun _ => ?_
          rw [meets_of_run (stringPayload_eq _), and_iff_right fun _ _ => trivial, Nat.add_assoc]
      | false =>
          rw [if_neg Bool.false_ne_true]
          refine iff_of_true (fun _ => ?_) fun h => absurd h Bool.false_ne_true
          exact returns_iff_meets.1 fun _ _ => trivial
    rw [cborMapGetString_run_map hmap]
    constructor
    · intro hrun
      by_contra hnone
      refine hreturns.2 (fun k hk r hr hzero hkey hmore hs => hnone ?_) _ hrun rfl
      exact ⟨_, ⟨hmap, k, r, hk, hr, hzero, hkey, hmore, rfl⟩, hs⟩
    · rintro ⟨p, ⟨-, k, r, hk, hr, hzero, hkey, hmore, rfl⟩, hs⟩
      by_contra hne
      refine hreturns.1 (fun r' hr' heq => hne ?_) k hk r hr hzero hkey hmore hs
      rw [hr', heq]
  · rw [cborMapGetString_notMap hmap]
    refine iff_of_false (by simp) ?_
    rintro ⟨_, hstands, -⟩
    exact hmap hstands.1

theorem cborMapGetString_finds :
    (cborMapGetString d len key).Returns m fun r => r = m.textAt d len key := by
  have hiff : ∀ s, m.textAt d len key = some s ↔
      (cborMapGetString d len key).run m = some (some s) := fun s => by
    simp only [cborMapGetString_run_iff]
    refine theOnly_eq_some_iff fun a b ha hb => ?_
    rw [← cborMapGetString_run_iff] at ha hb
    exact Option.some.inj (Option.some.inj (ha.symm.trans hb))
  intro r hr
  cases r with
  | some s => exact ((hiff s).2 hr).symm
  | none =>
      refine (Option.eq_none_iff_forall_ne_some.2 fun s hs => ?_).symm
      rw [hiff, hr] at hs
      cases hs

end

end UnsoloKey
