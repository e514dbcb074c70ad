import UnsoloKey.ScanBounds
import Mathlib.Tactic

/-!
# Walks over a map and the end of the bytes

A walk over a map comes from one key to the next by the lengths which the bytes declare.
It stays below an address exactly if all the heads on its way do: those of the keys, of
the values which it skips, and what the accessor takes of the right value.
-/

namespace UnsoloKey

open Rd

/-! ## Walks over the keys of a map -/

/-- `b` is one of the first `n` places of a chain which begins at `a`. -/
def AmongFirst {α : Type} (next : α → α → Prop) : ℕ → α → α → Prop
  | 0, _, _ => False
  | n + 1, a, b => b = a ∨ ∃ c, next a c ∧ AmongFirst next n c b

/-- From the key at offset `k`, which is not the right one, the walk goes on to the key at
offset `k'`.  It only goes on if it admits the key's offset and length. -/
def NextKey (m : Mem) (hit : ℕ → Bool) (admits : ℕ → ℕ → Prop) (d len k k' : ℕ) : Prop :=
  ∃ r r', DeclaredLen m (d + k) (len - k) r ∧ admits k r ∧ hit (d + k) = false ∧
    u16 (k + r) < len ∧ DeclaredLen m (d + u16 (k + r)) (len - u16 (k + r)) r' ∧
    k' = u16 (u16 (k + r) + r')

/-- The walk of the accessors with integer keys comes to the key at offset `k`. -/
def ComesTo (m : Mem) (hit : ℕ → Bool) (d len k : ℕ) : Prop :=
  AmongFirst (NextKey m hit (fun k _ => k < len) d len) (m.count d) (m.headLen d) k ∧ k < len

section

variable {α : Type} {m : Mem} {d len lo hi p : ℕ} {isKey : ℕ → Rd Bool}
  {found : ℕ → ℕ → Rd α} {notMap missing : α} {hit : ℕ → Bool} {I : ℕ → Prop}
  {P : α → Prop}

theorem forall_amongFirst {next : ℕ → ℕ → Prop} {n a : ℕ} {Q : ℕ → Prop} :
    (∀ b, AmongFirst next (n + 1) a b → Q b) ↔
      Q a ∧ ∀ c, next a c → ∀ b, AmongFirst next n c b → Q b := by
  constructor
  · exact fun h => ⟨h a (.inl rfl), fun c hc b hb => h b (.inr ⟨c, hc, hb⟩)⟩
  · rintro ⟨hhere, hlater⟩ b (rfl | ⟨c, hc, hb⟩)
    · exact hhere
    · exact hlater c hc b hb

/-- What the walk does at the key at offset `k`. -/
def EntryMeets (m : Mem) (I : ℕ → Prop) (P : α → Prop) (isKey : ℕ → Rd Bool)
    (found : ℕ → ℕ → Rd α) (hit : ℕ → Bool) (d len k : ℕ) : Prop :=
  (isKey (d + k)).Meets m True I (fun _ => True) ∧
    (skipCborItem (d + k) (len - k)).Meets m True I fun r => u16 (k + r) < len →
      if hit (d + k) then (found (d + u16 (k + r)) (len - u16 (k + r))).Meets m True I P
      else (skipCborItem (d + u16 (k + r)) (len - u16 (k + r))).Meets m True I fun _ => True

theorem walkEntries_meets (hkey : ∀ a, (isKey a).run m = some (hit a)) (hmissing : P missing)
    {left o : ℕ} : (walkEntries isKey found missing d len left o).Meets m True I P ↔
      ∀ k, AmongFirst (NextKey m hit (fun k _ => k < len) d len) left o k → k < len →
        EntryMeets m I P isKey found hit d len k := by
  induction left generalizing o with
  | zero => exact iff_of_true hmissing fun k hk => absurd hk id
  | succ left ih =>
      rw [forall_amongFirst, walkEntries]
      by_cases hend : o ≥ len
      · rw [if_pos hend]
        refine iff_of_true hmissing ⟨fun hmore => absurd hmore (by omega), fun c hc => ?_⟩
        obtain ⟨_, _, _, hmore, _⟩ := hc
        omega
      have hmore : o < len := Nat.not_le.1 hend
      have hlater : (∀ c, NextKey m hit (fun k _ => k < len) d len o c → ∀ k,
          AmongFirst (NextKey m hit (fun k _ => k < len) d len) left c k → k < len →
            EntryMeets m I P isKey found hit d len k) ↔
          ∀ c, NextKey m hit (fun k _ => k < len) d len o c →
            (walkEntries isKey found missing d len left c).Meets m True I P :=
        forall₂_congr fun c _ => ih.symm
      rw [if_neg hend, hlater, forall_prop_of_true hmore, EntryMeets, meets_bind,
        meets_of_run (hkey _), meets_of_run (hkey _), and_true, and_assoc, meets_bind]
      refine and_congr_right fun _ => ?_
      cases hr : (skipCborItem (d + o) (len - o)).run m with
      | none =>
          rw [meets_of_run_none hr, meets_of_run_none hr]
          refine (and_iff_left fun c hc => ?_).symm
          obtain ⟨_, _, hr', _⟩ := hc
          rw [skipCborItem_run_iff.2 hr'] at hr
          cases hr
      | some r =>
          rw [meets_of_run hr, meets_of_run hr, and_assoc]
          refine and_congr_right fun _ => ?_
          have hsame : ∀ {r'}, DeclaredLen m (d + o) (len - o) r' → r' = r := fun h =>
            Option.some.inj ((skipCborItem_run_iff.2 h).symm.trans hr)
          by_cases hlast : u16 (o + r) ≥ len
          · rw [if_pos hlast]
            refine iff_of_true hmissing ⟨fun hvalue => absurd hvalue (by omega), fun c hc => ?_⟩
            obtain ⟨r₁, _, hr₁, _, _, hvalue, _⟩ := hc
            rw [hsame hr₁] at hvalue
            omega
          rw [if_neg hlast, forall_prop_of_true (Nat.not_le.1 hlast)]
          cases hhit : hit (d + o) with
          | true =>
              rw [if_pos rfl, if_pos rfl]
              refine (and_iff_left fun c hc => ?_).symm
              obtain ⟨_, _, _, _, hmiss, _⟩ := hc
              rw [hhit] at hmiss
              cases hmiss
          | false =>
              rw [if_neg Bool.false_ne_true, if_neg Bool.false_ne_true, meets_bind]
              have hnext : ∀ c, NextKey m hit (fun k _ => k < len) d len o c → ∃ r',
                  (skipCborItem (d + u16 (o + r)) (len - u16 (o + r))).run m = some r' ∧
                    c = u16 (u16 (o + r) + r') := by
                rintro c ⟨r₁, r₂, hr₁, _, _, _, hr₂, rfl⟩
                rw [hsame hr₁] at hr₂ ⊢
                exact ⟨r₂, skipCborItem_run_iff.2 hr₂, rfl⟩
              cases hr' : (skipCborItem (d + u16 (o + r)) (len - u16 (o + r))).run m with
              | none =>
                  rw [meets_of_run_none hr', meets_of_run_none hr']
                  refine (and_iff_left fun c hc => ?_).symm
                  obtain ⟨_, hrun, -⟩ := hnext c hc
                  rw [hr'] at hrun
                  cases hrun
              | some r' =>
                  rw [meets_of_run hr', meets_of_run hr', and_true]
                  refine and_congr_right fun _ => ⟨fun hrest c hc => ?_, fun hrest => ?_⟩
                  · obtain ⟨r₂, hrun, rfl⟩ := hnext c hc
                    rw [← Option.some.inj (hr'.symm.trans hrun)]
                    exact hrest
                  · exact hrest _ ⟨r, r', skipCborItem_run_iff.1 hr, hmore, hhit, by omega,
                      skipCborItem_run_iff.1 hr', rfl⟩

/-! ## Accessors with integer keys -/

/-- The heads of the entry whose key stands at offset `k` end below `hi` as far as the walk
looks at them, and so does what is taken of the right value. -/
structure EntryBelow (m : Mem) (hit : ℕ → Bool) (fits : ℕ → ℕ → Prop) (d len hi k : ℕ) :
    Prop where
  key : HeadsBelow m (d + k) (len - k) hi
  value : ∀ r, DeclaredLen m (d + k) (len - k) r → u16 (k + r) < len →
    if hit (d + k) then fits (d + u16 (k + r)) (len - u16 (k + r))
    else HeadsBelow m (d + u16 (k + r)) (len - u16 (k + r)) hi

/-- The same for everything a walk over the map at `d` comes to. -/
structure MapBelow (m : Mem) (hit : ℕ → Bool) (fits : ℕ → ℕ → Prop) (d len hi : ℕ) :
    Prop where
  start : len ≠ 0 → d < hi
  head : m.BeginsMap d len → d + m.headLen d ≤ hi
  entry : m.BeginsMap d len → ∀ k, ComesTo m hit d len k → EntryBelow m hit fits d len hi k

theorem headCount_meets {P : ℕ × ℕ → Prop} :
    (headCount p (infoBits (m p))).Meets m True I P ↔
      (∀ a, p + 1 ≤ a → a < p + m.headLen p → I a) ∧ P (m.count p, m.headLen p) := by
  rw [meets_of_run (run_headCount m p)]
  simp only [mem_reads_headCount, and_imp]

theorem forall_head_iff : (I p ∧ ∀ a, p + 1 ≤ a → a < p + m.headLen p → I a) ↔
    ∀ a, p ≤ a → a < p + m.headLen p → I a := by
  have hpos := Mem.headLen_pos (m := m) p
  constructor
  · rintro ⟨hhere, hbehind⟩ a hpa ha
    rcases Nat.eq_or_lt_of_le hpa with rfl | hlt
    · exact hhere
    · exact hbehind a hlt ha
  · exact fun h => ⟨h p le_rfl (by omega), fun a hpa => h a (by omega)⟩

/-- A byte and the rest of its head. -/
theorem head_meets {P : UInt8 → ℕ × ℕ → Prop} :
    ((byte p).Meets m True I fun b => (headCount p (infoBits b)).Meets m True I (P b)) ↔
      (∀ a, p ≤ a → a < p + m.headLen p → I a) ∧ P (m p) (m.count p, m.headLen p) := by
  rw [meets_byte, headCount_meets, ← and_assoc, forall_head_iff]

theorem HeadsBelow.here {rest : ℕ} (h : HeadsBelow m p rest hi) (hrest : 0 < rest) :
    p + m.headLen p ≤ hi :=
  h p rest (.here hrest)

theorem entryMeets_span {k : ℕ} (hkeyReads : ∀ p, ∀ a ∈ (isKey p).reads m, p ≤ a ∧
      a < p + m.headLen p)
    (hkey : ∀ a, (isKey a).run m = some (hit a)) {fits : ℕ → ℕ → Prop}
    (hfound : ∀ p rest, d ≤ p → p + rest = d + len → 0 < rest →
      ((found p rest).Meets m True (InSpan lo hi) P ↔ fits p rest))
    (hlo : lo ≤ d) (hk : k < len) :
    EntryMeets m (InSpan lo hi) P isKey found hit d len k ↔
      EntryBelow m hit fits d len hi k := by
  have hvalue : ∀ r, u16 (k + r) < len →
      ((if hit (d + k) then (found (d + u16 (k + r)) (len - u16 (k + r))).Meets m True
          (InSpan lo hi) P
        else (skipCborItem (d + u16 (k + r)) (len - u16 (k + r))).Meets m True (InSpan lo hi)
          fun _ => True) ↔
      if hit (d + k) then fits (d + u16 (k + r)) (len - u16 (k + r))
      else HeadsBelow m (d + u16 (k + r)) (len - u16 (k + r)) hi) := by
    intro r hmore
    cases hit (d + k) with
    | true =>
        rw [if_pos rfl, if_pos rfl]
        exact hfound _ _ (by omega) (by omega) (by omega)
    | false =>
        rw [if_neg Bool.false_ne_true, if_neg Bool.false_ne_true, meets_partial_iff,
          skipCborItem_span (by omega)]
        exact and_iff_left fun _ _ => trivial
  rw [EntryMeets, meets_of_run (hkey _), and_true, meets_partial_iff,
    skipCborItem_span (by omega)]
  simp only [skipCborItem_run_iff]
  constructor
  · rintro ⟨-, hbelow, hrest⟩
    exact ⟨hbelow, fun r hr hmore => (hvalue r hmore).1 (hrest r hr hmore)⟩
  · rintro ⟨hbelow, hrest⟩
    refine ⟨fun a ha => ?_, hbelow, fun r hr hmore => (hvalue r hmore).2 (hrest r hr hmore)⟩
    obtain ⟨hle, hlt⟩ := hkeyReads _ a ha
    exact (head_span (by omega)).2 (hbelow.here (by omega)) a hle hlt

/-- The beginning of every accessor: anything but a map ends it. -/
theorem mapHead_span {loop : ℕ → ℕ → Rd α} (hnot : P notMap) (hlo : lo ≤ d) :
    (if len = 0 then pure notMap else do
      let b ← byte d
      if majorBits b ≠ 0xA0 then return notMap
      let (count, offset) ← headCount d (infoBits b)
      loop count offset : Rd α).Meets m True (InSpan lo hi) P ↔
      (len ≠ 0 → d < hi) ∧ (m.BeginsMap d len → d + m.headLen d ≤ hi ∧
        (loop (m.count d) (m.headLen d)).Meets m True (InSpan lo hi) P) := by
  by_cases hlen : len = 0
  · rw [if_pos hlen]
    exact iff_of_true hnot ⟨fun h => absurd hlen h, fun hmap => absurd hlen hmap.1⟩
  rw [if_neg hlen, meets_bind, meets_byte, forall_prop_of_true hlen]
  have hhead : InSpan lo hi d ↔ d < hi := and_iff_right hlo
  by_cases hmap : majorBits (m d) = 0xA0
  · have hbegins : m.BeginsMap d len := ⟨hlen, hmap⟩
    have hpos := Mem.headLen_pos (m := m) d
    rw [if_neg (not_not.2 hmap), meets_bind, headCount_meets, forall_prop_of_true hbegins,
      ← and_assoc, forall_head_iff, head_span hlo]
    constructor
    · rintro ⟨hend, hloop⟩
      exact ⟨by omega, hend, hloop⟩
    · exact fun h => h.2
  · rw [if_pos hmap, hhead]
    exact and_congr_right fun _ => iff_of_true hnot fun hbegins => absurd hbegins.2 hmap

/-- An accessor stays below `hi` exactly if the map does. -/
theorem walkMap_span (hkeyReads : ∀ p, ∀ a ∈ (isKey p).reads m, p ≤ a ∧
      a < p + m.headLen p)
    (hkey : ∀ a, (isKey a).run m = some (hit a)) (hmissing : P missing) (hnot : P notMap)
    {fits : ℕ → ℕ → Prop} (hfound : ∀ p rest, d ≤ p → p + rest = d + len → 0 < rest →
      ((found p rest).Meets m True (InSpan lo hi) P ↔ fits p rest)) (hlo : lo ≤ d) :
    (walkMap isKey found notMap missing d len).Meets m True (InSpan lo hi) P ↔
      MapBelow m hit fits d len hi := by
  have hentry := fun k (hk : k < len) => entryMeets_span hkeyReads hkey hfound hlo hk
  rw [walkMap, mapHead_span hnot hlo, walkEntries_meets hkey hmissing]
  constructor
  · rintro ⟨hstart, hmap⟩
    exact ⟨hstart, fun h => (hmap h).1, fun h k hk => (hentry k hk.2).1 ((hmap h).2 k hk.1 hk.2)⟩
  · rintro ⟨hstart, hhead, hall⟩
    exact ⟨hstart, fun h => ⟨hhead h, fun k hk hmore => (hentry k hmore).2 (hall h k ⟨hk, hmore⟩)⟩⟩

end

/-! ## The accessor with a text key -/

/-- The item at `a` is the text, as `cbor_map_get_string` compares it. -/
def Mem.textKey (m : Mem) (key : List UInt8) (a : ℕ) : Bool :=
  majorBits (m a) = 0x60 ∧ u8 (m.count a) = key.length ∧
    m.slice (a + m.headLen a) key.length = key

/-- A key whose bytes are compared, because its kind and its length are right. -/
def Compared (m : Mem) (key : List UInt8) (a : ℕ) : Prop :=
  majorBits (m a) = 0x60 ∧ u8 (m.count a) = key.length

/-- The walk of `cbor_map_get_string` comes to the key at offset `k`. -/
def ComesToText (m : Mem) (key : List UInt8) (d len k : ℕ) : Prop :=
  AmongFirst (NextKey m (m.textKey key) (fun k r => k + 1 < len ∧ r ≠ 0) d len) (m.count d)
    (m.headLen d) k ∧ k + 1 < len

structure TextEntryBelow (m : Mem) (key : List UInt8) (fits : ℕ → ℕ → Prop)
    (d len hi k : ℕ) : Prop where
  heads : HeadsBelow m (d + k) (len - k) hi
  text : ∀ r, DeclaredLen m (d + k) (len - k) r → r ≠ 0 → Compared m key (d + k) →
    d + k + m.headLen (d + k) + key.length ≤ hi
  value : ∀ r, DeclaredLen m (d + k) (len - k) r → r ≠ 0 →
    if m.textKey key (d + k) then k + r < len → fits (d + (k + r)) (len - (k + r))
    else u16 (k + r) < len → HeadsBelow m (d + u16 (k + r)) (len - u16 (k + r)) hi

structure TextMapBelow (m : Mem) (key : List UInt8) (fits : ℕ → ℕ → Prop) (d len hi : ℕ) :
    Prop where
  start : len ≠ 0 → d < hi
  head : m.BeginsMap d len → d + m.headLen d ≤ hi
  entry : m.BeginsMap d len → ∀ k, ComesToText m key d len k →
    TextEntryBelow m key fits d len hi k

section

variable {m : Mem} {d len lo hi p : ℕ} {key : List UInt8} {I : ℕ → Prop}
  {P : Option (ℕ × ℕ) → Prop}

theorem isTextKey_meets {Q : Bool → Prop} : (isTextKey key p).Meets m True I Q ↔
    (I p ∧ (majorBits (m p) = 0x60 → ∀ a, p + 1 ≤ a → a < p + m.headLen p → I a) ∧
      (Compared m key p → ∀ a, p + m.headLen p ≤ a →
        a < p + m.headLen p + key.length → I a)) ∧ Q (m.textKey key p) := by
  rw [isTextKey, meets_bind, meets_byte]
  unfold Mem.textKey Compared
  by_cases htext : majorBits (m p) = 0x60
  · rw [if_neg (not_not.2 htext), meets_bind, headCount_meets]
    dsimp only
    by_cases hlength : u8 (m.count p) = key.length
    · rw [if_neg (not_not.2 hlength), meets_bind, meets_bytes, meets_pure]
      simp only [htext, hlength, true_and, forall_true_left, and_assoc]
    · rw [if_pos hlength, meets_pure]
      simp [htext, hlength, and_assoc]
  · rw [if_pos htext, meets_pure]
    simp [htext]

/-- What the walk does at the key at offset `k`. -/
def TextEntryMeets (m : Mem) (I : ℕ → Prop) (P : Option (ℕ × ℕ) → Prop) (key : List UInt8)
    (d len k : ℕ) : Prop :=
  (skipCborItem (d + k) (len - k)).Meets m True I fun r => r ≠ 0 →
    (isTextKey key (d + k)).Meets m True I fun hit =>
      if hit then k + r < len → (stringPayload (d + k + r)).Meets m True I P
      else u16 (k + r) < len →
        (skipCborItem (d + u16 (k + r)) (len - u16 (k + r))).Meets m True I fun _ => True

theorem getStringEntries_meets (hmissing : P none) {left o : ℕ} :
    (getStringEntries key d len left o).Meets m True I P ↔
      ∀ k, AmongFirst (NextKey m (m.textKey key) (fun k r => k + 1 < len ∧ r ≠ 0) d len)
        left o k → k + 1 < len → TextEntryMeets m I P key d len k := by
  induction left generalizing o with
  | zero => exact iff_of_true hmissing fun k hk => absurd hk id
  | succ left ih =>
      rw [forall_amongFirst, getStringEntries]
      by_cases hend : o + 1 ≥ len
      · rw [if_pos hend]
        refine iff_of_true hmissing ⟨fun hmore => absurd hmore (by omega), fun c hc => ?_⟩
        obtain ⟨_, _, _, ⟨hmore, _⟩, _⟩ := hc
        omega
      have hmore : o + 1 < len := Nat.not_le.1 hend
      have hlater : (∀ c, NextKey m (m.textKey key) (fun k r => k + 1 < len ∧ r ≠ 0) d len o c →
          ∀ k, AmongFirst (NextKey m (m.textKey key) (fun k r => k + 1 < len ∧ r ≠ 0) d len)
            left c k → k + 1 < len → TextEntryMeets m I P key d len k) ↔
          ∀ c, NextKey m (m.textKey key) (fun k r => k + 1 < len ∧ r ≠ 0) d len o c →
            (getStringEntries key d len left c).Meets m True I P :=
        forall₂_congr fun c _ => ih.symm
      rw [if_neg hend, hlater, forall_prop_of_true hmore, TextEntryMeets, meets_bind]
      cases hr : (skipCborItem (d + o) (len - o)).run m with
      | none =>
          rw [meets_of_run_none hr, meets_of_run_none hr]
          refine (and_iff_left fun c hc => ?_).symm
          obtain ⟨_, _, hr', _⟩ := hc
          rw [skipCborItem_run_iff.2 hr'] at hr
          cases hr
      | some r =>
          rw [meets_of_run hr, meets_of_run hr, and_assoc]
          refine and_congr_right fun _ => ?_
          have hsame : ∀ {r'}, DeclaredLen m (d + o) (len - o) r' → r' = r := fun h =>
            Option.some.inj ((skipCborItem_run_iff.2 h).symm.trans hr)
          by_cases hzero : r = 0
          · rw [if_pos hzero]
            refine iff_of_true hmissing ⟨fun hne => absurd hzero hne, fun c hc => ?_⟩
            obtain ⟨r₁, _, hr₁, ⟨_, hne⟩, _⟩ := hc
            exact absurd ((hsame hr₁).trans hzero) hne
          rw [if_neg hzero, meets_bind, isTextKey_meets, forall_prop_of_true hzero,
            isTextKey_meets]
          refine (and_congr_right fun _ => ?_).trans and_assoc.symm
          cases hhit : m.textKey key (d + o) with
          | true =>
              rw [if_pos rfl, if_pos rfl]
              have hnone : ∀ c, ¬ NextKey m (m.textKey key)
                  (fun k r => k + 1 < len ∧ r ≠ 0) d len o c := by
                rintro c ⟨_, _, _, _, hmiss, _⟩
                rw [hhit] at hmiss
                cases hmiss
              rw [and_iff_left fun c hc => absurd hc (hnone c)]
              by_cases hlast : d + o + r ≥ d + len
              · rw [if_pos hlast]
                exact iff_of_true hmissing fun hvalue => absurd hvalue (by omega)
              · rw [if_neg hlast, forall_prop_of_true (by omega : o + r < len)]
          | false =>
              rw [if_neg Bool.false_ne_true, if_neg Bool.false_ne_true]
              have hnext : ∀ c, NextKey m (m.textKey key)
                  (fun k r => k + 1 < len ∧ r ≠ 0) d len o c → u16 (o + r) < len ∧ ∃ r',
                    (skipCborItem (d + u16 (o + r)) (len - u16 (o + r))).run m = some r' ∧
                      c = u16 (u16 (o + r) + r') := by
                rintro c ⟨r₁, r₂, hr₁, _, _, hvalue, hr₂, rfl⟩
                rw [hsame hr₁] at hvalue hr₂ ⊢
                exact ⟨hvalue, r₂, skipCborItem_run_iff.2 hr₂, rfl⟩
              by_cases hlast : u16 (o + r) ≥ len
              · rw [if_pos hlast]
                refine iff_of_true hmissing ⟨fun hvalue => absurd hvalue (by omega),
                  fun c hc => ?_⟩
                have hvalue := (hnext c hc).1
                omega
              rw [if_neg hlast, forall_prop_of_true (Nat.not_le.1 hlast), meets_bind]
              cases hr' : (skipCborItem (d + u16 (o + r)) (len - u16 (o + r))).run m with
              | none =>
                  rw [meets_of_run_none hr', meets_of_run_none hr']
                  refine (and_iff_left fun c hc => ?_).symm
                  obtain ⟨-, _, hrun, -⟩ := hnext c hc
                  rw [hr'] at hrun
                  cases hrun
              | some r' =>
                  rw [meets_of_run hr', meets_of_run hr', and_true]
                  refine and_congr_right fun _ => ⟨fun hrest c hc => ?_, fun hrest => ?_⟩
                  · obtain ⟨-, r₂, hrun, rfl⟩ := hnext c hc
                    rw [← Option.some.inj (hr'.symm.trans hrun)]
                    exact hrest
                  · exact hrest _ ⟨r, r', skipCborItem_run_iff.1 hr, ⟨hmore, hzero⟩, hhit,
                      by omega, skipCborItem_run_iff.1 hr', rfl⟩

/-- What `cbor_map_get_string` does at the entry. -/
theorem textEntryMeets_span {k : ℕ} {fits : ℕ → ℕ → Prop}
    (hfound : ∀ p rest, d ≤ p → p + rest = d + len → 0 < rest →
      ((stringPayload p).Meets m True (InSpan lo hi) P ↔ fits p rest))
    (hlo : lo ≤ d) (hk : k + 1 < len) :
    TextEntryMeets m (InSpan lo hi) P key d len k ↔
      TextEntryBelow m key fits d len hi k := by
  have hvalue : ∀ r,
      ((if m.textKey key (d + k) then k + r < len →
          (stringPayload (d + k + r)).Meets m True (InSpan lo hi) P
        else u16 (k + r) < len → (skipCborItem (d + u16 (k + r)) (len - u16 (k + r))).Meets m
          True (InSpan lo hi) fun _ => True) ↔
      if m.textKey key (d + k) then k + r < len → fits (d + (k + r)) (len - (k + r))
      else u16 (k + r) < len → HeadsBelow m (d + u16 (k + r)) (len - u16 (k + r)) hi) := by
    intro r
    cases m.textKey key (d + k) with
    | true =>
        rw [if_pos rfl, if_pos rfl, ← Nat.add_assoc]
        exact forall_congr' fun hmore => hfound _ _ (by omega) (by omega) (by omega)
    | false =>
        rw [if_neg Bool.false_ne_true, if_neg Bool.false_ne_true]
        refine forall_congr' fun hmore => ?_
        rw [meets_partial_iff, skipCborItem_span (by omega)]
        exact and_iff_left fun _ _ => trivial
  rw [TextEntryMeets, meets_partial_iff, skipCborItem_span (by omega)]
  simp only [skipCborItem_run_iff]
  constructor
  · rintro ⟨hheads, hrest⟩
    refine ⟨hheads, fun r hr hzero hcompared => ?_, fun r hr hzero =>
      (hvalue r).1 (isTextKey_meets.1 (hrest r hr hzero)).2⟩
    have htext := (isTextKey_meets.1 (hrest r hr hzero)).1.2.2 hcompared
    have hhead := hheads.here (by omega)
    by_contra hlong
    have hlast := (htext hi (by omega) (by omega)).2
    omega
  · rintro ⟨hheads, htext, hrest⟩
    refine ⟨hheads, fun r hr hzero => isTextKey_meets.2 ⟨?_, (hvalue r).2 (hrest r hr hzero)⟩⟩
    have hhead := hheads.here (by omega)
    have hpos := Mem.headLen_pos (m := m) (d + k)
    refine ⟨⟨by omega, by omega⟩, fun _ a ha hlt => ⟨by omega, by omega⟩,
      fun hcompared a ha hlt => ?_⟩
    have hbound := htext r hr hzero hcompared
    exact ⟨by omega, by omega⟩

theorem cborMapGetString_span {fits : ℕ → ℕ → Prop} (hmissing : P none)
    (hfound : ∀ p rest, d ≤ p → p + rest = d + len → 0 < rest →
      ((stringPayload p).Meets m True (InSpan lo hi) P ↔ fits p rest)) (hlo : lo ≤ d) :
    (cborMapGetString d len key).Meets m True (InSpan lo hi) P ↔
      TextMapBelow m key fits d len hi := by
  have hentry : ∀ k, k + 1 < len → (TextEntryMeets m (InSpan lo hi) P key d len k ↔
      TextEntryBelow m key fits d len hi k) := fun k hk => textEntryMeets_span hfound hlo hk
  rw [cborMapGetString, mapHead_span hmissing hlo, getStringEntries_meets hmissing]
  constructor
  · rintro ⟨hstart, hmap⟩
    exact ⟨hstart, fun h => (hmap h).1, fun h k hk => (hentry k hk.2).1 ((hmap h).2 k hk.1 hk.2)⟩
  · rintro ⟨hstart, hhead, hall⟩
    exact ⟨hstart, fun h => ⟨hhead h, fun k hk hmore => (hentry k hmore).2 (hall h k ⟨hk, hmore⟩)⟩⟩

end

end UnsoloKey
