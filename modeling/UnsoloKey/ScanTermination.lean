import UnsoloKey.CborScan

/-!
# When the scanner returns

`skip_cbor_item` keeps the running offset of a container in a `uint16_t` that
is advanced by lengths taken from the request.  A call on an item at offset
zero is a call on the container itself, so the whole question of termination
is whether a running offset can come back to zero while items remain.

The declared lengths are described here by a relation on the bytes alone,
independently of the recursion depth of the model; `scanReturns_iff` shows
that re-entering a container is the only way in which the scanner and the map
accessors built on it can fail to return.
-/

namespace UnsoloKey

open Rd

/-! ## Heads -/

namespace Mem

def count (m : Mem) (d : ℕ) : ℕ :=
  if infoBits (m d) = 24 then (m (d + 1)).toNat
  else if infoBits (m d) = 25 then (m (d + 1)).toNat * 256 + (m (d + 2)).toNat
  else infoBits (m d)

def headLen (m : Mem) (d : ℕ) : ℕ :=
  if infoBits (m d) = 24 then 2 else if infoBits (m d) = 25 then 3 else 1

def IsContainer (m : Mem) (d : ℕ) : Prop :=
  majorBits (m d) = 0x80 ∨ majorBits (m d) = 0xA0

instance (m : Mem) (d : ℕ) : Decidable (m.IsContainer d) :=
  inferInstanceAs (Decidable (_ ∨ _))

/-- How many nested items the head at `d` announces. -/
def itemCount (m : Mem) (d : ℕ) : ℕ :=
  if majorBits (m d) = 0x80 then m.count d else m.count d * 2

/-- The length of an item without nested items. -/
def leafLen (m : Mem) (d : ℕ) : ℕ :=
  if majorBits (m d) = 0x40 ∨ majorBits (m d) = 0x60 then
    u16 (m.headLen d + m.count d)
  else m.headLen d

variable {m : Mem}

theorem headLen_pos (d : ℕ) : 0 < m.headLen d := by
  unfold headLen
  split_ifs <;> omega

end Mem

@[simp] theorem run_headCount (m : Mem) (d : ℕ) :
    (headCount d (infoBits (m d))).run m = some (m.count d, m.headLen d) := by
  unfold headCount Mem.count Mem.headLen
  by_cases h24 : infoBits (m d) = 24
  · simp [h24]
  · by_cases h25 : infoBits (m d) = 25
    · simp [h25]
    · simp [h24, h25]

@[simp] theorem run_skipCborItemDepth_zero (m : Mem) (d len : ℕ) :
    (skipCborItemDepth 0 d len).run m = none := rfl

@[simp] theorem run_skipCborItemDepth_empty (m : Mem) (depth d : ℕ) :
    (skipCborItemDepth (depth + 1) d 0).run m = some 0 := by
  simp [skipCborItemDepth]

theorem run_skipCborItemDepth_leaf {m : Mem} {d len : ℕ} (depth : ℕ)
    (hlen : 0 < len) (hleaf : ¬ m.IsContainer d) :
    (skipCborItemDepth (depth + 1) d len).run m = some (m.leafLen d) := by
  have hne : len ≠ 0 := by omega
  obtain ⟨harray, hmap⟩ := not_or.mp hleaf
  unfold skipCborItemDepth Mem.leafLen
  by_cases hstr : majorBits (m d) = 0x40 ∨ majorBits (m d) = 0x60
  · rcases hstr with hstr | hstr <;> simp [hne, hstr]
  · simp [hne, hstr, harray, hmap]

theorem run_skipCborItemDepth_container {m : Mem} {d len : ℕ} (depth : ℕ)
    (hlen : 0 < len) (hcontainer : m.IsContainer d) :
    (skipCborItemDepth (depth + 1) d len).run m =
      (skipItems (skipCborItemDepth depth) d len (m.itemCount d)
        (m.headLen d)).run m := by
  have hne : len ≠ 0 := by omega
  unfold skipCborItemDepth Mem.itemCount
  rcases hcontainer with harray | hmap
  · simp [hne, harray]
  · simp [hne, hmap]

/-! ## The item loop, seen from its end -/

theorem run_skipItems_succ (skip : ℕ → ℕ → Rd ℕ) (m : Mem)
    (d len j offset : ℕ) :
    (skipItems skip d len (j + 1) offset).run m =
      ((skipItems skip d len j offset).run m).bind fun o =>
        if o ≥ len then some o
        else ((skip (d + o) (len - o)).run m).map fun r => u16 (o + r) := by
  induction j generalizing offset with
  | zero =>
      by_cases hend : offset ≥ len
      · simp [skipItems, hend]
      · cases hitem : (skip (d + offset) (len - offset)).run m <;>
          simp [skipItems, hend, hitem]
  | succ j ih =>
      have hstep : ∀ k, (skipItems skip d len (k + 1) offset).run m =
          if offset ≥ len then some offset
          else ((skip (d + offset) (len - offset)).run m).bind fun r =>
            (skipItems skip d len k (u16 (offset + r))).run m := by
        intro k
        simp [skipItems]
      rw [hstep (j + 1), hstep j]
      by_cases hend : offset ≥ len
      · simp [hend]
      · cases hitem : (skip (d + offset) (len - offset)).run m with
        | none => simp [hend]
        | some r => simp [hend, ih]

theorem skipItems_mono {skip skip' : ℕ → ℕ → Rd ℕ} {m : Mem}
    (hmono : ∀ d len r, (skip d len).run m = some r →
      (skip' d len).run m = some r)
    {d len j offset r : ℕ}
    (h : (skipItems skip d len j offset).run m = some r) :
    (skipItems skip' d len j offset).run m = some r := by
  induction j generalizing r with
  | zero => exact h
  | succ j ih =>
      rw [run_skipItems_succ, Option.bind_eq_some_iff] at h ⊢
      obtain ⟨o, ho, hr⟩ := h
      refine ⟨o, ih ho, ?_⟩
      by_cases hend : o ≥ len
      · simpa [hend] using hr
      · simp only [hend, if_false, Option.map_eq_some_iff] at hr ⊢
        obtain ⟨item, hitem, hr⟩ := hr
        exact ⟨item, hmono _ _ _ hitem, hr⟩

theorem skipCborItemDepth_mono {m : Mem} {depth depth' d len r : ℕ}
    (hle : depth ≤ depth')
    (h : (skipCborItemDepth depth d len).run m = some r) :
    (skipCborItemDepth depth' d len).run m = some r := by
  induction depth generalizing depth' d len r with
  | zero => simp at h
  | succ depth ih =>
      obtain ⟨extra, rfl⟩ := Nat.exists_eq_add_of_le' hle
      rw [show extra + (depth + 1) = (extra + depth) + 1 by omega]
      rcases Nat.eq_zero_or_pos len with rfl | hlen
      · simpa using h
      · by_cases hcontainer : m.IsContainer d
        · rw [run_skipCborItemDepth_container _ hlen hcontainer] at h ⊢
          exact skipItems_mono (fun _ _ _ => ih (by omega)) h
        · rw [run_skipCborItemDepth_leaf _ hlen hcontainer] at h ⊢
          exact h

/-! ## Declared lengths -/

mutual

/-- The bytes at `d`, of which `len` remain, declare an item of length `r`. -/
inductive DeclaredLen (m : Mem) : ℕ → ℕ → ℕ → Prop
  | empty {d : ℕ} : DeclaredLen m d 0 0
  | leaf {d len : ℕ} : 0 < len → ¬ m.IsContainer d →
      DeclaredLen m d len (m.leafLen d)
  | container {d len r : ℕ} : 0 < len → m.IsContainer d →
      RunningOffset m d len (m.itemCount d) r → DeclaredLen m d len r

/-- The 16-bit sum of the head at `d` and of its first `j` items. -/
inductive RunningOffset (m : Mem) : ℕ → ℕ → ℕ → ℕ → Prop
  | start {d len : ℕ} : RunningOffset m d len 0 (m.headLen d)
  | stop {d len j o : ℕ} : RunningOffset m d len j o → o ≥ len →
      RunningOffset m d len (j + 1) o
  | next {d len j o r : ℕ} : RunningOffset m d len j o → o < len →
      DeclaredLen m (d + o) (len - o) r →
      RunningOffset m d len (j + 1) (u16 (o + r))

end

/-- Somewhere in the item at `d` a container is entered again: its running
offset is back at zero, and it has items left. -/
inductive Reenters (m : Mem) : ℕ → ℕ → Prop
  | here {d len j : ℕ} : 0 < len → m.IsContainer d → j < m.itemCount d →
      RunningOffset m d len j 0 → Reenters m d len
  | inside {d len j o : ℕ} : 0 < len → m.IsContainer d → j < m.itemCount d →
      RunningOffset m d len j o → 0 < o → o < len →
      Reenters m (d + o) (len - o) → Reenters m d len

mutual

theorem DeclaredLen.run {m : Mem} : ∀ {d len r : ℕ}, DeclaredLen m d len r →
    ∃ depth, (skipCborItemDepth depth d len).run m = some r
  | _, _, _, .empty => ⟨1, by simp⟩
  | _, _, _, .leaf hlen hleaf => ⟨1, run_skipCborItemDepth_leaf 0 hlen hleaf⟩
  | _, _, _, .container hlen hcontainer hoffset => by
      obtain ⟨depth, h⟩ := hoffset.run
      exact ⟨depth + 1, by
        rw [run_skipCborItemDepth_container _ hlen hcontainer, h]⟩

theorem RunningOffset.run {m : Mem} : ∀ {d len j o : ℕ},
    RunningOffset m d len j o →
    ∃ depth, (skipItems (skipCborItemDepth depth) d len j
      (m.headLen d)).run m = some o
  | _, _, _, _, .start => ⟨0, rfl⟩
  | _, _, _, _, .stop hoffset hend => by
      obtain ⟨depth, h⟩ := hoffset.run
      exact ⟨depth, by rw [run_skipItems_succ, h]; simp [hend]⟩
  | _, _, _, _, .next hoffset hmore hitem => by
      obtain ⟨depth₁, h₁⟩ := hoffset.run
      obtain ⟨depth₂, h₂⟩ := hitem.run
      have hmono : ∀ d len r,
          (skipCborItemDepth depth₁ d len).run m = some r →
          (skipCborItemDepth (max depth₁ depth₂) d len).run m = some r :=
        fun _ _ _ => skipCborItemDepth_mono (le_max_left _ _)
      refine ⟨max depth₁ depth₂, ?_⟩
      rw [run_skipItems_succ, skipItems_mono hmono h₁]
      simp [hmore, skipCborItemDepth_mono (le_max_right depth₁ depth₂) h₂]

end

theorem runningOffset_of_run {m : Mem} {depth d len j o : ℕ}
    (hitem : ∀ d len r, (skipCborItemDepth depth d len).run m = some r →
      DeclaredLen m d len r)
    (h : (skipItems (skipCborItemDepth depth) d len j
      (m.headLen d)).run m = some o) :
    RunningOffset m d len j o := by
  induction j generalizing o with
  | zero =>
      obtain rfl : m.headLen d = o := by simpa [skipItems] using h
      exact .start
  | succ j ih =>
      rw [run_skipItems_succ, Option.bind_eq_some_iff] at h
      obtain ⟨o', ho', h⟩ := h
      by_cases hend : o' ≥ len
      · obtain rfl : o' = o := by simpa [hend] using h
        exact .stop (ih ho') hend
      · simp only [hend, if_false, Option.map_eq_some_iff] at h
        obtain ⟨r, hr, rfl⟩ := h
        exact .next (ih ho') (by omega) (hitem _ _ _ hr)

theorem declaredLen_of_run {m : Mem} {depth d len r : ℕ}
    (h : (skipCborItemDepth depth d len).run m = some r) :
    DeclaredLen m d len r := by
  induction depth generalizing d len r with
  | zero => simp at h
  | succ depth ih =>
      rcases Nat.eq_zero_or_pos len with rfl | hlen
      · obtain rfl : 0 = r := by simpa using h
        exact .empty
      · by_cases hcontainer : m.IsContainer d
        · rw [run_skipCborItemDepth_container _ hlen hcontainer] at h
          exact .container hlen hcontainer
            (runningOffset_of_run (fun _ _ _ => ih) h)
        · rw [run_skipCborItemDepth_leaf _ hlen hcontainer] at h
          obtain rfl : m.leafLen d = r := by simpa using h
          exact .leaf hlen hcontainer

theorem RunningOffset.unique {m : Mem} {d len j o o' : ℕ}
    (h : RunningOffset m d len j o) (h' : RunningOffset m d len j o') :
    o = o' := by
  obtain ⟨depth, hrun⟩ := h.run
  obtain ⟨depth', hrun'⟩ := h'.run
  have hleft := skipItems_mono
    (fun _ _ _ => skipCborItemDepth_mono (le_max_left depth depth')) hrun
  have hright := skipItems_mono
    (fun _ _ _ => skipCborItemDepth_mono (le_max_right depth depth')) hrun'
  exact Option.some.inj (hleft.symm.trans hright)

/-! ## Re-entry is the only obstacle -/

/-- Without re-entry a call returns, nesting at most `len + 1` deep. -/
theorem skipCborItem_returns {m : Mem} {d len : ℕ}
    (hfree : ¬ Reenters m d len) :
    ∃ r, (skipCborItem d len).run m = some r := by
  unfold skipCborItem
  induction len using Nat.strong_induction_on generalizing d with
  | _ len ih =>
      rcases Nat.eq_zero_or_pos len with rfl | hlen
      · exact ⟨0, by simp⟩
      · by_cases hcontainer : m.IsContainer d
        · rw [run_skipCborItemDepth_container _ hlen hcontainer]
          -- the loop returns after every number of items up to the count
          suffices hloop : ∀ j ≤ m.itemCount d, ∃ o,
              (skipItems (skipCborItemDepth len) d len j
                (m.headLen d)).run m = some o from hloop _ le_rfl
          intro j
          induction j with
          | zero => intro _; exact ⟨m.headLen d, rfl⟩
          | succ j ihj =>
              intro hj
              obtain ⟨o, ho⟩ := ihj (by omega)
              have hoffset : RunningOffset m d len j o :=
                runningOffset_of_run (fun _ _ _ => declaredLen_of_run) ho
              by_cases hend : o ≥ len
              · exact ⟨o, by rw [run_skipItems_succ, ho]; simp [hend]⟩
              · have hpos : 0 < o := by
                  rcases Nat.eq_zero_or_pos o with rfl | hpos
                  · exact absurd (.here hlen hcontainer (by omega) hoffset)
                      hfree
                  · exact hpos
                have hinner : ¬ Reenters m (d + o) (len - o) := fun h =>
                  hfree (.inside hlen hcontainer (by omega) hoffset hpos
                    (by omega) h)
                obtain ⟨r, hr⟩ := ih (len - o) (by omega) hinner
                have hr' := skipCborItemDepth_mono
                  (show len - o + 1 ≤ len by omega) hr
                refine ⟨u16 (o + r), ?_⟩
                rw [run_skipItems_succ, ho]
                simp [hend, hr']
        · exact ⟨_, run_skipCborItemDepth_leaf _ hlen hcontainer⟩

theorem run_skipItems_eq_none {skip : ℕ → ℕ → Rd ℕ} {m : Mem}
    {d len j n offset : ℕ} (hle : j ≤ n)
    (h : (skipItems skip d len j offset).run m = none) :
    (skipItems skip d len n offset).run m = none := by
  induction n with
  | zero =>
      obtain rfl : j = 0 := by omega
      exact h
  | succ n ih =>
      rcases Nat.lt_or_ge n j with hlt | hge
      · obtain rfl : j = n + 1 := by omega
        exact h
      · rw [run_skipItems_succ, ih hge]
        rfl

theorem run_container_eq_none {m : Mem} {d len j o depth : ℕ}
    (hlen : 0 < len) (hcontainer : m.IsContainer d)
    (hj : j < m.itemCount d) (hoffset : RunningOffset m d len j o)
    (hmore : o < len)
    (hitem : (skipCborItemDepth depth (d + o) (len - o)).run m = none) :
    (skipCborItemDepth (depth + 1) d len).run m = none := by
  rw [run_skipCborItemDepth_container _ hlen hcontainer]
  apply run_skipItems_eq_none (j := j + 1) hj
  rw [run_skipItems_succ]
  cases hloop : (skipItems (skipCborItemDepth depth) d len j
      (m.headLen d)).run m with
  | none => rfl
  | some o' =>
      have hsame : o' = o :=
        (runningOffset_of_run (fun _ _ _ => declaredLen_of_run) hloop).unique
          hoffset
      subst hsame
      simp [hmore, hitem]

theorem Reenters.run_eq_none {m : Mem} {d len : ℕ} (h : Reenters m d len)
    (depth : ℕ) : (skipCborItemDepth depth d len).run m = none := by
  induction h generalizing depth with
  | @here d len j hlen hcontainer hj hoffset =>
      -- the call at offset zero is the same call, one level down
      induction depth with
      | zero => rfl
      | succ depth ih =>
          exact run_container_eq_none hlen hcontainer hj hoffset hlen
            (by simpa using ih)
  | inside hlen hcontainer hj hoffset _ hmore _ ih =>
      cases depth with
      | zero => rfl
      | succ depth =>
          exact run_container_eq_none hlen hcontainer hj hoffset hmore
            (ih depth)

/-- The depth which `skipCborItem` supplies is enough whenever any is. -/
theorem skipCborItem_run_eq_some_iff {m : Mem} {d len r : ℕ} :
    (skipCborItem d len).run m = some r ↔
      ∃ depth, (skipCborItemDepth depth d len).run m = some r := by
  constructor
  · exact fun h => ⟨len + 1, h⟩
  · rintro ⟨depth, h⟩
    have hfree : ¬ Reenters m d len := fun hre => by
      rw [hre.run_eq_none] at h
      cases h
    obtain ⟨r', hr'⟩ := skipCborItem_returns hfree
    have h₁ := skipCborItemDepth_mono (le_max_left depth (len + 1)) h
    have h₂ := skipCborItemDepth_mono (le_max_right depth (len + 1)) hr'
    rw [hr', ← h₂, h₁]

/-! ## The accessors -/

/-- In a container which is never re-entered, the walk stands past the head,
before an item which is not re-entered either. -/
theorem item_not_reenters {m : Mem} {d len j o : ℕ}
    (hfree : ¬ Reenters m d len) (hlen : 0 < len)
    (hcontainer : m.IsContainer d) (hj : j < m.itemCount d)
    (hoffset : RunningOffset m d len j o) (hmore : o < len) :
    0 < o ∧ ¬ Reenters m (d + o) (len - o) := by
  have hpos : 0 < o := by
    rcases Nat.eq_zero_or_pos o with rfl | hpos
    · exact absurd (.here hlen hcontainer hj hoffset) hfree
    · exact hpos
  exact ⟨hpos, fun h =>
    hfree (.inside hlen hcontainer hj hoffset hpos hmore h)⟩

/-- A step of a walk over the items of a container: skip the item at the
current offset. -/
theorem RunningOffset.skip {m : Mem} {d len j o : ℕ}
    (hoffset : RunningOffset m d len j o) (hfree : ¬ Reenters m d len)
    (hlen : 0 < len) (hcontainer : m.IsContainer d)
    (hj : j < m.itemCount d) (hmore : o < len) :
    ∃ r, (skipCborItem (d + o) (len - o)).run m = some r ∧
      RunningOffset m d len (j + 1) (u16 (o + r)) := by
  obtain ⟨_, hinner⟩ :=
    item_not_reenters hfree hlen hcontainer hj hoffset hmore
  obtain ⟨r, hr⟩ := skipCborItem_returns hinner
  exact ⟨r, hr, .next hoffset hmore (declaredLen_of_run hr)⟩

section Accessors

variable {m : Mem} {d len : ℕ}

theorem isMap_container (hmap : majorBits (m d) = 0xA0) :
    m.IsContainer d ∧ m.itemCount d = m.count d * 2 := by
  constructor
  · exact .inr hmap
  · simp [Mem.itemCount, hmap]

theorem walkEntries_returns {α : Type} {isKey : ℕ → Rd Bool}
    {found : ℕ → ℕ → Rd α} (missing : α)
    (hkey : ∀ a, ∃ hit, (isKey a).run m = some hit)
    (hfound : ∀ a rest, ¬ Reenters m a rest →
      ∃ r, (found a rest).run m = some r)
    (hfree : ¬ Reenters m d len) (hlen : 0 < len)
    (hmap : majorBits (m d) = 0xA0) {k i o : ℕ}
    (hcount : i + k = m.count d)
    (hoffset : RunningOffset m d len (2 * i) o) :
    ∃ r, (walkEntries isKey found missing d len k o).run m = some r := by
  obtain ⟨hcontainer, hitems⟩ := isMap_container hmap
  induction k generalizing i o with
  | zero => exact ⟨missing, rfl⟩
  | succ k ih =>
      by_cases hend : o ≥ len
      · exact ⟨missing, by simp [walkEntries, hend]⟩
      · obtain ⟨hit, hhit⟩ := hkey (d + o)
        obtain ⟨key, hskipKey, hvalueOffset⟩ :=
          hoffset.skip hfree hlen hcontainer (by omega) (by omega)
        by_cases hend' : u16 (o + key) ≥ len
        · exact ⟨missing, by simp [walkEntries, hend, hhit, hskipKey, hend']⟩
        · cases hit with
          | true =>
              obtain ⟨_, hvalue⟩ := item_not_reenters hfree hlen hcontainer
                (by omega) hvalueOffset (by omega)
              obtain ⟨r, hr⟩ := hfound _ _ hvalue
              exact ⟨r, by
                simp [walkEntries, hend, hhit, hskipKey, hend', hr]⟩
          | false =>
              obtain ⟨value, hskipValue, hnext⟩ :=
                hvalueOffset.skip hfree hlen hcontainer (by omega) (by omega)
              obtain ⟨r, hr⟩ := ih (i := i + 1) (by omega) hnext
              exact ⟨r, by
                simp [walkEntries, hend, hhit, hskipKey, hend', hskipValue,
                  hr]⟩

theorem walkMap_returns {α : Type} {isKey : ℕ → Rd Bool}
    {found : ℕ → ℕ → Rd α} {notMap missing : α}
    (hkey : ∀ a, ∃ hit, (isKey a).run m = some hit)
    (hfound : ∀ a rest, ¬ Reenters m a rest →
      ∃ r, (found a rest).run m = some r)
    (hfree : ¬ Reenters m d len) :
    ∃ r, (walkMap isKey found notMap missing d len).run m = some r := by
  rcases Nat.eq_zero_or_pos len with rfl | hlen
  · exact ⟨notMap, by simp [walkMap]⟩
  · have hne : len ≠ 0 := by omega
    by_cases hmap : majorBits (m d) = 0xA0
    · obtain ⟨r, hr⟩ := walkEntries_returns missing hkey hfound
        hfree hlen hmap (i := 0) (Nat.zero_add _) .start
      exact ⟨r, by simp [walkMap, hne, hmap, hr]⟩
    · exact ⟨notMap, by simp [walkMap, hne, hmap]⟩

theorem isUintKey_returns (key a : ℕ) :
    ∃ hit, (isUintKey key a).run m = some hit := by
  by_cases htype : majorBits (m a) = 0x00
  · by_cases h24 : infoBits (m a) = 24
    · exact ⟨_, by simp [isUintKey, htype, h24]; rfl⟩
    · by_cases h25 : infoBits (m a) = 25
      · exact ⟨_, by simp [isUintKey, htype, h25]; rfl⟩
      · exact ⟨_, by simp [isUintKey, htype, h24, h25]; rfl⟩
  · exact ⟨false, by simp [isUintKey, htype]⟩

theorem valuePayload_returns (a rest : ℕ) :
    ∃ r, (valuePayload a rest).run m = some r :=
  ⟨some ⟨a + m.headLen a, m.count a, majorBits (m a)⟩, by
    simp [valuePayload]⟩

theorem getCborMapValue_returns (hfree : ¬ Reenters m d len) (key : ℕ) :
    ∃ r, (getCborMapValue d len key).run m = some r :=
  walkMap_returns (isUintKey_returns key)
    (fun a rest _ => valuePayload_returns a rest) hfree

theorem valueInt_returns (a rest : ℕ) :
    ∃ r, (valueInt a rest).run m = some r := by
  by_cases htype : majorBits (m a) = 0x00
  · by_cases hinfo : infoBits (m a) ≤ 25
    · exact ⟨some (m.count a), by simp [valueInt, htype, hinfo]⟩
    · exact ⟨none, by simp [valueInt, htype, hinfo]⟩
  · exact ⟨none, by simp [valueInt, htype]⟩

theorem getCborMapInt_returns (hfree : ¬ Reenters m d len) (key : ℕ) :
    ∃ r, (getCborMapInt d len key).run m = some r :=
  walkMap_returns (isUintKey_returns key)
    (fun a rest _ => valueInt_returns a rest) hfree

theorem getCborMapItem_returns (hfree : ¬ Reenters m d len) (key : ℕ) :
    ∃ r, (getCborMapItem d len key).run m = some r := by
  apply walkMap_returns (isUintKey_returns key) _ hfree
  intro a rest hvalue
  obtain ⟨r, hr⟩ := skipCborItem_returns hvalue
  exact ⟨.item a r, by simp [hr]⟩

theorem getCborMapNegValue_returns (hfree : ¬ Reenters m d len)
    (negVal : ℕ) : ∃ r, (getCborMapNegValue d len negVal).run m = some r :=
  walkMap_returns (fun a => ⟨_, by simp [isNegKey]; rfl⟩)
    (fun a rest _ => valuePayload_returns a rest) hfree

theorem isTextKey_returns (key : List UInt8) (a : ℕ) :
    ∃ hit, (isTextKey key a).run m = some hit := by
  by_cases htype : majorBits (m a) = 0x60
  · by_cases hlen : u8 (m.count a) = key.length
    · exact ⟨_, by simp [isTextKey, htype, hlen]; rfl⟩
    · exact ⟨false, by simp [isTextKey, htype, hlen]⟩
  · exact ⟨false, by simp [isTextKey, htype]⟩

theorem stringPayload_returns (a : ℕ) :
    ∃ r, (stringPayload a).run m = some r := by
  by_cases htype : majorBits (m a) = 0x40 ∨ majorBits (m a) = 0x60
  · exact ⟨some (a + m.headLen a, u8 (m.count a)), by
      simp [stringPayload, htype]⟩
  · exact ⟨none, by simp [stringPayload, htype]⟩

theorem getStringEntries_returns (key : List UInt8)
    (hfree : ¬ Reenters m d len) (hlen : 0 < len)
    (hmap : majorBits (m d) = 0xA0) {k i o : ℕ}
    (hcount : i + k = m.count d)
    (hoffset : RunningOffset m d len (2 * i) o) :
    ∃ r, (getStringEntries key d len k o).run m = some r := by
  obtain ⟨hcontainer, hitems⟩ := isMap_container hmap
  induction k generalizing i o with
  | zero => exact ⟨none, rfl⟩
  | succ k ih =>
      by_cases hend : o + 1 ≥ len
      · exact ⟨none, by simp [getStringEntries, hend]⟩
      · obtain ⟨keyLen, hskipKey, hvalueOffset⟩ :=
          hoffset.skip hfree hlen hcontainer (by omega) (by omega)
        by_cases hzero : keyLen = 0
        · exact ⟨none, by simp [getStringEntries, hend, hskipKey, hzero]⟩
        · obtain ⟨hit, hhit⟩ := isTextKey_returns (m := m) key (d + o)
          cases hit with
          | true =>
              by_cases hpast : d + o + keyLen ≥ d + len
              · exact ⟨none, by
                  simp [getStringEntries, hend, hskipKey, hzero, hhit,
                    hpast]⟩
              · obtain ⟨r, hr⟩ :=
                  stringPayload_returns (m := m) (d + o + keyLen)
                exact ⟨r, by
                  simp [getStringEntries, hend, hskipKey, hzero, hhit, hpast,
                    hr]⟩
          | false =>
              by_cases hend' : u16 (o + keyLen) ≥ len
              · exact ⟨none, by
                  simp [getStringEntries, hend, hskipKey, hzero, hhit,
                    hend']⟩
              · obtain ⟨value, hskipValue, hnext⟩ := hvalueOffset.skip hfree
                  hlen hcontainer (by omega) (by omega)
                obtain ⟨r, hr⟩ := ih (i := i + 1) (by omega) hnext
                exact ⟨r, by
                  simp [getStringEntries, hend, hskipKey, hzero, hhit, hend',
                    hskipValue, hr]⟩

theorem cborMapGetString_returns (hfree : ¬ Reenters m d len)
    (key : List UInt8) :
    ∃ r, (cborMapGetString d len key).run m = some r := by
  rcases Nat.eq_zero_or_pos len with rfl | hlen
  · exact ⟨none, by simp [cborMapGetString]⟩
  · have hne : len ≠ 0 := by omega
    by_cases hmap : majorBits (m d) = 0xA0
    · obtain ⟨r, hr⟩ := getStringEntries_returns key hfree hlen hmap
        (i := 0) (Nat.zero_add _) .start
      exact ⟨r, by simp [cborMapGetString, hne, hmap, hr]⟩
    · exact ⟨none, by simp [cborMapGetString, hne, hmap]⟩

end Accessors

/-! ## Recursive calls -/

/-- `skip_cbor_item` on `(d, len)` calls itself on `(d', len')`: its item loop
comes to offset `d' - d` with items left. -/
def Calls (m : Mem) (c c' : ℕ × ℕ) : Prop :=
  0 < c.2 ∧ m.IsContainer c.1 ∧ ∃ depth j o, j < m.itemCount c.1 ∧
    (skipItems (skipCborItemDepth depth) c.1 c.2 j
      (m.headLen c.1)).run m = some o ∧
    o < c.2 ∧ c' = (c.1 + o, c.2 - o)

/-- A call on `len` bytes at `d` returns, only ever calls itself on a strictly
shorter suffix, and so do the map accessors built on it return. -/
structure ScanReturns (m : Mem) (d len : ℕ) : Prop where
  returns : ∃ depth r, (skipCborItemDepth depth d len).run m = some r
  shorter : ∀ c c', Relation.ReflTransGen (Calls m) (d, len) c →
    Calls m c c' → c'.2 < c.2 ∧ c'.1 + c'.2 = c.1 + c.2
  value : ∀ key, ∃ r, (getCborMapValue d len key).run m = some r
  int : ∀ key, ∃ r, (getCborMapInt d len key).run m = some r
  item : ∀ key, ∃ r, (getCborMapItem d len key).run m = some r
  negValue : ∀ key, ∃ r, (getCborMapNegValue d len key).run m = some r
  string : ∀ key, ∃ r, (cborMapGetString d len key).run m = some r

theorem Calls.offset {m : Mem} {c c' : ℕ × ℕ} (h : Calls m c c')
    (hfree : ¬ Reenters m c.1 c.2) :
    (c'.2 < c.2 ∧ c'.1 + c'.2 = c.1 + c.2) ∧ ¬ Reenters m c'.1 c'.2 := by
  obtain ⟨hlen, hcontainer, depth, j, o, hj, hrun, hmore, rfl⟩ := h
  have hoffset : RunningOffset m c.1 c.2 j o :=
    runningOffset_of_run (fun _ _ _ => declaredLen_of_run) hrun
  obtain ⟨hpos, hinner⟩ :=
    item_not_reenters hfree hlen hcontainer hj hoffset hmore
  exact ⟨⟨by dsimp only; omega, by dsimp only; omega⟩, hinner⟩

theorem not_reenters_of_calls {m : Mem} {c c' : ℕ × ℕ}
    (hfree : ¬ Reenters m c.1 c.2)
    (hcalls : Relation.ReflTransGen (Calls m) c c') :
    ¬ Reenters m c'.1 c'.2 := by
  induction hcalls with
  | refl => exact hfree
  | tail _ hcall ih => exact (hcall.offset ih).2

/-- The scanner and the accessors return, on shrinking suffixes, exactly on
the buffers in which no container comes back to its own start. -/
theorem scanReturns_iff (m : Mem) (d len : ℕ) :
    ScanReturns m d len ↔ ¬ Reenters m d len := by
  constructor
  · rintro ⟨⟨depth, r, hr⟩, _⟩ hre
    rw [hre.run_eq_none] at hr
    cases hr
  · intro hfree
    exact {
      returns := by
        obtain ⟨r, hr⟩ := skipCborItem_returns hfree
        exact ⟨len + 1, r, hr⟩
      shorter := fun c c' hcalls hcall =>
        (hcall.offset (not_reenters_of_calls hfree hcalls)).1
      value := getCborMapValue_returns hfree
      int := getCborMapInt_returns hfree
      item := getCborMapItem_returns hfree
      negValue := getCborMapNegValue_returns hfree
      string := cborMapGetString_returns hfree }

/-- The two-item array whose first item is a byte string of 65532 bytes:
`82 59 FF FC`. -/
def wrappingArray : Mem := fun i => [0x82, 0x59, 0xFF, 0xFC].getD i 0

theorem wrappingArray_not_scanReturns :
    ¬ ∀ (m : Mem) (d len : ℕ), len ≤ 65535 → ScanReturns m d len := by
  intro h
  -- the string ends 65535 bytes after its start at offset one
  have hcontainer : wrappingArray.IsContainer 0 := by decide
  have hstring : DeclaredLen wrappingArray (0 + 1) (4 - 1) 65535 :=
    .leaf (by omega) (by decide)
  have hoffset : RunningOffset wrappingArray 0 4 1 0 :=
    .next .start (by decide) hstring
  exact (scanReturns_iff wrappingArray 0 4).mp (h wrappingArray 0 4 (by omega))
    (.here (by omega) hcontainer (by decide) hoffset)

end UnsoloKey
