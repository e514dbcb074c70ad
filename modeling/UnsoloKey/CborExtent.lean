import UnsoloKey.ScanTermination
import Mathlib.Tactic

/-!
# The extent of an item

`skip_cbor_item` adds up lengths modulo 65536.  The extent of an item is the same
sum in full.  As long as it stays below 65536 the scanner computes it, and what the
accessors find in an item is decided by the bytes of its extent alone, wherever
in the request the item stands.
-/

namespace UnsoloKey

open Rd

namespace Mem

def leafExtent (m : Mem) (d : ℕ) : ℕ :=
  if majorBits (m d) = 0x40 ∨ majorBits (m d) = 0x60 then m.headLen d + m.count d
  else m.headLen d

def extentItems (extent : ℕ → ℕ → ℕ) (d len : ℕ) : ℕ → ℕ → ℕ
  | 0, o => o
  | j + 1, o =>
      if o ≥ len then o
      else extentItems extent d len j (o + extent (d + o) (len - o))

def extentDepth (m : Mem) : ℕ → ℕ → ℕ → ℕ
  | 0, _, _ => 0
  | depth + 1, d, len =>
      if len = 0 then 0
      else if m.IsContainer d then
        extentItems (m.extentDepth depth) d len (m.itemCount d) (m.headLen d)
      else m.leafExtent d

/-- How many bytes the item at `d` takes, with `len` bytes left for its items to
start in. -/
def extent (m : Mem) (d len : ℕ) : ℕ :=
  m.extentDepth (len + 1) d len

section

variable {m m' : Mem} {extent extent' : ℕ → ℕ → ℕ} {d d' len len' depth depth' j o : ℕ}

theorem extentItems_done (h : o ≥ len) : extentItems extent d len j o = o := by
  cases j with
  | zero => rfl
  | succ j => rw [extentItems, if_pos h]

theorem extentItems_next (h : o < len) : extentItems extent d len (j + 1) o =
    extentItems extent d len j (o + extent (d + o) (len - o)) := by
  rw [extentItems, if_neg (by omega)]

theorem le_extentItems : o ≤ extentItems extent d len j o := by
  induction j generalizing o with
  | zero => exact le_rfl
  | succ j ih =>
      rw [extentItems]
      split
      · exact le_rfl
      · exact le_trans (Nat.le_add_right _ _) ih

theorem extentDepth_leaf (hlen : 0 < len) (hleaf : ¬ m.IsContainer d) :
    m.extentDepth (depth + 1) d len = m.leafExtent d := by
  rw [extentDepth, if_neg (by omega), if_neg hleaf]

theorem extentDepth_container (hlen : 0 < len) (hcontainer : m.IsContainer d) :
    m.extentDepth (depth + 1) d len =
      extentItems (m.extentDepth depth) d len (m.itemCount d) (m.headLen d) := by
  rw [extentDepth, if_neg (by omega), if_pos hcontainer]

theorem headLen_le_leafExtent : m.headLen d ≤ m.leafExtent d := by
  unfold leafExtent
  split <;> omega

theorem headLen_le_extentDepth (depth : ℕ) (hlen : 0 < len) :
    m.headLen d ≤ m.extentDepth (depth + 1) d len := by
  by_cases hcontainer : m.IsContainer d
  · rw [extentDepth_container hlen hcontainer]
    exact le_extentItems
  · rw [extentDepth_leaf hlen hcontainer]
    exact headLen_le_leafExtent

theorem extentDepth_pos (hlen : 0 < len) (hdepth : len < depth) :
    0 < m.extentDepth depth d len := by
  obtain ⟨depth, rfl⟩ := Nat.exists_eq_add_of_lt hdepth
  exact lt_of_lt_of_le (headLen_pos d) (headLen_le_extentDepth _ hlen)

/-! ## Below 65536 the scanner computes the extent -/

theorem skipItems_of_extent
    (hitem : ∀ d len, len < depth → m.extentDepth depth d len < 65536 →
      (skipCborItemDepth depth d len).run m = some (m.extentDepth depth d len))
    (ho : 0 < o) (hdepth : len ≤ depth)
    (hshort : extentItems (m.extentDepth depth) d len j o < 65536) :
    (skipItems (skipCborItemDepth depth) d len j o).run m =
      some (extentItems (m.extentDepth depth) d len j o) := by
  induction j generalizing o with
  | zero => rfl
  | succ j ih =>
      rw [extentItems] at hshort ⊢
      rw [skipItems]
      by_cases hend : o ≥ len
      · simp [hend]
      · simp only [hend, if_false] at hshort ⊢
        have hnext : o + m.extentDepth depth (d + o) (len - o) < 65536 :=
          lt_of_le_of_lt le_extentItems hshort
        have hskip := hitem (d + o) (len - o) (by omega) (by omega)
        have hwrap : u16 (o + m.extentDepth depth (d + o) (len - o)) =
            o + m.extentDepth depth (d + o) (len - o) := Nat.mod_eq_of_lt hnext
        rw [run_bind, hskip, Option.bind_some, hwrap]
        exact ih (by omega) hshort

theorem skip_of_extentDepth (hdepth : len < depth)
    (hshort : m.extentDepth depth d len < 65536) :
    (skipCborItemDepth depth d len).run m = some (m.extentDepth depth d len) := by
  induction depth generalizing d len with
  | zero => omega
  | succ depth ih =>
      rcases Nat.eq_zero_or_pos len with rfl | hlen
      · simp [extentDepth]
      · by_cases hcontainer : m.IsContainer d
        · rw [extentDepth_container hlen hcontainer] at hshort ⊢
          rw [run_skipCborItemDepth_container _ hlen hcontainer]
          exact skipItems_of_extent (fun _ _ => ih) (headLen_pos d) (by omega) hshort
        · rw [extentDepth_leaf hlen hcontainer] at hshort ⊢
          rw [run_skipCborItemDepth_leaf _ hlen hcontainer]
          unfold leafExtent at hshort ⊢
          unfold leafLen
          split
          · rename_i hstring
            rw [if_pos hstring] at hshort
            rw [u16, Nat.mod_eq_of_lt hshort]
          · rfl

theorem skip_of_extent (hshort : m.extent d len < 65536) :
    (skipCborItem d len).run m = some (m.extent d len) :=
  skip_of_extentDepth (Nat.lt_succ_self len) hshort

/-! ## The bytes of the extent decide -/

/-- Two places with the same `n` bytes. -/
def Agree (m : Mem) (d : ℕ) (m' : Mem) (d' n : ℕ) : Prop :=
  ∀ i < n, m (d + i) = m' (d' + i)

theorem Agree.shift {n k : ℕ} (h : Agree m d m' d' n) (hk : o + k ≤ n) :
    Agree m (d + o) m' (d' + o) k := by
  intro i hi
  rw [Nat.add_assoc, Nat.add_assoc]
  exact h (o + i) (by omega)

theorem Agree.slice {n k : ℕ} (h : Agree m d m' d' n) (hk : o + k ≤ n) :
    m.slice (d + o) k = m'.slice (d' + o) k := by
  unfold Mem.slice
  refine List.map_congr_left fun i hi => ?_
  exact h.shift hk i (List.mem_range.1 hi)

theorem agree_of_slice {n : ℕ} (h : m.slice d n = m'.slice d' n) :
    Agree m d m' d' n := by
  intro i hi
  have hget := congrArg (·[i]?) h
  simpa [Mem.slice, hi] using hget

structure SameHead (m : Mem) (d : ℕ) (m' : Mem) (d' : ℕ) : Prop where
  byte : m' d' = m d
  headLen : m'.headLen d' = m.headLen d
  count : m'.count d' = m.count d

theorem Agree.sameHead (h : Agree m d m' d' (m.headLen d)) : SameHead m d m' d' := by
  have hbyte : m d = m' d' := h 0 (headLen_pos d)
  unfold Mem.headLen at h
  refine ⟨hbyte.symm, ?_, ?_⟩
  · rw [Mem.headLen, Mem.headLen, hbyte]
  · unfold Mem.count
    rw [← hbyte]
    split
    · rename_i hone
      rw [if_pos hone] at h
      rw [h 1 (by omega)]
    · rename_i hone
      rw [if_neg hone] at h
      split
      · rename_i htwo
        rw [if_pos htwo] at h
        rw [h 1 (by omega), h 2 (by omega)]
      · rfl

theorem SameHead.isContainer (h : SameHead m d m' d') :
    m'.IsContainer d' ↔ m.IsContainer d := by
  rw [IsContainer, IsContainer, h.byte]

theorem SameHead.itemCount (h : SameHead m d m' d') :
    m'.itemCount d' = m.itemCount d := by
  rw [Mem.itemCount, Mem.itemCount, h.byte, h.count]

theorem SameHead.leafExtent (h : SameHead m d m' d') :
    m'.leafExtent d' = m.leafExtent d := by
  rw [Mem.leafExtent, Mem.leafExtent, h.byte, h.count, h.headLen]

/-- An item of extent `e` in `len` bytes has the same extent in `len'` bytes: it fits,
and unless it did so before with bytes to spare, it fits exactly. -/
def Refits (e len len' : ℕ) : Prop :=
  e ≤ len' ∧ (len ≤ e → len' = e)

theorem extentItems_move
    (hitem : ∀ d d' len len', len < depth → len' < depth' →
      Agree m d m' d' (m.extentDepth depth d len) →
      Refits (m.extentDepth depth d len) len len' →
      m'.extentDepth depth' d' len' = m.extentDepth depth d len)
    (ho : 0 < o) (hdepth : len ≤ depth) (hdepth' : len' ≤ depth')
    (hagree : Agree m d m' d' (extentItems (m.extentDepth depth) d len j o))
    (hfits : Refits (extentItems (m.extentDepth depth) d len j o) len len') :
    extentItems (m'.extentDepth depth') d' len' j o =
      extentItems (m.extentDepth depth) d len j o := by
  induction j generalizing o with
  | zero => rfl
  | succ j ih =>
      obtain ⟨hle, hexact⟩ := hfits
      by_cases hend : o ≥ len
      · rw [extentItems_done hend] at hexact ⊢
        exact extentItems_done (hexact hend).le
      · have hmore : o < len := by omega
        rw [extentItems_next hmore] at hagree hle hexact ⊢
        have hpos : 0 < m.extentDepth depth (d + o) (len - o) :=
          extentDepth_pos (by omega) (by omega)
        have hnext : o + m.extentDepth depth (d + o) (len - o) ≤
            extentItems (m.extentDepth depth) d len j
              (o + m.extentDepth depth (d + o) (len - o)) := le_extentItems
        -- an item which reaches the end of the bytes left is the last one
        have hlast : len ≤ o + m.extentDepth depth (d + o) (len - o) →
            len' = o + m.extentDepth depth (d + o) (len - o) := by
          intro hreached
          rw [extentItems_done hreached] at hexact
          exact hexact hreached
        have hsame : m'.extentDepth depth' (d' + o) (len' - o) =
            m.extentDepth depth (d + o) (len - o) :=
          hitem _ _ _ _ (by omega) (by omega) (hagree.shift hnext)
            ⟨by omega, fun hreached => by have := hlast (by omega); omega⟩
        rw [extentItems_next (by omega), hsame]
        exact ih (by omega) hagree ⟨hle, hexact⟩

theorem extentDepth_move (hdepth : len < depth) (hdepth' : len' < depth')
    (hagree : Agree m d m' d' (m.extentDepth depth d len))
    (hfits : Refits (m.extentDepth depth d len) len len') :
    m'.extentDepth depth' d' len' = m.extentDepth depth d len := by
  induction depth generalizing depth' d d' len len' with
  | zero => omega
  | succ depth ih =>
      obtain ⟨depth', rfl⟩ : ∃ k, depth' = k + 1 := ⟨depth' - 1, by omega⟩
      rcases Nat.eq_zero_or_pos len with rfl | hlen
      · obtain rfl : len' = 0 := hfits.2 (Nat.zero_le _)
        rfl
      · have hhead := headLen_le_extentDepth (m := m) (d := d) depth hlen
        have hpos := headLen_pos (m := m) d
        have hsame : SameHead m d m' d' :=
          Agree.sameHead fun i hi => hagree i (by omega)
        have hlen' : 0 < len' := by
          have := hfits.1
          omega
        by_cases hcontainer : m.IsContainer d
        · rw [extentDepth_container hlen hcontainer] at hagree hfits ⊢
          rw [extentDepth_container hlen' (hsame.isContainer.2 hcontainer),
            hsame.itemCount, hsame.headLen]
          exact extentItems_move (fun _ _ _ _ => ih) hpos (by omega) (by omega)
            hagree hfits
        · rw [extentDepth_leaf hlen hcontainer,
            extentDepth_leaf hlen' (fun h => hcontainer (hsame.isContainer.1 h)),
            hsame.leafExtent]

theorem extent_move (hagree : Agree m d m' d' (m.extent d len))
    (hfits : Refits (m.extent d len) len len') : m'.extent d' len' = m.extent d len :=
  extentDepth_move (Nat.lt_succ_self len) (Nat.lt_succ_self len') hagree hfits

theorem extent_self : m.extent d (m.extent d len) = m.extent d len :=
  extent_move (fun _ _ => rfl) ⟨le_rfl, fun _ => rfl⟩

theorem extentDepth_eq (hdepth : len < depth)
    (hfits : m.extentDepth depth d len ≤ len) :
    m.extentDepth depth d len = m.extent d len :=
  (extentDepth_move hdepth (Nat.lt_succ_self len) (fun _ _ => rfl)
    ⟨hfits, fun h => le_antisymm h hfits⟩).symm

end

end Mem

/-! ## Where an accessor stops -/

def placeFound (at_ remaining : ℕ) : Rd (Option (ℕ × ℕ)) :=
  return some (at_, remaining)

section

variable {α : Type} {isKey : ℕ → Rd Bool} {found : ℕ → ℕ → Rd α} {notMap missing x : α}
  {m : Mem} {data len count offset : ℕ}

theorem walkEntries_place
    (h : (walkEntries isKey found missing data len count offset).run m =
      some x) :
    (x = missing ∧ (walkEntries isKey placeFound none data len count
      offset).run m = some none) ∨
    ∃ p remaining, 0 < remaining ∧ (walkEntries isKey placeFound none data len
      count offset).run m = some (some (p, remaining)) ∧
      (found p remaining).run m = some x := by
  induction count generalizing offset with
  | zero => exact .inl ⟨(Option.some.inj h).symm, rfl⟩
  | succ count ih =>
      rw [walkEntries] at h ⊢
      by_cases hend : offset ≥ len
      · rw [if_pos hend] at h ⊢
        exact .inl ⟨(Option.some.inj h).symm, rfl⟩
      · simp only [hend, if_false, run_bind_eq_some] at h
        obtain ⟨hit, hhit, keyLen, hskip, h⟩ := h
        simp only [hend, if_false, run_bind, hhit, hskip, Option.bind_some]
        by_cases hlast : u16 (offset + keyLen) ≥ len
        · rw [if_pos hlast] at h ⊢
          exact .inl ⟨(Option.some.inj h).symm, rfl⟩
        · rw [if_neg hlast] at h ⊢
          cases hit with
          | true =>
              rw [if_pos rfl] at h ⊢
              exact .inr ⟨_, _, by omega, rfl, h⟩
          | false =>
              rw [if_neg (by simp)] at h ⊢
              obtain ⟨value, hvalue, h⟩ := run_bind_eq_some.1 h
              rw [run_bind, hvalue, Option.bind_some]
              exact ih h

theorem walkMap_place
    (h : (walkMap isKey found notMap missing data len).run m = some x) :
    ((x = notMap ∨ x = missing) ∧ (walkMap isKey placeFound none none data len).run m = some none) ∨
    ∃ p remaining, 0 < remaining ∧
      (walkMap isKey placeFound none none data len).run m = some (some (p, remaining)) ∧
      (found p remaining).run m = some x := by
  rw [walkMap] at h ⊢
  by_cases hempty : len = 0
  · rw [if_pos hempty] at h ⊢
    exact .inl ⟨.inl (Option.some.inj h).symm, rfl⟩
  · simp only [hempty, if_false, run_bind, run_byte, Option.bind_some] at h ⊢
    by_cases hmap : majorBits (m data) ≠ 0xA0
    · rw [if_pos hmap] at h ⊢
      exact .inl ⟨.inl (Option.some.inj h).symm, rfl⟩
    · simp only [hmap, if_false, run_bind, run_headCount, Option.bind_some] at h ⊢
      rcases walkEntries_place h with ⟨rfl, hplace⟩ | hplace
      · exact .inl ⟨.inr rfl, hplace⟩
      · exact .inr hplace

end

/-! ## What the accessors find -/

section

variable {m m' : Mem} {p p' s key : ℕ}

theorem isUintKey_run (m : Mem) (key at_ : ℕ) : (isUintKey key at_).run m = some
    (decide (majorBits (m at_) = 0x00 ∧
      if infoBits (m at_) = 25 then key = 0 else m.count at_ = key)) := by
  unfold isUintKey Mem.count
  by_cases hmajor : majorBits (m at_) = 0x00
  · by_cases hone : infoBits (m at_) = 24
    · simp [hmajor, hone]
    · by_cases htwo : infoBits (m at_) = 25 <;> simp [hmajor, hone, htwo]
  · simp [hmajor]

theorem Mem.SameHead.isUintKey {d d' : ℕ} (h : m.SameHead d m' d') (key : ℕ) :
    (isUintKey key d').run m' = (isUintKey key d).run m := by
  rw [isUintKey_run, isUintKey_run, h.byte, h.count]

/-- An item inside the first `s` bytes behind `p`, which the scanner skips over
there as behind `p'`. -/
structure Inside (m : Mem) (p : ℕ) (m' : Mem) (p' s o : ℕ) : Prop where
  fits : o + m.extent (p + o) (s - o) ≤ s
  more : o < s
  skip : (skipCborItem (p + o) (s - o)).run m = some (m.extent (p + o) (s - o))
  skip' : (skipCborItem (p' + o) (s - o)).run m' = some (m.extent (p + o) (s - o))
  sameHead : m.SameHead (p + o) m' (p' + o)

theorem inside_of_fits {o : ℕ} (hagree : m.Agree p m' p' s) (hshort : s < 65536)
    (hmore : o < s) (hfits : o + m.extentDepth s (p + o) (s - o) ≤ s) (ho : 0 < o) :
    m.extentDepth s (p + o) (s - o) = m.extent (p + o) (s - o) ∧
      Inside m p m' p' s o := by
  have heq : m.extentDepth s (p + o) (s - o) = m.extent (p + o) (s - o) :=
    Mem.extentDepth_eq (by omega) (by omega)
  rw [heq] at hfits
  have hsame := hagree.shift hfits
  have hmove : m'.extent (p' + o) (s - o) = m.extent (p + o) (s - o) :=
    Mem.extent_move hsame ⟨by omega, by omega⟩
  have hhead : m.headLen (p + o) ≤ m.extent (p + o) (s - o) :=
    Mem.headLen_le_extentDepth _ (by omega)
  refine ⟨heq, hfits, hmore, Mem.skip_of_extent (by omega), ?_,
    Mem.Agree.sameHead fun i hi => hsame i (by omega)⟩
  rw [← hmove]
  exact Mem.skip_of_extent (by omega)

theorem run_walkEntries {α : Type} {isKey : ℕ → Rd Bool} {found : ℕ → ℕ → Rd α}
    {missing : α} {data len count offset keyLen : ℕ} {hit : Bool}
    (hmore : offset < len) (hhit : (isKey (data + offset)).run m = some hit)
    (hskip : (skipCborItem (data + offset) (len - offset)).run m = some keyLen)
    (hwrap : offset + keyLen < 65536) :
    (walkEntries isKey found missing data len (count + 1) offset).run m =
      if offset + keyLen ≥ len then some missing
      else if hit then
        (found (data + (offset + keyLen)) (len - (offset + keyLen))).run m
      else ((skipCborItem (data + (offset + keyLen)) (len - (offset + keyLen))).run
        m).bind fun value =>
          (walkEntries isKey found missing data len count
            (u16 (offset + keyLen + value))).run m := by
  have hu16 : u16 (offset + keyLen) = offset + keyLen := Nat.mod_eq_of_lt hwrap
  rw [walkEntries, if_neg (by omega), run_bind, hhit, Option.bind_some, run_bind,
    hskip, Option.bind_some, hu16, run_ite, run_ite, run_bind, run_pure]

/-- Two walks over the same bytes find nothing, or they find the same item. -/
theorem walkEntries_move {α : Type} {found : ℕ → ℕ → Rd α} {missing : α} {j o : ℕ}
    (hagree : m.Agree p m' p' s) (hshort : s < 65536) (ho : 0 < o)
    (htotal : Mem.extentItems (m.extentDepth s) p s (j * 2) o ≤ s) :
    ((walkEntries (isUintKey key) found missing p s j o).run m = some missing ∧
      (walkEntries (isUintKey key) found missing p' s j o).run m' = some missing) ∨
    ∃ i, Inside m p m' p' s i ∧
      (walkEntries (isUintKey key) found missing p s j o).run m =
        (found (p + i) (s - i)).run m ∧
      (walkEntries (isUintKey key) found missing p' s j o).run m' =
        (found (p' + i) (s - i)).run m' := by
  induction j generalizing o with
  | zero => exact .inl ⟨rfl, rfl⟩
  | succ j ih =>
      have htwo : (j + 1) * 2 = j * 2 + 1 + 1 := by omega
      rw [htwo] at htotal
      by_cases hend : o ≥ s
      · simp [walkEntries, hend]
      · rw [Mem.extentItems_next (by omega)] at htotal
        have hkeyFits := le_trans Mem.le_extentItems htotal
        obtain ⟨hextent, hkey⟩ := inside_of_fits hagree hshort (by omega) hkeyFits ho
        rw [hextent] at htotal hkeyFits
        have hhit := hkey.sameHead.isUintKey key
        obtain ⟨hit, hrun⟩ : ∃ hit, (isUintKey key (p + o)).run m = some hit :=
          ⟨_, isUintKey_run m key (p + o)⟩
        rw [hrun] at hhit
        rw [run_walkEntries hkey.more hrun hkey.skip (by omega),
          run_walkEntries hkey.more hhit hkey.skip' (by omega)]
        by_cases hlast : o + m.extent (p + o) (s - o) ≥ s
        · simp [hlast]
        · rw [if_neg hlast, if_neg hlast]
          rw [Mem.extentItems_next (by omega)] at htotal
          have hfits := le_trans Mem.le_extentItems htotal
          obtain ⟨hextent, hvalue⟩ := inside_of_fits hagree hshort (by omega) hfits
            (by omega)
          rw [hextent] at htotal
          cases hit with
          | true => exact .inr ⟨_, hvalue, rfl, rfl⟩
          | false =>
              have hbound := hvalue.fits
              simp only [hvalue.skip, hvalue.skip', Option.bind_some,
                Bool.false_eq_true, if_false]
              rw [u16, Nat.mod_eq_of_lt (by omega)]
              exact ih (by omega) htotal

theorem walkMap_move {α : Type} {found : ℕ → ℕ → Rd α} {notMap missing : α}
    (hagree : m.Agree p m' p' s) (hshort : s < 65536) (hself : m.extent p s = s) :
    (∃ y, (y = notMap ∨ y = missing) ∧
      (walkMap (isUintKey key) found notMap missing p s).run m = some y ∧
      (walkMap (isUintKey key) found notMap missing p' s).run m' = some y) ∨
    ∃ i, Inside m p m' p' s i ∧
      (walkMap (isUintKey key) found notMap missing p s).run m =
        (found (p + i) (s - i)).run m ∧
      (walkMap (isUintKey key) found notMap missing p' s).run m' =
        (found (p' + i) (s - i)).run m' := by
  rcases Nat.eq_zero_or_pos s with rfl | hpos
  · exact .inl ⟨notMap, .inl rfl, rfl, rfl⟩
  · have hhead : m.headLen p ≤ s := by
      have := Mem.headLen_le_extentDepth (m := m) (d := p) s hpos
      rw [Mem.extent] at hself
      omega
    have hsame : m.SameHead p m' p' := Mem.Agree.sameHead fun i hi => hagree i (by omega)
    have hzero : ¬ s = 0 := by omega
    by_cases hmap : majorBits (m p) = 0xA0
    · have hcontainer : m.IsContainer p := .inr hmap
      have hnot : ¬ majorBits (m p) ≠ 0xA0 := not_not.2 hmap
      have hcount : m.itemCount p = m.count p * 2 := by
        rw [Mem.itemCount, hmap, if_neg (by decide)]
      rw [Mem.extent, Mem.extentDepth_container hpos hcontainer, hcount] at hself
      have hrun : (walkMap (isUintKey key) found notMap missing p s).run m =
          (walkEntries (isUintKey key) found missing p s (m.count p)
            (m.headLen p)).run m := by
        simp [walkMap, hzero, hmap]
      have hrun' : (walkMap (isUintKey key) found notMap missing p' s).run m' =
          (walkEntries (isUintKey key) found missing p' s (m.count p)
            (m.headLen p)).run m' := by
        have hmap' : majorBits (m' p') = 0xA0 := by rw [hsame.byte, hmap]
        simp [walkMap, hzero, hmap', hsame.count, hsame.headLen]
      rw [hrun, hrun']
      rcases walkEntries_move hagree
        hshort (Mem.headLen_pos p) hself.le with ⟨hleft, hright⟩ | hfound
      · exact .inl ⟨missing, .inr rfl, hleft, hright⟩
      · exact .inr hfound
    · have hmap' : ¬ majorBits (m' p') = 0xA0 := by rwa [hsame.byte]
      exact .inl ⟨notMap, .inl rfl, by simp [walkMap, hzero, hmap],
        by simp [walkMap, hzero, hmap']⟩

theorem getCborMapItem_move (hagree : m.Agree p m' p' s) (hshort : s < 65536)
    (hself : m.extent p s = s) :
    (∃ y, (y = .null ∨ y = .fallsOff) ∧ (getCborMapItem p s key).run m = some y ∧
      (getCborMapItem p' s key).run m' = some y) ∨
    ∃ i e, i + e ≤ s ∧ m.extent (p + i) e = e ∧
      (getCborMapItem p s key).run m = some (.item (p + i) e) ∧
      (getCborMapItem p' s key).run m' = some (.item (p' + i) e) := by
  rcases walkMap_move hagree hshort hself with hnone | ⟨i, hi, hrun, hrun'⟩
  · exact .inl hnone
  · refine .inr ⟨i, _, hi.fits, Mem.extent_self, hrun.trans ?_, hrun'.trans ?_⟩
    · rw [run_bind, hi.skip]
      rfl
    · rw [run_bind, hi.skip']
      rfl

theorem valuePayload_eq (m : Mem) (at_ remaining : ℕ) :
    (valuePayload at_ remaining).run m =
      some (some ⟨at_ + m.headLen at_, m.count at_, majorBits (m at_)⟩) := by
  simp [valuePayload]

theorem getCborMapString_of_none
    (h : (getCborMapValue p s key).run m = some none) :
    (getCborMapString p s key).run m = some none := by
  rw [getCborMapString, run_bind, h]
  rfl

theorem getCborMapString_of_some {v : MapValue}
    (h : (getCborMapValue p s key).run m = some (some v)) :
    (getCborMapString p s key).run m =
      some (if v.type ≠ 0x40 ∧ v.type ≠ 0x60 then none else some (v.ptr, v.len)) := by
  rw [getCborMapString, run_bind, h, Option.bind_some]
  by_cases hother : v.type ≠ 0x40 ∧ v.type ≠ 0x60
  · simp [hother]
  · simp [hother]

/-- A string which is found lies in the extent of the item it is found in. -/
theorem getCborMapString_move (hagree : m.Agree p m' p' s) (hshort : s < 65536)
    (hself : m.extent p s = s) :
    ((getCborMapString p s key).run m = some none ∧
      (getCborMapString p' s key).run m' = some none) ∨
    ∃ k n, k + n ≤ s ∧ (getCborMapString p s key).run m = some (some (p + k, n)) ∧
      (getCborMapString p' s key).run m' = some (some (p' + k, n)) := by
  rcases walkMap_move
    hagree hshort hself with ⟨y, hy, hrun, hrun'⟩ | ⟨i, hi, hrun, hrun'⟩
  · obtain rfl : y = none := by tauto
    exact .inl ⟨getCborMapString_of_none hrun, getCborMapString_of_none hrun'⟩
  · rw [valuePayload_eq] at hrun hrun'
    rw [hi.sameHead.byte, hi.sameHead.count, hi.sameHead.headLen] at hrun'
    have hleft := getCborMapString_of_some hrun
    have hright := getCborMapString_of_some hrun'
    dsimp only at hleft hright
    by_cases hother : majorBits (m (p + i)) ≠ 0x40 ∧ majorBits (m (p + i)) ≠ 0x60
    · rw [if_pos hother] at hleft hright
      exact .inl ⟨hleft, hright⟩
    · rw [if_neg hother, Nat.add_assoc] at hleft hright
      have hstring : majorBits (m (p + i)) = 0x40 ∨ majorBits (m (p + i)) = 0x60 := by
        tauto
      have hleaf : ¬ m.IsContainer (p + i) := by
        rintro (harray | hmap)
        · rw [harray] at hstring
          revert hstring
          decide
        · rw [hmap] at hstring
          revert hstring
          decide
      have hextent : m.extent (p + i) (s - i) =
          m.headLen (p + i) + m.count (p + i) := by
        have hmore := hi.more
        rw [Mem.extent, Mem.extentDepth_leaf (by omega) hleaf, Mem.leafExtent,
          if_pos hstring]
      have hfits := hi.fits
      rw [hextent] at hfits
      exact .inr ⟨_, _, by omega, hleft, hright⟩

end

end UnsoloKey
