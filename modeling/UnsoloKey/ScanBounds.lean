import UnsoloKey.ReaderRules
import UnsoloKey.ScanExact
import UnsoloKey.WalkPlaces
import Mathlib.Tactic

/-!
# What the scanner looks at

`skip_cbor_item` trusts its length argument for the places where items start, and for
nothing else: of every head which it comes to it reads the whole, whether or not the
buffer ends in between.  It therefore stays inside the buffer exactly if all these
heads are complete.
-/

namespace UnsoloKey

open Rd

/-- The scan of the item at `p`, of whose bytes `len` remain, comes to a head at `p'`
where `len'` remain. -/
inductive Visits (m : Mem) : ℕ → ℕ → ℕ → ℕ → Prop
  | here {p len : ℕ} : 0 < len → Visits m p len p len
  | item {p len j o p' len' : ℕ} : 0 < len → m.IsContainer p → j < m.itemCount p →
      RunningOffset m p len j o → o < len → Visits m (p + o) (len - o) p' len' →
      Visits m p len p' len'

/-- No head which the scan comes to is cut off by the end of the buffer. -/
def HeadsComplete (m : Mem) (p len : ℕ) : Prop :=
  ∀ p' len', Visits m p len p' len' → m.headLen p' ≤ len'

section

variable {m : Mem} {p len : ℕ}

theorem Visits.remaining {p' len' : ℕ} (h : Visits m p len p' len') :
    p ≤ p' ∧ p' + len' = p + len ∧ 0 < len' := by
  induction h with
  | here hlen => exact ⟨le_rfl, rfl, hlen⟩
  | item _ _ _ _ _ _ ih => omega

theorem mem_reads_skipItems {skip : ℕ → ℕ → Rd ℕ} {a n o : ℕ} :
    a ∈ (skipItems skip p len n o).reads m ↔ ∃ j < n, ∃ o',
      (skipItems skip p len j o).run m = some o' ∧ o' < len ∧
        a ∈ (skip (p + o') (len - o')).reads m := by
  induction n generalizing o with
  | zero => simp [skipItems]
  | succ n ih =>
      rw [skipItems]
      by_cases hend : o ≥ len
      · rw [if_pos hend, reads_pure]
        refine iff_of_false List.not_mem_nil ?_
        rintro ⟨j, -, o', hrun, hmore, -⟩
        cases j with
        | zero =>
            obtain rfl : o = o' := Option.some.inj hrun
            omega
        | succ j =>
            rw [skipItems, if_pos hend] at hrun
            obtain rfl : o = o' := Option.some.inj hrun
            omega
      · rw [if_neg hend, reads_bind, List.mem_append]
        have hstep : ∀ j, (skipItems skip p len (j + 1) o).run m =
            ((skip (p + o) (len - o)).run m).bind fun r =>
              (skipItems skip p len j (u16 (o + r))).run m := by
          intro j
          rw [skipItems, if_neg hend, run_bind]
        constructor
        · rintro (hhere | hlater)
          · exact ⟨0, by omega, o, rfl, by omega, hhere⟩
          · cases hitem : (skip (p + o) (len - o)).run m with
            | none =>
                rw [hitem] at hlater
                exact absurd hlater List.not_mem_nil
            | some r =>
                rw [hitem, Option.elim_some, ih] at hlater
                obtain ⟨j, hj, o', hrun, hmore, ha⟩ := hlater
                refine ⟨j + 1, by omega, o', ?_, hmore, ha⟩
                rw [hstep, hitem, Option.bind_some, hrun]
        · rintro ⟨j, hj, o', hrun, hmore, ha⟩
          cases j with
          | zero =>
              obtain rfl : o = o' := Option.some.inj hrun
              exact .inl ha
          | succ j =>
              rw [hstep, Option.bind_eq_some_iff] at hrun
              obtain ⟨r, hitem, hrun⟩ := hrun
              rw [hitem, Option.elim_some, ih]
              exact .inr ⟨j, by omega, o', hrun, hmore, ha⟩

/-- A scan looks at bytes of heads which it comes to. -/
theorem visits_of_mem_reads {depth a : ℕ} (ha : a ∈ (skipCborItemDepth depth p len).reads m) :
    ∃ p' len', Visits m p len p' len' ∧ p' ≤ a ∧ a < p' + m.headLen p' := by
  induction depth generalizing p len with
  | zero => exact absurd ha List.not_mem_nil
  | succ depth ih =>
      rcases Nat.eq_zero_or_pos len with rfl | hlen
      · rw [skipCborItemDepth, if_pos rfl, reads_pure] at ha
        exact absurd ha List.not_mem_nil
      by_cases hcontainer : m.IsContainer p
      · rw [mem_reads_skip_container hlen hcontainer, mem_reads_skipItems] at ha
        rcases ha with hhead | ⟨j, hj, o, hrun, hmore, ha⟩
        · exact ⟨p, len, .here hlen, hhead⟩
        · obtain ⟨p', len', hvisits, hbound⟩ := ih ha
          exact ⟨p', len', .item hlen hcontainer hj
            (runningOffset_of_run (fun _ _ _ => declaredLen_of_run) hrun) hmore hvisits, hbound⟩
      · exact ⟨p, len, .here hlen, (mem_reads_skip_leaf hlen hcontainer).1 ha⟩

/-- A loop whose container may nest `depth` deep inside comes to its offsets.  None before
a later one is zero, since the container would be entered again. -/
theorem skipItems_run_offset {depth j o : ℕ} (hlen : 0 < len) (hcontainer : m.IsContainer p)
    (hdepth : len ≤ depth) (hj : j ≤ m.itemCount p) (h : RunningOffset m p len j o)
    (hmore : o < len) :
    (skipItems (skipCborItemDepth depth) p len j (m.headLen p)).run m = some o := by
  induction j generalizing o with
  | zero =>
      cases h
      rfl
  | succ j ih =>
      obtain ⟨o', r, hoffset, hmore', hitem, rfl⟩ := h.pred hmore
      have hpos : 0 < o' := by
        rcases Nat.eq_zero_or_pos o' with rfl | hpos
        · have hagain : Reenters m p len := .here hlen hcontainer hj hoffset
          rw [Nat.add_zero, Nat.sub_zero] at hitem
          obtain ⟨depth', hrun⟩ := hitem.run
          rw [hagain.run_eq_none] at hrun
          cases hrun
        · exact hpos
      have hskip : (skipCborItemDepth depth (p + o') (len - o')).run m = some r :=
        skipCborItemDepth_mono (by omega) (skipCborItem_run_iff.2 hitem)
      rw [run_skipItems_succ, ih (by omega) hoffset hmore', Option.bind_some,
        if_neg (by omega), hskip]
      rfl

/-- The heads which a scan comes to are looked at, and wholly. -/
theorem mem_reads_of_visits {depth p' len' a : ℕ} (h : Visits m p len p' len')
    (hdepth : len < depth) (hle : p' ≤ a) (hlt : a < p' + m.headLen p') :
    a ∈ (skipCborItemDepth depth p len).reads m := by
  induction h generalizing depth with
  | @here p len hlen =>
      obtain ⟨depth, rfl⟩ : ∃ n, depth = n + 1 := ⟨depth - 1, by omega⟩
      by_cases hcontainer : m.IsContainer p
      · exact (mem_reads_skip_container hlen hcontainer).2 (.inl ⟨hle, hlt⟩)
      · exact (mem_reads_skip_leaf hlen hcontainer).2 ⟨hle, hlt⟩
  | @item p len j o p' len' hlen hcontainer hj hoffset hmore _ ih =>
      rcases Nat.eq_zero_or_pos o with rfl | hpos
      · exact ih hdepth hle hlt
      · obtain ⟨depth, rfl⟩ : ∃ n, depth = n + 1 := ⟨depth - 1, by omega⟩
        have hrun : (skipItems (skipCborItemDepth depth) p len j (m.headLen p)).run m = some o :=
          skipItems_run_offset hlen hcontainer (by omega) hj.le hoffset hmore
        exact (mem_reads_skip_container hlen hcontainer).2
          (.inr (mem_reads_skipItems.2 ⟨j, hj, o, hrun, hmore, ih (by omega) hle hlt⟩))

/-- The looks of a scan are the bytes of the heads which it comes to. -/
theorem mem_reads_skipCborItem {a : ℕ} : a ∈ (skipCborItem p len).reads m ↔
    ∃ p' len', Visits m p len p' len' ∧ p' ≤ a ∧ a < p' + m.headLen p' :=
  ⟨visits_of_mem_reads, fun ⟨_, _, hvisits, hle, hlt⟩ =>
    mem_reads_of_visits hvisits (Nat.lt_succ_self len) hle hlt⟩

/-- The addresses from `lo` on and below `hi`. -/
def InSpan (lo hi a : ℕ) : Prop := lo ≤ a ∧ a < hi

/-- No head which the scan comes to reaches beyond `hi`. -/
def HeadsBelow (m : Mem) (p len hi : ℕ) : Prop :=
  ∀ p' len', Visits m p len p' len' → p' + m.headLen p' ≤ hi

theorem head_span {lo hi : ℕ} (hlo : lo ≤ p) :
    (∀ a, p ≤ a → a < p + m.headLen p → InSpan lo hi a) ↔ p + m.headLen p ≤ hi := by
  have hpos := Mem.headLen_pos (m := m) p
  constructor
  · intro hinside
    have hlast := (hinside (p + (m.headLen p - 1)) (by omega) (by omega)).2
    omega
  · intro hle a hpa ha
    exact ⟨by omega, by omega⟩

/-- A scan stays below an address exactly if the heads do. -/
theorem skipCborItem_span {lo hi : ℕ} (hlo : lo ≤ p) :
    (∀ a ∈ (skipCborItem p len).reads m, InSpan lo hi a) ↔ HeadsBelow m p len hi := by
  constructor
  · intro hspan p' len' hvisits
    have hremaining := hvisits.remaining
    exact (head_span (by omega : lo ≤ p')).1 fun a hle hlt =>
      hspan a (mem_reads_skipCborItem.2 ⟨p', len', hvisits, hle, hlt⟩)
  · intro hbelow a ha
    obtain ⟨p', len', hvisits, hle, hlt⟩ := mem_reads_skipCborItem.1 ha
    have hremaining := hvisits.remaining
    exact (head_span (by omega)).2 (hbelow p' len' hvisits) a hle hlt

theorem headsComplete_iff : HeadsComplete m p len ↔ HeadsBelow m p len (p + len) := by
  refine forall₃_congr fun p' len' hvisits => ?_
  have hremaining := hvisits.remaining
  omega

/-- The heads of an item which is there as a whole are complete. -/
theorem headsComplete_of_holds {x : Cbor.Wire} (hx : x.WellFormed) (hnarrow : x.Narrow)
    (hm : m.Holds p x.encode) (hlen : x.encode.length ≤ len) (hshort : len < 65536) :
    HeadsComplete m p len := by
  have hdepth := x.depth_le
  have hscan : Scans (skipCborItem p len) m p 0 x.encode.length :=
    scans_wire x hx hnarrow (by omega) hm hlen hshort
  refine headsComplete_iff.2 ((skipCborItem_span le_rfl).1 fun a ha => ?_)
  have hbound := hscan.reads a ha
  exact ⟨by omega, by omega⟩

end

end UnsoloKey
