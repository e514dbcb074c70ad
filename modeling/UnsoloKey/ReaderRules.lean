import UnsoloKey.Reader
import Mathlib.Tactic

/-!
# Rules for reading computations

`x.Meets m ends I P` is correctness with a frame: on the memory `m` the computation looks
at addresses in `I` only, a value which it returns has the property `P`, and if it
returns none then `ends` holds.  With `False` for `ends` this is total correctness, with
`True` partial correctness.  The rules read a program from its end, as those of weakest
preconditions do.

`x.Confined m n c` says that `c` is the condition for `x` to look below the address `n`
only: it suffices, and a computation which returns needs it.
-/

namespace UnsoloKey.Rd

variable {α β : Type} {m : Mem} {ends : Prop} {I : ℕ → Prop}

def Meets (m : Mem) (ends : Prop) (I : ℕ → Prop) : Rd α → (α → Prop) → Prop
  | .ret a, P => P a
  | .diverge, _ => ends
  | .read addr next, P => I addr ∧ (next (m addr)).Meets m ends I P

@[simp] theorem meets_pure {a : α} {P : α → Prop} :
    (pure a : Rd α).Meets m ends I P ↔ P a := Iff.rfl

@[simp] theorem meets_byte {addr : ℕ} {P : UInt8 → Prop} :
    (byte addr).Meets m ends I P ↔ I addr ∧ P (m addr) := Iff.rfl

@[simp] theorem meets_bind {x : Rd α} {f : α → Rd β} {P : β → Prop} :
    (x >>= f).Meets m ends I P ↔ x.Meets m ends I fun a => (f a).Meets m ends I P := by
  change (x.bind f).Meets m ends I P ↔ _
  induction x with
  | ret a => rfl
  | diverge => rfl
  | read addr next ih => exact and_congr_right fun _ => ih (m addr)

/-- What the rules derive is what the computation does. -/
theorem meets_iff {x : Rd α} {P : α → Prop} :
    x.Meets m ends I P ↔ (∀ a ∈ x.reads m, I a) ∧ (∀ r, x.run m = some r → P r) ∧
      (x.run m = none → ends) := by
  induction x with
  | ret a => simp [Meets, reads, run]
  | diverge => simp [Meets, reads, run]
  | read addr next ih =>
      simp only [Meets, ih, reads, run, List.mem_cons, forall_eq_or_imp, and_assoc]

theorem meets_total_iff {x : Rd α} {P : α → Prop} :
    x.Meets m False I P ↔ (∀ a ∈ x.reads m, I a) ∧ ∃ r, x.run m = some r ∧ P r := by
  rw [meets_iff]
  refine and_congr_right fun _ => ?_
  cases x.run m <;> simp

theorem meets_partial_iff {x : Rd α} {P : α → Prop} :
    x.Meets m True I P ↔ (∀ a ∈ x.reads m, I a) ∧ ∀ r, x.run m = some r → P r := by
  rw [meets_iff]
  simp

theorem Meets.mono {x : Rd α} {J : ℕ → Prop} {P Q : α → Prop} (h : x.Meets m ends I P)
    (hIJ : ∀ a, I a → J a) (hPQ : ∀ r, P r → Q r) : x.Meets m ends J Q := by
  obtain ⟨hreads, hP, hends⟩ := meets_iff.1 h
  exact meets_iff.2 ⟨fun a ha => hIJ a (hreads a ha), fun r hr => hPQ r (hP r hr), hends⟩

theorem meets_of_run {x : Rd α} {P : α → Prop} {r : α} (h : x.run m = some r) :
    x.Meets m ends I P ↔ (∀ a ∈ x.reads m, I a) ∧ P r := by
  rw [meets_iff, h]
  simp

theorem meets_of_run_none {x : Rd α} {P : α → Prop} (h : x.run m = none) :
    x.Meets m ends I P ↔ (∀ a ∈ x.reads m, I a) ∧ ends := by
  rw [meets_iff, h]
  simp

@[simp] theorem meets_bytes {addr n : ℕ} {P : List UInt8 → Prop} :
    (bytes addr n).Meets m ends I P ↔
      (∀ a, addr ≤ a → a < addr + n → I a) ∧ P (m.slice addr n) := by
  rw [meets_of_run (run_bytes addr n m)]
  simp only [mem_reads_bytes, and_imp]

/-! ## Computations below an address -/

/-- `c` is what it takes to look below `n` only, on the memory `m`. -/
structure Confined (m : Mem) (n : ℕ) (c : Prop) (x : Rd α) : Prop where
  below : c → x.ReadsBelow n m
  needs : x.run m ≠ none → x.ReadsBelow n m → c

section

variable {n : ℕ} {c c' : Prop} {x y : Rd α} {f : α → Rd β}

theorem confined_of_iff (h : x.ReadsBelow n m ↔ c) : x.Confined m n c :=
  ⟨h.2, fun _ => h.1⟩

theorem Confined.congr (h : x.Confined m n c) (hc : c ↔ c') : x.Confined m n c' :=
  ⟨fun h' => h.below (hc.2 h'), fun hrun hbelow => hc.1 (h.needs hrun hbelow)⟩

@[simp] theorem confined_pure {a : α} : (pure a : Rd α).Confined m n True :=
  confined_of_iff (iff_true_intro fun _ ha => absurd ha List.not_mem_nil)

theorem confined_pure_of {a : α} (h : c) : (pure a : Rd α).Confined m n c :=
  confined_pure.congr (iff_of_true trivial h)

/-- On this branch the condition is not asked for. -/
theorem confined_unasked {a : α} (hnot : ¬ c) : (pure a : Rd α).Confined m n (c → c') :=
  confined_pure_of fun h => absurd h hnot

/-- On this branch the condition is asked for. -/
theorem Confined.asked (hx : x.Confined m n c') (hc : c) : x.Confined m n (c → c') :=
  hx.congr (imp_iff_right hc).symm

theorem confined_byte {p : ℕ} : (byte p).Confined m n (p < n) :=
  confined_of_iff (by simp [ReadsBelow])

theorem confined_bytes {p k : ℕ} : (bytes p k).Confined m n (k = 0 ∨ p + k ≤ n) := by
  refine confined_of_iff ⟨fun h => ?_, fun h a ha => ?_⟩
  · by_contra hlong
    have hlast := h (p + (k - 1)) (mem_reads_bytes.2 (by omega))
    omega
  · have hbound := mem_reads_bytes.1 ha
    omega

theorem readsBelow_bind : (x >>= f).ReadsBelow n m ↔
    x.ReadsBelow n m ∧ ∀ r, x.run m = some r → (f r).ReadsBelow n m := by
  unfold ReadsBelow
  rw [reads_bind, List.forall_mem_append]
  refine and_congr_right fun _ => ?_
  cases x.run m <;> simp

theorem readsBelow_ite {q : Prop} [Decidable q] : (if q then x else y).ReadsBelow n m ↔
    (q → x.ReadsBelow n m) ∧ (¬ q → y.ReadsBelow n m) := by
  split <;> simp [*]

/-- The condition for what follows may use the condition for what came first. -/
theorem Confined.bind_run (hx : x.Confined m n c)
    (hf : c → ∀ r, x.run m = some r → (f r).Confined m n c') :
    (x >>= f).Confined m n (c ∧ c') := by
  refine ⟨fun ⟨hc, hc'⟩ => readsBelow_bind.2 ⟨hx.below hc, fun r hr =>
    (hf hc r hr).below hc'⟩, fun hrun hbelow => ?_⟩
  obtain ⟨hfirst, hrest⟩ := readsBelow_bind.1 hbelow
  obtain ⟨b, hb⟩ := Option.ne_none_iff_exists'.1 hrun
  obtain ⟨r, hr, hb⟩ := run_bind_eq_some.1 hb
  have hc := hx.needs (by simp [hr]) hfirst
  exact ⟨hc, (hf hc r hr).needs (by simp [hb]) (hrest r hr)⟩

/-- A computation of which the value is known. -/
theorem Confined.bind {v : α} (hx : x.Confined m n c) (hv : x.Returns m fun r => r = v)
    (hf : c → (f v).Confined m n c') : (x >>= f).Confined m n (c ∧ c') :=
  hx.bind_run fun hc r hr => by
    rw [hv r hr]
    exact hf hc

/-- A test. -/
theorem Confined.bind_test {x : Rd Bool} {f : Bool → Rd β} {Q : Prop}
    (hx : x.Confined m n c) (hv : x.Returns m fun b => b = true ↔ Q)
    (htrue : c → Q → (f true).Confined m n c') (hfalse : c → ¬ Q → (f false).Confined m n c') :
    (x >>= f).Confined m n (c ∧ c') :=
  hx.bind_run fun hc r hr => by
    have hiff := hv r hr
    cases r with
    | true => exact htrue hc (hiff.1 rfl)
    | false => exact hfalse hc fun hq => absurd (hiff.2 hq) Bool.false_ne_true

/-- What follows looks at nothing. -/
theorem Confined.bind_free (hx : x.Confined m n c) (hf : ∀ r, (f r).Confined m n True) :
    (x >>= f).Confined m n c :=
  (hx.bind_run fun _ r _ => hf r).congr (and_iff_left trivial)

theorem Confined.map {f : α → β} (hx : x.Confined m n c) :
    (x >>= fun a => pure (f a)).Confined m n c :=
  hx.bind_free fun _ => confined_pure

theorem Confined.ite {q : Prop} [Decidable q] (hx : q → x.Confined m n c)
    (hy : ¬ q → y.Confined m n c) : (if q then x else y).Confined m n c := by
  split
  · exact hx ‹_›
  · exact hy ‹_›

end

end UnsoloKey.Rd
