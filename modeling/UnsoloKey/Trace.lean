import Mathlib.Data.List.Induction
import Mathlib.Tactic.Common

/-!
# Runs of a partial step function

A system moves by `step s a`, which is `none` where the action `a` is not
possible in `s`.  A run lists its actions in order.  The two invariant rules
differ in what they ask of a step: `invariant` asks it of every step, and
`invariant_of_guard` only of the steps which meet a condition, for runs whose
steps all do.
-/

namespace UnsoloKey.Trace

variable {S A : Type*} {step : S → A → Option S}

inductive Run (step : S → A → Option S) : S → List A → S → Prop
  | nil (s : S) : Run step s [] s
  | snoc {s t u : S} {as : List A} {a : A} (hrun : Run step s as t)
      (hstep : step t a = some u) : Run step s (as ++ [a]) u

/-- The state a list of actions leads to, if each is possible in turn. -/
def exec (step : S → A → Option S) (s : S) : List A → Option S
  | [] => some s
  | a :: as => (step s a).bind fun t => exec step t as

/-- Whether every step from `s` on meets the condition. -/
def check (step : S → A → Option S) (G : S → A → Prop) [∀ s a, Decidable (G s a)]
    (s : S) : List A → Bool
  | [] => true
  | a :: as => decide (G s a) && (step s a).all fun t => check step G t as

namespace Run

variable {s t u : S} {as bs : List A} {a : A}

theorem nil_iff : Run step s [] t ↔ s = t := by
  constructor
  · intro h
    generalize has : ([] : List A) = as at h
    cases h with
    | nil => rfl
    | snoc hrun hstep => simp at has
  · rintro rfl
    exact .nil s

theorem snoc_iff : Run step s (as ++ [a]) u ↔
    ∃ t, Run step s as t ∧ step t a = some u := by
  constructor
  · intro h
    generalize hbs : as ++ [a] = bs at h
    cases h with
    | nil => simp at hbs
    | snoc hrun hstep =>
        rcases List.append_inj' hbs rfl with ⟨rfl, hlast⟩
        rw [List.singleton_inj] at hlast
        exact ⟨_, hrun, hlast ▸ hstep⟩
  · rintro ⟨t, hrun, hstep⟩
    exact hrun.snoc hstep

theorem single (hstep : step s a = some t) : Run step s [a] t :=
  Run.snoc (.nil s) hstep

theorem append_iff : Run step s (as ++ bs) u ↔
    ∃ t, Run step s as t ∧ Run step t bs u := by
  induction bs using List.reverseRecOn generalizing u with
  | nil => simp [nil_iff]
  | append_singleton bs b ih =>
      rw [← List.append_assoc, snoc_iff]
      simp only [snoc_iff, ih]
      constructor
      · rintro ⟨v, ⟨t, has, hbs⟩, hstep⟩
        exact ⟨t, has, v, hbs, hstep⟩
      · rintro ⟨t, has, v, hbs, hstep⟩
        exact ⟨v, ⟨t, has, hbs⟩, hstep⟩

theorem append (has : Run step s as t) (hbs : Run step t bs u) :
    Run step s (as ++ bs) u :=
  append_iff.2 ⟨t, has, hbs⟩

theorem cons_iff : Run step s (a :: as) u ↔
    ∃ t, step s a = some t ∧ Run step t as u := by
  rw [← List.singleton_append, append_iff]
  have hone : ∀ t, Run step s [a] t ↔ step s a = some t := by
    intro t
    rw [← List.nil_append [a], snoc_iff]
    simp [nil_iff]
  simp only [hone]

theorem exec_iff : exec step s as = some t ↔ Run step s as t := by
  induction as generalizing s with
  | nil => simp [exec, nil_iff]
  | cons a as ih => simp [exec, cons_iff, Option.bind_eq_some_iff, ih]

theorem unique (h : Run step s as t) (h' : Run step s as u) : t = u := by
  induction h generalizing u with
  | nil => exact nil_iff.1 h'
  | snoc hrun hstep ih =>
      rcases snoc_iff.1 h' with ⟨v, hv, hstep'⟩
      rw [ih hv, hstep', Option.some.injEq] at hstep
      exact hstep.symm

theorem invariant {P : S → Prop}
    (hkeeps : ∀ s a t, P s → step s a = some t → P t)
    (h : Run step s as t) (hs : P s) : P t := by
  induction h with
  | nil => exact hs
  | snoc hrun hstep ih => exact hkeeps _ _ _ ih hstep

/-- Every step of the run meets the condition. -/
def Guarded (step : S → A → Option S) (G : S → A → Prop) (s : S)
    (as : List A) : Prop :=
  ∀ before a after t, as = before ++ a :: after → Run step s before t → G t a

theorem Guarded.left {G : S → A → Prop} (h : Guarded step G s (as ++ bs)) :
    Guarded step G s as := by
  intro before a after t hsplit hrun
  exact h before a (after ++ bs) t (by simp [hsplit]) hrun

theorem Guarded.right {G : S → A → Prop} (h : Guarded step G s (as ++ bs))
    (hrun : Run step s as t) : Guarded step G t bs := by
  intro before a after v hsplit hbefore
  exact h (as ++ before) a after v (by simp [hsplit]) (hrun.append hbefore)

theorem Guarded.and {G H : S → A → Prop} (hg : Guarded step G s as)
    (hh : Guarded step H s as) :
    Guarded step (fun s a => G s a ∧ H s a) s as := by
  intro before a after t hsplit hrun
  exact ⟨hg before a after t hsplit hrun, hh before a after t hsplit hrun⟩

theorem Guarded.append {G : S → A → Prop} (has : Guarded step G s as)
    (hbs : ∀ t, Run step s as t → Guarded step G t bs) :
    Guarded step G s (as ++ bs) := by
  intro before a after t hsplit hrun
  rcases List.append_eq_append_iff.1 hsplit with ⟨cs, hbefore, hbs'⟩ | ⟨cs, has', hrest⟩
  · rw [hbefore, append_iff] at hrun
    rcases hrun with ⟨u, hu, hrun⟩
    exact hbs u hu cs a after t hbs' hrun
  · cases cs with
    | nil =>
        rw [List.nil_append] at hrest
        rw [List.append_nil] at has'
        exact hbs t (has' ▸ hrun) [] a after t hrest.symm (.nil t)
    | cons c cs =>
        rw [List.cons_append, List.cons.injEq] at hrest
        exact has before a cs t (hrest.1 ▸ has') hrun

theorem Guarded.nil {G : S → A → Prop} : Guarded step G s [] := by
  intro before a after t hsplit
  simp at hsplit

theorem guarded_cons {G : S → A → Prop} : Guarded step G s (a :: as) ↔
    G s a ∧ ∀ t, step s a = some t → Guarded step G t as := by
  constructor
  · intro h
    refine ⟨h [] a as s rfl (.nil s), fun t hstep => ?_⟩
    exact Guarded.right h (single hstep)
  · rintro ⟨hhead, htail⟩ before b after u hsplit hrun
    cases before with
    | nil =>
        rw [List.nil_append, List.cons.injEq] at hsplit
        rw [← nil_iff.1 hrun, ← hsplit.1]
        exact hhead
    | cons c before =>
        rw [List.cons_append, List.cons.injEq] at hsplit
        rcases cons_iff.1 hrun with ⟨t, hstep, hrest⟩
        rw [← hsplit.1] at hstep
        exact htail t hstep before b after u hsplit.2 hrest

theorem Guarded.single {G : S → A → Prop} (h : G s a) : Guarded step G s [a] :=
  guarded_cons.2 ⟨h, fun _ _ => .nil⟩

theorem guarded_of_check {G : S → A → Prop} [∀ s a, Decidable (G s a)]
    (h : check step G s as = true) : Guarded step G s as := by
  induction as generalizing s with
  | nil => exact .nil
  | cons a as ih =>
      rw [check, Bool.and_eq_true, decide_eq_true_eq] at h
      refine guarded_cons.2 ⟨h.1, fun t hstep => ih ?_⟩
      rw [hstep] at h
      exact h.2

theorem Guarded.of_forall {G : S → A → Prop} (h : ∀ a ∈ as, ∀ t, G t a) :
    Guarded step G s as := by
  intro before a after t hsplit _
  exact h a (by simp [hsplit]) t

theorem invariant_of_guard {P : S → Prop} {G : S → A → Prop}
    (hkeeps : ∀ s a t, P s → G s a → step s a = some t → P t)
    (hrun : Run step s as t) (hguard : Guarded step G s as) (hs : P s) :
    P t := by
  induction hrun with
  | nil => exact hs
  | @snoc t u as a hrun hstep ih =>
      exact hkeeps t a u (ih hguard.left)
        (hguard as a [] t rfl hrun) hstep

end Run

end UnsoloKey.Trace
