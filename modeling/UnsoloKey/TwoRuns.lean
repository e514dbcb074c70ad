import UnsoloKey.Reader
import Mathlib.Data.Option.Defs
import Mathlib.Tactic

/-!
# Two readers on one memory

Two computations which read the same memory return related values, or neither returns.
The rules follow the program: a part which both have in common returns one value for
both.
-/

namespace UnsoloKey.Rd

variable {α β γ δ : Type}

def Together (R : α → β → Prop) (x : Rd α) (y : Rd β) (m : Mem) : Prop :=
  Option.Rel R (x.run m) (y.run m)

namespace Together

variable {R : α → β → Prop} {S : γ → δ → Prop} {m : Mem}

theorem pure {a : α} {b : β} (h : R a b) : Together R (pure a) (pure b) m :=
  .some h

theorem of_eq {R : α → α → Prop} {x y : Rd α} (hxy : y.run m = x.run m)
    (hR : ∀ a, x.run m = some a → R a a) : Together R x y m := by
  unfold Together
  rw [hxy]
  cases hx : x.run m with
  | none => exact .none
  | some a => exact .some (hR a hx)

theorem bind {x : Rd α} {y : Rd β} {f : α → Rd γ} {g : β → Rd δ} (h : Together R x y m)
    (hfg : ∀ a b, R a b → Together S (f a) (g b) m) : Together S (x >>= f) (y >>= g) m := by
  unfold Together at h ⊢
  rw [run_bind, run_bind]
  generalize x.run m = a at h ⊢
  generalize y.run m = b at h ⊢
  cases h with
  | none => exact .none
  | some hab => exact hfg _ _ hab

theorem bind_same {x : Rd α} {f : α → Rd γ} {g : α → Rd δ}
    (hfg : ∀ a, x.run m = some a → Together S (f a) (g a) m) :
    Together S (x >>= f) (x >>= g) m := by
  unfold Together
  rw [run_bind, run_bind]
  cases hx : x.run m with
  | none => exact .none
  | some a => exact hfg a hx

theorem ite {c : Prop} [Decidable c] {x x' : Rd α} {y y' : Rd β}
    (hpos : c → Together R x y m) (hneg : ¬ c → Together R x' y' m) :
    Together R (if c then x else x') (if c then y else y') m := by
  split_ifs with hc
  · exact hpos hc
  · exact hneg hc

theorem mono {R' : α → β → Prop} {x : Rd α} {y : Rd β} (h : Together R x y m)
    (hR : ∀ a b, R a b → R' a b) : Together R' x y m := by
  unfold Together at h ⊢
  generalize x.run m = a at h ⊢
  generalize y.run m = b at h ⊢
  cases h with
  | none => exact .none
  | some hab => exact .some (hR _ _ hab)

end Together

end UnsoloKey.Rd
