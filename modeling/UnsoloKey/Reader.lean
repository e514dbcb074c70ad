import Mathlib.Data.List.Basic
import Mathlib.Tactic.Common

/-!
# Computations that read a byte memory

A parser over a caller-supplied buffer is a computation whose only effect is
to look at bytes.  `Rd α` keeps every such look explicit, so that one model of
a parser answers three questions at once: what it returns (`run`), which
addresses it has looked at (`reads`), and whether it returns at all
(`diverge`).  The main result, `run_eq_of_agree`, is the frame property of the
memory: bytes which are not looked at cannot matter.
-/

namespace UnsoloKey

/-- A byte memory, addressed from some base pointer. -/
abbrev Mem := ℕ → UInt8

/-- The `n` bytes starting at address `p`. -/
def Mem.slice (m : Mem) (p n : ℕ) : List UInt8 :=
  (List.range n).map fun i => m (p + i)

/-- The memory contains exactly the listed bytes from address `p` on. -/
def Mem.Holds (m : Mem) (p : ℕ) (bytes : List UInt8) : Prop :=
  m.slice p bytes.length = bytes

instance (m : Mem) (p : ℕ) (bytes : List UInt8) : Decidable (m.Holds p bytes) :=
  inferInstanceAs (Decidable (_ = _))

/-- A computation which may look at bytes and which may fail to return. -/
inductive Rd (α : Type) where
  | ret (a : α)
  | diverge
  | read (addr : ℕ) (next : UInt8 → Rd α)

namespace Rd

variable {α β : Type}

protected def bind : Rd α → (α → Rd β) → Rd β
  | .ret a, f => f a
  | .diverge, _ => .diverge
  | .read addr next, f => .read addr fun b => (next b).bind f

instance : Monad Rd where
  pure := Rd.ret
  bind := Rd.bind

/-- The value returned on memory `m`, or `none` for a computation which does
not return. -/
def run : Rd α → Mem → Option α
  | .ret a, _ => some a
  | .diverge, _ => none
  | .read addr next, m => (next (m addr)).run m

/-- The addresses looked at on memory `m`, in order. -/
def reads : Rd α → Mem → List ℕ
  | .ret _, _ => []
  | .diverge, _ => []
  | .read addr next, m => addr :: (next (m addr)).reads m

def byte (addr : ℕ) : Rd UInt8 := .read addr .ret

def bytes (addr : ℕ) : ℕ → Rd (List UInt8)
  | 0 => pure []
  | n + 1 => do
      let b ← byte addr
      let bs ← bytes (addr + 1) n
      pure (b :: bs)

@[simp] theorem run_pure (a : α) (m : Mem) :
    (pure a : Rd α).run m = some a := rfl

@[simp] theorem run_diverge (m : Mem) :
    (diverge : Rd α).run m = none := rfl

@[simp] theorem run_byte (addr : ℕ) (m : Mem) :
    (byte addr).run m = some (m addr) := rfl

@[simp] theorem run_bind (x : Rd α) (f : α → Rd β) (m : Mem) :
    (x >>= f).run m = (x.run m).bind fun a => (f a).run m := by
  change (x.bind f).run m = _
  induction x with
  | ret a => rfl
  | diverge => rfl
  | read addr next ih => exact ih (m addr)

@[simp] theorem run_ite (c : Prop) [Decidable c] (x y : Rd α) (m : Mem) :
    (if c then x else y).run m = if c then x.run m else y.run m := by
  split <;> rfl

theorem run_bind_eq_some {x : Rd α} {f : α → Rd β} {m : Mem} {b : β} :
    (x >>= f).run m = some b ↔
      ∃ a, x.run m = some a ∧ (f a).run m = some b := by
  simp [Option.bind_eq_some_iff]

/-- Two memories which agree on every address looked at are
indistinguishable. -/
theorem run_eq_of_agree {x : Rd α} {m m' : Mem}
    (hagree : ∀ addr ∈ x.reads m, m addr = m' addr) :
    x.run m = x.run m' := by
  induction x with
  | ret a => rfl
  | diverge => rfl
  | read addr next ih =>
      have hhere : m addr = m' addr := hagree addr List.mem_cons_self
      have hrest : (next (m addr)).run m = (next (m addr)).run m' :=
        ih (m addr) fun a ha => hagree a (List.mem_cons_of_mem addr ha)
      simpa only [run, ← hhere] using hrest

/-- Every look is below address `n`. -/
def ReadsBelow (x : Rd α) (n : ℕ) (m : Mem) : Prop :=
  ∀ addr ∈ x.reads m, addr < n

theorem ReadsBelow.run_eq {x : Rd α} {n : ℕ} {m m' : Mem}
    (hbelow : x.ReadsBelow n m) (hagree : ∀ addr < n, m addr = m' addr) :
    x.run m = x.run m' :=
  run_eq_of_agree fun addr haddr => hagree addr (hbelow addr haddr)

@[simp] theorem run_bytes (addr n : ℕ) (m : Mem) :
    (bytes addr n).run m = some (m.slice addr n) := by
  induction n generalizing addr with
  | zero => rfl
  | succ n ih =>
      simp [bytes, ih, Mem.slice, List.range_succ_eq_map, Function.comp_def,
        Nat.add_assoc, Nat.add_comm 1]

@[simp] theorem reads_pure (a : α) (m : Mem) : (pure a : Rd α).reads m = [] := rfl

@[simp] theorem reads_byte (addr : ℕ) (m : Mem) : (byte addr).reads m = [addr] := rfl

@[simp] theorem reads_bind (x : Rd α) (f : α → Rd β) (m : Mem) :
    (x >>= f).reads m = x.reads m ++ (x.run m).elim [] fun a => (f a).reads m := by
  change (x.bind f).reads m = _
  induction x with
  | ret a => rfl
  | diverge => rfl
  | read addr next ih => exact congrArg (addr :: ·) (ih (m addr))

@[simp] theorem reads_ite (c : Prop) [Decidable c] (x y : Rd α) (m : Mem) :
    (if c then x else y).reads m = if c then x.reads m else y.reads m := by
  split <;> rfl

theorem mem_reads_bytes {a addr n : ℕ} {m : Mem} :
    a ∈ (bytes addr n).reads m ↔ addr ≤ a ∧ a < addr + n := by
  induction n generalizing addr with
  | zero =>
      simp only [bytes, reads_pure, List.not_mem_nil, false_iff]
      omega
  | succ n ih =>
      simp only [bytes, reads_bind, reads_byte, run_byte, run_bytes, Option.elim_some,
        reads_pure, List.append_nil, List.singleton_append, List.mem_cons, ih]
      omega

/-- What the computation returns on `m`, if it does, has the property. -/
def Returns (x : Rd α) (m : Mem) (P : α → Prop) : Prop :=
  ∀ a, x.run m = some a → P a

namespace Returns

variable {x : Rd α} {f : α → Rd β} {m : Mem} {P : β → Prop} {Q : α → Prop}

theorem pure {a : α} (h : Q a) : (pure a : Rd α).Returns m Q := by
  intro b hb
  rw [run_pure, Option.some.injEq] at hb
  exact hb ▸ h

theorem bind_run (hf : ∀ a, x.run m = some a → (f a).Returns m P) :
    (x >>= f).Returns m P := by
  intro b hb
  rcases run_bind_eq_some.1 hb with ⟨a, ha, hb⟩
  exact hf a ha b hb

theorem bind_of (hx : x.Returns m Q) (hf : ∀ a, Q a → (f a).Returns m P) :
    (x >>= f).Returns m P :=
  bind_run fun a ha => hf a (hx a ha)

theorem bind (hf : ∀ a, (f a).Returns m P) : (x >>= f).Returns m P :=
  bind_run fun a _ => hf a

theorem ite {c : Prop} [Decidable c] {x y : Rd α} (hx : c → x.Returns m Q)
    (hy : ¬ c → y.Returns m Q) : (if c then x else y).Returns m Q := by
  by_cases hc : c
  · rw [if_pos hc]
    exact hx hc
  · rw [if_neg hc]
    exact hy hc

end Returns

end Rd

namespace Mem

variable {m : Mem}

@[simp] theorem slice_length (m : Mem) (p n : ℕ) : (m.slice p n).length = n := by
  simp [slice]

@[simp] theorem slice_zero (m : Mem) (p : ℕ) : m.slice p 0 = [] := rfl

theorem slice_succ (m : Mem) (p n : ℕ) :
    m.slice p (n + 1) = m p :: m.slice (p + 1) n := by
  simp [slice, List.range_succ_eq_map, Function.comp_def, Nat.add_assoc,
    Nat.add_comm 1]

theorem slice_add (m : Mem) (p a b : ℕ) :
    m.slice p (a + b) = m.slice p a ++ m.slice (p + a) b := by
  simp [slice, List.range_add, Function.comp_def, Nat.add_assoc]

theorem getElem_slice (m : Mem) (p n i : ℕ) (hi : i < (m.slice p n).length) :
    (m.slice p n)[i] = m (p + i) := by
  simp [slice]

@[simp] theorem slice_take (m : Mem) (p n k : ℕ) (hk : k ≤ n) :
    (m.slice p n).take k = m.slice p k := by
  obtain ⟨d, rfl⟩ := Nat.exists_eq_add_of_le hk
  rw [slice_add, List.take_left' (slice_length m p k)]

@[simp] theorem holds_nil (p : ℕ) : m.Holds p [] := rfl

theorem holds_cons {p : ℕ} {b : UInt8} {bs : List UInt8} :
    m.Holds p (b :: bs) ↔ m p = b ∧ m.Holds (p + 1) bs := by
  simp [Holds, slice_succ]

theorem holds_append {p : ℕ} {xs ys : List UInt8} :
    m.Holds p (xs ++ ys) ↔ m.Holds p xs ∧ m.Holds (p + xs.length) ys := by
  unfold Holds
  rw [List.length_append, slice_add]
  constructor
  · intro h
    exact List.append_inj h (slice_length m p xs.length)
  · rintro ⟨hxs, hys⟩
    rw [hxs, hys]

/-- `memcpy` of the listed bytes to address `p`. -/
def write (m : Mem) (p : ℕ) (bytes : List UInt8) : Mem := fun a =>
  if p ≤ a ∧ a < p + bytes.length then bytes.getD (a - p) 0 else m a

theorem slice_write (m : Mem) (p : ℕ) (bytes : List UInt8) :
    (m.write p bytes).slice 0 (p + bytes.length) = m.slice 0 p ++ bytes := by
  apply List.ext_getElem (by simp)
  intro i hi hi'
  have hlt : i < p + bytes.length := by simpa using hi
  rw [getElem_slice, Nat.zero_add, write]
  by_cases hold : i < p
  · have hout : ¬ (p ≤ i ∧ i < p + bytes.length) := by omega
    rw [if_neg hout, List.getElem_append_left (by simpa using hold),
      getElem_slice, Nat.zero_add]
  · have hin : p ≤ i ∧ i < p + bytes.length := by omega
    have hshort : i - p < bytes.length := by omega
    rw [if_pos hin, List.getElem_append_right (by simpa using hin.1)]
    simp [List.getD, hshort]

theorem holds_write (m : Mem) (p : ℕ) (bytes : List UInt8) :
    (m.write p bytes).Holds p bytes := by
  have hall := slice_write m p bytes
  rw [slice_add, Nat.zero_add] at hall
  exact (List.append_inj hall (by simp)).2

theorem Holds.slice_eq {p n : ℕ} {bs : List UInt8} (h : m.Holds p bs)
    (hn : n = bs.length) : m.slice p n = bs := by
  subst hn
  exact h

end Mem

end UnsoloKey
