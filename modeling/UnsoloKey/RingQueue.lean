import Mathlib.Data.Nat.ModEq
import Mathlib.Data.List.Basic

/-!
# Queues in rings of cells

The elements of a queue lie in `n` cells from a head index on, around the end.  An
element is appended by writing the cell after the last one, as long as there is a
free cell, and the first one is removed by moving the head.
-/

namespace UnsoloKey.RingQueue

variable {α : Type*}

def queue (cells : ℕ → α) (n head count : ℕ) : List α :=
  (List.range count).map fun i => cells ((head + i) % n)

@[simp] theorem queue_length (cells : ℕ → α) (n head count : ℕ) :
    (queue cells n head count).length = count := by
  simp [queue]

@[simp] theorem queue_zero (cells : ℕ → α) (n head : ℕ) : queue cells n head 0 = [] := rfl

theorem cell_ne {n head i count : ℕ} (hi : i < count) (hcount : count < n) :
    (head + i) % n ≠ (head + count) % n := by
  intro hsame
  have hmod : i ≡ count [MOD n] := Nat.ModEq.add_left_cancel' head hsame
  have heq : i = count := hmod.eq_of_lt_of_lt (hi.trans hcount) hcount
  omega

theorem queue_push (cells : ℕ → α) (x : α) {n head count : ℕ} (hcount : count < n) :
    queue (Function.update cells ((head + count) % n) x) n head (count + 1) =
      queue cells n head count ++ [x] := by
  unfold queue
  rw [List.range_succ, List.map_append, List.map_singleton, Function.update_self]
  congr 1
  apply List.map_congr_left
  intro i hi
  exact Function.update_of_ne (cell_ne (List.mem_range.1 hi) hcount) _ _

theorem queue_pop (cells : ℕ → α) (n head count : ℕ) :
    queue cells n head (count + 1) =
      cells (head % n) :: queue cells n ((head + 1) % n) count := by
  unfold queue
  rw [List.range_succ_eq_map, List.map_cons, List.map_map, Nat.add_zero]
  congr 1
  apply List.map_congr_left
  intro i _
  rw [Function.comp_apply, Nat.mod_add_mod, Nat.succ_eq_one_add, Nat.add_assoc]

end UnsoloKey.RingQueue
