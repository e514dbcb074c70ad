import Mathlib.Tactic

/-!
# Big-endian numbers
-/

namespace UnsoloKey

def beNat (bs : List UInt8) : ℕ := bs.foldl (fun n b => n * 256 + b.toNat) 0

section

variable {xs ys : List UInt8} {b : UInt8}

theorem beNat_concat : beNat (xs ++ [b]) = beNat xs * 256 + b.toNat := by
  rw [beNat, beNat, List.foldl_append]
  rfl

theorem beNat_cons : beNat (b :: xs) = b.toNat * 256 ^ xs.length + beNat xs := by
  induction xs using List.reverseRecOn with
  | nil =>
      change 0 * 256 + b.toNat = b.toNat * 1 + 0
      omega
  | append_singleton xs c ih =>
      rw [← List.cons_append, beNat_concat, ih, beNat_concat, List.length_append]
      simp only [List.length_cons, List.length_nil]
      ring

theorem beNat_inj (hlen : xs.length = ys.length) (h : beNat xs = beNat ys) : xs = ys := by
  induction xs using List.reverseRecOn generalizing ys with
  | nil => exact (List.length_eq_zero_iff.1 hlen.symm).symm
  | append_singleton xs b ih =>
      rcases List.eq_nil_or_concat ys with rfl | ⟨ys, c, rfl⟩
      · simp at hlen
      · rw [List.concat_eq_append] at hlen h ⊢
        rw [beNat_concat, beNat_concat] at h
        have hb := b.toNat_lt
        have hc := c.toNat_lt
        have hlast : b = c := UInt8.toNat_inj.1 (by omega)
        rw [hlast, ih (by simpa using hlen) (by omega)]

end

theorem beNat_zero_cons (bs : List UInt8) : beNat (0 :: bs) = beNat bs := rfl

/-- The last `k` bytes of the number, most significant first. -/
def beBytes : ℕ → ℕ → List UInt8
  | 0, _ => []
  | k + 1, n => beBytes k (n / 256) ++ [UInt8.ofNat n]

@[simp] theorem beBytes_length (k n : ℕ) : (beBytes k n).length = k := by
  induction k generalizing n with
  | zero => rfl
  | succ k ih => simp [beBytes, ih]

theorem beNat_lt (bs : List UInt8) : beNat bs < 256 ^ bs.length := by
  induction bs using List.reverseRecOn with
  | nil => exact Nat.one_pos
  | append_singleton bs b ih =>
      have hb := b.toNat_lt
      rw [beNat_concat, List.length_append, List.length_singleton, Nat.pow_succ]
      omega

theorem beNat_beBytes (k n : ℕ) : beNat (beBytes k n) = n % 256 ^ k := by
  induction k generalizing n with
  | zero => exact (Nat.mod_one n).symm
  | succ k ih =>
      have hsplit : n % 256 ^ (k + 1) = n % 256 + 256 * (n / 256 % 256 ^ k) := by
        rw [pow_succ', Nat.mod_mul]
      rw [beBytes, beNat_concat, ih, UInt8.toNat_ofNat', hsplit]
      change n / 256 % 256 ^ k * 256 + n % 256 = _
      ring

/-- The bytes of a number of which only the last `k` are wanted. -/
theorem beBytes_mod (k n : ℕ) : beBytes k (n % 256 ^ k) = beBytes k n := by
  refine beNat_inj (by simp) ?_
  rw [beNat_beBytes, beNat_beBytes, Nat.mod_mod]

/-- Byte by byte. -/
theorem beBytes_eq_map (k n : ℕ) :
    beBytes k n = (List.range k).map fun i => UInt8.ofNat (n / 256 ^ (k - 1 - i)) := by
  induction k generalizing n with
  | zero => rfl
  | succ k ih =>
      rw [beBytes, ih, List.range_succ, List.map_append, List.map_singleton, Nat.add_sub_cancel,
        Nat.sub_self, pow_zero, Nat.div_one]
      refine congrArg (· ++ [UInt8.ofNat n]) (List.map_congr_left fun i hi => ?_)
      have hlt := List.mem_range.1 hi
      rw [Nat.div_div_eq_div_mul, ← pow_succ', show k - 1 - i + 1 = k - i by omega]

end UnsoloKey
