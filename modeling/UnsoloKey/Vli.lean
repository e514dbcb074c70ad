import Mathlib.Algebra.BigOperators.NatAntidiagonal
import Mathlib.Algebra.Polynomial.BigOperators
import Mathlib.Data.Nat.Bitwise
import Mathlib.Tactic

/-!
# Integers of several words

The `uECC_vli` functions of uECC.c on little-endian lists of 32-bit words.  The loops
run over lists of one length.
-/

namespace UnsoloKey.UEcc

/-- The number which the words denote. -/
def vliNat : List UInt32 → ℕ
  | [] => 0
  | w :: ws => w.toNat + 2 ^ 32 * vliNat ws

/-- `uECC_vli_isZero` -/
def vliIsZero (vli : List UInt32) : Bool := vli.foldl (· ||| ·) 0 == 0

/-- `uECC_vli_testBit` -/
def vliTestBit (vli : List UInt32) (bit : ℕ) : Bool :=
  vli.getD (bit / 32) 0 &&& ((1 : UInt32) <<< UInt32.ofNat (bit % 32)) != 0

/-- `uECC_vli_cmp_unsafe`: the highest words which differ decide. -/
def vliCmpUnsafe : List UInt32 → List UInt32 → Ordering
  | l :: left, r :: right =>
      match vliCmpUnsafe left right with
      | .eq => if l > r then .gt else if l < r then .lt else .eq
      | o => o
  | _, _ => .eq

/-- `uECC_vli_rshift1`, from the highest word down. -/
def vliRshift1 (vli : List UInt32) : List UInt32 :=
  (vli.foldr (fun (temp : UInt32) (acc : List UInt32 × UInt32) =>
    (((temp >>> 1) ||| acc.2) :: acc.1, temp <<< 31)) ([], 0)).1

/-- `uECC_vli_add` behind the words which have given this carry. -/
def vliAddFrom (carry : UInt32) : List UInt32 → List UInt32 → List UInt32 × UInt32
  | l :: left, r :: right =>
      let sum := l + r + carry
      let carry := if sum ≠ l then (if sum < l then 1 else 0) else carry
      let rest := vliAddFrom carry left right
      (sum :: rest.1, rest.2)
  | _, _ => ([], carry)

def vliAdd (left right : List UInt32) : List UInt32 × UInt32 := vliAddFrom 0 left right

/-- `uECC_vli_sub` behind the words which have given this borrow. -/
def vliSubFrom (borrow : UInt32) : List UInt32 → List UInt32 → List UInt32 × UInt32
  | l :: left, r :: right =>
      let diff := l - r - borrow
      let borrow := if diff ≠ l then (if diff > l then 1 else 0) else borrow
      let rest := vliSubFrom borrow left right
      (diff :: rest.1, rest.2)
  | _, _ => ([], borrow)

def vliSub (left right : List UInt32) : List UInt32 × UInt32 := vliSubFrom 0 left right

/-- `uECC_vli_cmp`: the sign of the difference. -/
def vliCmp (left right : List UInt32) : ℤ :=
  let tmp := vliSub left right
  let neg : ℤ := if tmp.2 ≠ 0 then 1 else 0
  (if vliIsZero tmp.1 then 0 else 1) - 2 * neg

/-- The words `r0`, `r1` and `r2`. -/
structure Accumulator where
  r0 : UInt32
  r1 : UInt32
  r2 : UInt32

def muladd (a b : UInt32) (r : Accumulator) : Accumulator :=
  let p : UInt64 := a.toUInt64 * b.toUInt64
  let r01 : UInt64 := ((r.r1.toUInt64 <<< 32) ||| r.r0.toUInt64) + p
  { r2 := r.r2 + if r01 < p then 1 else 0
    r1 := (r01 >>> 32).toUInt32
    r0 := r01.toUInt32 }

/-- The two inner loops: `i` runs from `min` to below `min + count`. -/
def multColumn (left right : List UInt32) (k min count : ℕ) (r : Accumulator) : Accumulator :=
  (List.range' min count).foldl
    (fun r i => muladd (left.getD i 0) (right.getD (k - i) 0) r) r

/-- Digit `k`, with the accumulator which is left for the next one. -/
def multDigit (left right : List UInt32) (numWords : ℕ) (s : List UInt32 × Accumulator) (k : ℕ) :
    List UInt32 × Accumulator :=
  let min := if k < numWords then 0 else k + 1 - numWords
  let r := multColumn left right k min (Nat.min (k + 1) numWords - min) s.2
  (s.1 ++ [r.r0], ⟨r.r1, r.r2, 0⟩)

/-- `uECC_vli_mult` -/
def vliMult (left right : List UInt32) (numWords : ℕ) : List UInt32 :=
  let s := (List.range (2 * numWords - 1)).foldl (multDigit left right numWords) ([], ⟨0, 0, 0⟩)
  s.1 ++ [s.2.r0]

/-! ## Values -/

section

variable {ws left right : List UInt32} {w carry borrow : UInt32}

@[simp] theorem vliNat_nil : vliNat [] = 0 := rfl

@[simp] theorem vliNat_cons : vliNat (w :: ws) = w.toNat + 2 ^ 32 * vliNat ws := rfl

theorem vliNat_append : vliNat (left ++ right) = vliNat left + 2 ^ (32 * left.length) *
    vliNat right := by
  induction left with
  | nil => simp
  | cons l left ih =>
      rw [List.cons_append, vliNat_cons, vliNat_cons, ih, List.length_cons]
      ring

theorem vliNat_replicate_zero (k : ℕ) : vliNat (List.replicate k 0) = 0 := by
  induction k with
  | zero => rfl
  | succ k ih =>
      rw [List.replicate_succ, vliNat_cons, ih]
      rfl

theorem vliNat_drop (ws : List UInt32) (k : ℕ) :
    vliNat (ws.drop k) = (ws.getD k 0).toNat + 2 ^ 32 * vliNat (ws.drop (k + 1)) := by
  rcases Nat.lt_or_ge k ws.length with hk | hk
  · rw [List.drop_eq_getElem_cons hk, vliNat_cons, List.getD_eq_getElem _ _ hk]
  · rw [List.drop_of_length_le hk, List.drop_of_length_le (by omega),
      List.getD_eq_default _ _ hk]
    rfl

theorem vliNat_lt (ws : List UInt32) : vliNat ws < 2 ^ (32 * ws.length) := by
  induction ws with
  | nil => simp
  | cons w ws ih =>
      have hw := w.toNat_lt
      rw [vliNat_cons, List.length_cons, Nat.mul_succ, pow_add]
      have hle : vliNat ws + 1 ≤ 2 ^ (32 * ws.length) := ih
      calc w.toNat + 2 ^ 32 * vliNat ws < 2 ^ 32 * (vliNat ws + 1) := by omega
        _ ≤ 2 ^ 32 * 2 ^ (32 * ws.length) := Nat.mul_le_mul_left _ hle
        _ = 2 ^ (32 * ws.length) * 2 ^ 32 := Nat.mul_comm _ _

theorem vliNat_inj (hlen : left.length = right.length) (h : vliNat left = vliNat right) :
    left = right := by
  induction left generalizing right with
  | nil => exact (List.length_eq_zero_iff.1 hlen.symm).symm
  | cons l left ih =>
      cases right with
      | nil => simp at hlen
      | cons r right =>
          have hl := l.toNat_lt
          have hr := r.toNat_lt
          rw [vliNat_cons, vliNat_cons] at h
          have hhead : l.toNat = r.toNat := by omega
          rw [UInt32.toNat_inj.1 hhead, ih (by simpa using hlen) (by omega)]

theorem foldl_or_eq_zero (ws : List UInt32) (bits : UInt32) :
    ws.foldl (· ||| ·) bits = 0 ↔ bits = 0 ∧ vliNat ws = 0 := by
  induction ws generalizing bits with
  | nil => simp
  | cons w ws ih =>
      have hzero : bits ||| w = 0 ↔ bits = 0 ∧ w = 0 := by
        rw [← UInt32.toNat_inj, UInt32.toNat_or, ← UInt32.toNat_inj, ← UInt32.toNat_inj]
        exact Nat.or_eq_zero_iff
      have hw : w.toNat = 0 ↔ w = 0 := by
        rw [← UInt32.toNat_inj]
        rfl
      rw [List.foldl_cons, ih, hzero, vliNat_cons, and_assoc]
      refine and_congr_right fun _ => ?_
      rw [← hw]
      omega

theorem vliIsZero_iff : vliIsZero ws = true ↔ vliNat ws = 0 := by
  rw [vliIsZero, beq_iff_eq, foldl_or_eq_zero, eq_self_iff_true, true_and]

theorem vliCmpUnsafe_eq (hlen : left.length = right.length) :
    vliCmpUnsafe left right = compare (vliNat left) (vliNat right) := by
  induction left generalizing right with
  | nil =>
      rw [List.length_eq_zero_iff.1 hlen.symm]
      rfl
  | cons l left ih =>
      cases right with
      | nil => simp at hlen
      | cons r right =>
          have hl := l.toNat_lt
          have hr := r.toNat_lt
          rw [vliCmpUnsafe, ih (by simpa using hlen), vliNat_cons, vliNat_cons]
          rcases Nat.lt_trichotomy (vliNat left) (vliNat right) with hlt | heq | hgt
          · rw [Nat.compare_eq_lt.2 hlt]
            exact (Nat.compare_eq_lt.2 (by omega)).symm
          · rw [heq, Nat.compare_eq_eq.2 rfl]
            dsimp only
            split_ifs with hgt hlt
            · have hgt := UInt32.lt_iff_toNat_lt.1 hgt
              exact (Nat.compare_eq_gt.2 (by omega)).symm
            · have hlt := UInt32.lt_iff_toNat_lt.1 hlt
              exact (Nat.compare_eq_lt.2 (by omega)).symm
            · have hgt := mt UInt32.lt_iff_toNat_lt.2 hgt
              have hlt := mt UInt32.lt_iff_toNat_lt.2 hlt
              exact (Nat.compare_eq_eq.2 (by omega)).symm
          · rw [Nat.compare_eq_gt.2 hgt]
            exact (Nat.compare_eq_gt.2 (by omega)).symm

/-! ## Sums and differences -/

theorem word_add (hcarry : carry.toNat ≤ 1) (l r : UInt32) :
    let sum := l + r + carry
    let out : UInt32 := if sum ≠ l then (if sum < l then 1 else 0) else carry
    sum.toNat + 2 ^ 32 * out.toNat = l.toNat + r.toNat + carry.toNat ∧ out.toNat ≤ 1 := by
  intro sum out
  have hl := l.toNat_lt
  have hr := r.toNat_lt
  have hsum : sum.toNat = (l.toNat + r.toNat + carry.toNat) % 2 ^ 32 := by
    simp [sum, UInt32.toNat_add]
  by_cases hne : sum = l
  · have hout : out = carry := if_neg (not_not.2 hne)
    rw [hout, hne]
    rw [hne] at hsum
    omega
  · have hout : out = if sum < l then 1 else 0 := if_pos hne
    have hne' : sum.toNat ≠ l.toNat := mt UInt32.toNat_inj.1 hne
    rw [hout]
    split_ifs with hlt
    · have hlt := UInt32.lt_iff_toNat_lt.1 hlt
      have hone : (1 : UInt32).toNat = 1 := rfl
      omega
    · have hlt := mt UInt32.lt_iff_toNat_lt.2 hlt
      have hzero : (0 : UInt32).toNat = 0 := rfl
      omega

theorem word_sub (hborrow : borrow.toNat ≤ 1) (l r : UInt32) :
    let diff := l - r - borrow
    let out : UInt32 := if diff ≠ l then (if diff > l then 1 else 0) else borrow
    diff.toNat + r.toNat + borrow.toNat = l.toNat + 2 ^ 32 * out.toNat ∧ out.toNat ≤ 1 := by
  intro diff out
  have hl := l.toNat_lt
  have hr := r.toNat_lt
  have hsum : diff.toNat = (2 ^ 32 - borrow.toNat + (2 ^ 32 - r.toNat + l.toNat)) % 2 ^ 32 := by
    simp [diff, UInt32.toNat_sub]
  by_cases hne : diff = l
  · have hout : out = borrow := if_neg (not_not.2 hne)
    rw [hout, hne]
    rw [hne] at hsum
    omega
  · have hout : out = if diff > l then 1 else 0 := if_pos hne
    have hne' : diff.toNat ≠ l.toNat := mt UInt32.toNat_inj.1 hne
    rw [hout]
    split_ifs with hlt
    · have hlt := UInt32.lt_iff_toNat_lt.1 hlt
      have hone : (1 : UInt32).toNat = 1 := rfl
      omega
    · have hlt := mt UInt32.lt_iff_toNat_lt.2 hlt
      have hzero : (0 : UInt32).toNat = 0 := rfl
      omega

theorem vliAddFrom_spec (hlen : left.length = right.length) (hcarry : carry.toNat ≤ 1) :
    (vliAddFrom carry left right).1.length = left.length ∧
      vliNat (vliAddFrom carry left right).1 +
        2 ^ (32 * left.length) * (vliAddFrom carry left right).2.toNat =
          vliNat left + vliNat right + carry.toNat ∧
      (vliAddFrom carry left right).2.toNat ≤ 1 := by
  induction left generalizing right carry with
  | nil =>
      rw [List.length_eq_zero_iff.1 hlen.symm]
      simpa [vliAddFrom] using hcarry
  | cons l left ih =>
      cases right with
      | nil => simp at hlen
      | cons r right =>
          obtain ⟨hword, hout⟩ := word_add hcarry l r
          obtain ⟨hlength, hrest, hle⟩ := ih (Nat.succ.inj hlen) hout
          simp only [vliAddFrom, List.length_cons, vliNat_cons]
          refine ⟨by rw [hlength], ?_, hle⟩
          rw [Nat.mul_succ, Nat.add_comm _ 32, pow_add]
          linarith [hword, congrArg (2 ^ 32 * ·) hrest]

theorem vliSubFrom_spec (hlen : left.length = right.length) (hborrow : borrow.toNat ≤ 1) :
    (vliSubFrom borrow left right).1.length = left.length ∧
      vliNat (vliSubFrom borrow left right).1 + vliNat right + borrow.toNat =
        vliNat left + 2 ^ (32 * left.length) * (vliSubFrom borrow left right).2.toNat ∧
      (vliSubFrom borrow left right).2.toNat ≤ 1 := by
  induction left generalizing right borrow with
  | nil =>
      rw [List.length_eq_zero_iff.1 hlen.symm]
      simpa [vliSubFrom] using hborrow
  | cons l left ih =>
      cases right with
      | nil => simp at hlen
      | cons r right =>
          obtain ⟨hword, hout⟩ := word_sub hborrow l r
          obtain ⟨hlength, hrest, hle⟩ := ih (Nat.succ.inj hlen) hout
          simp only [vliSubFrom, List.length_cons, vliNat_cons]
          refine ⟨by rw [hlength], ?_, hle⟩
          rw [Nat.mul_succ, Nat.add_comm _ 32, pow_add]
          linarith [hword, congrArg (2 ^ 32 * ·) hrest]

/-- The sum and its carry. -/
theorem vliAdd_spec (hlen : left.length = right.length) :
    (vliAdd left right).1.length = left.length ∧
      vliNat (vliAdd left right).1 + 2 ^ (32 * left.length) * (vliAdd left right).2.toNat =
        vliNat left + vliNat right ∧
      (vliAdd left right).2.toNat ≤ 1 :=
  vliAddFrom_spec hlen (Nat.zero_le 1)

/-- The difference and its borrow. -/
theorem vliSub_spec (hlen : left.length = right.length) :
    (vliSub left right).1.length = left.length ∧
      vliNat (vliSub left right).1 + vliNat right =
        vliNat left + 2 ^ (32 * left.length) * (vliSub left right).2.toNat ∧
      (vliSub left right).2.toNat ≤ 1 :=
  vliSubFrom_spec hlen (Nat.zero_le 1)

/-- Where the left side is not smaller the difference is exact. -/
theorem vliSub_exact (hlen : left.length = right.length) (hle : vliNat right ≤ vliNat left) :
    vliNat (vliSub left right).1 = vliNat left - vliNat right ∧ (vliSub left right).2 = 0 := by
  obtain ⟨hlength, hsub, hbound⟩ := vliSub_spec hlen
  have hlt := vliNat_lt (vliSub left right).1
  rw [hlength] at hlt
  have hborrow : (vliSub left right).2.toNat = 0 := by
    by_contra hne
    have hone : (vliSub left right).2.toNat = 1 := by omega
    rw [hone] at hsub
    omega
  refine ⟨?_, UInt32.toNat_inj.1 hborrow⟩
  rw [hborrow] at hsub
  omega

theorem vliCmp_eq_one (hlen : left.length = right.length) :
    vliCmp left right = 1 ↔ vliNat right < vliNat left := by
  obtain ⟨hlength, hdiff, hborrow⟩ := vliSub_spec hlen
  have hlt := vliNat_lt (vliSub left right).1
  have hltRight := vliNat_lt right
  rw [hlength] at hlt
  rw [← hlen] at hltRight
  have hzero := @vliIsZero_iff (vliSub left right).1
  have hnone : (vliSub left right).2 = 0 ↔ (vliSub left right).2.toNat = 0 := UInt32.toNat_inj.symm
  unfold vliCmp
  generalize (vliSub left right).2.toNat = borrow at *
  generalize (2 : ℕ) ^ (32 * left.length) = radix at *
  obtain rfl | rfl : borrow = 0 ∨ borrow = 1 := by omega
  · rw [Nat.mul_zero, Nat.add_zero] at hdiff
    simp only [hzero, hnone, ne_eq, not_true_eq_false, if_false]
    split_ifs <;> omega
  · rw [Nat.mul_one] at hdiff
    simp only [hnone, ne_eq, Nat.one_ne_zero, not_false_eq_true, if_true]
    split_ifs <;> omega

/-! ## Bits -/

theorem shift_step (w : UInt32) (n : ℕ) :
    ((w >>> 1) ||| UInt32.ofNat (n % 2) <<< 31).toNat + 2 ^ 32 * (n / 2) =
      (w.toNat + 2 ^ 32 * n) / 2 := by
  have hw := w.toNat_lt
  have hmod : n % 2 < 2 := Nat.mod_lt _ (by decide)
  have hshift : (w >>> 1).toNat = w.toNat / 2 := by
    rw [UInt32.toNat_shiftRight]
    exact Nat.shiftRight_eq_div_pow _ 1
  have hcarry : (UInt32.ofNat (n % 2) <<< 31).toNat = 2 ^ 31 * (n % 2) := by
    rcases Nat.mod_two_eq_zero_or_one n with h | h <;> rw [h] <;> rfl
  have hor : ((w >>> 1) ||| UInt32.ofNat (n % 2) <<< 31).toNat =
      2 ^ 31 * (n % 2) + w.toNat / 2 := by
    rw [UInt32.toNat_or, hshift, hcarry, Nat.or_comm]
    exact (Nat.two_pow_add_eq_or_of_lt (by omega) _).symm
  rw [hor]
  omega

theorem vliRshift1_fold (ws : List UInt32) :
    let acc := ws.foldr (fun (temp : UInt32) (acc : List UInt32 × UInt32) =>
      (((temp >>> 1) ||| acc.2) :: acc.1, temp <<< 31)) ([], 0)
    acc.1.length = ws.length ∧ vliNat acc.1 = vliNat ws / 2 ∧
      acc.2 = UInt32.ofNat (vliNat ws % 2) <<< 31 := by
  induction ws with
  | nil => exact ⟨rfl, rfl, rfl⟩
  | cons w ws ih =>
      obtain ⟨hlength, hvalue, hcarry⟩ := ih
      simp only [List.foldr_cons, List.length_cons, vliNat_cons]
      refine ⟨by rw [hlength], ?_, ?_⟩
      · rw [hcarry, hvalue, shift_step]
      · have hmod : (w.toNat + 2 ^ 32 * vliNat ws) % 2 = w.toNat % 2 := by omega
        rw [hmod, ← UInt32.toNat_inj, UInt32.toNat_shiftLeft, UInt32.toNat_shiftLeft,
          UInt32.toNat_ofNat']
        simp only [Nat.shiftLeft_eq]
        have hw := w.toNat_lt
        have hthirty : (31 : UInt32).toNat % 32 = 31 := rfl
        rw [hthirty]
        omega

@[simp] theorem length_vliRshift1 (ws : List UInt32) : (vliRshift1 ws).length = ws.length :=
  (vliRshift1_fold ws).1

theorem vliNat_vliRshift1 (ws : List UInt32) : vliNat (vliRshift1 ws) = vliNat ws / 2 :=
  (vliRshift1_fold ws).2.1

theorem vliTestBit_eq (ws : List UInt32) (bit : ℕ) :
    vliTestBit ws bit = (vliNat ws).testBit bit := by
  induction ws generalizing bit with
  | nil => simp [vliTestBit]
  | cons w ws ih =>
      have hw := w.toNat_lt
      have hsplit : w.toNat + 2 ^ 32 * vliNat ws = 2 ^ 32 * vliNat ws + w.toNat :=
        Nat.add_comm _ _
      rw [vliNat_cons, hsplit, Nat.testBit_two_pow_mul_add _ hw]
      by_cases hlow : bit < 32
      · have hmask : ((1 : UInt32) <<< UInt32.ofNat bit).toNat = 2 ^ bit := by
          have hpow : 2 ^ bit < 2 ^ 32 := Nat.pow_lt_pow_right (by decide) hlow
          have hbit : bit % 2 ^ 32 % 32 = bit := by omega
          have hone : UInt32.toNat 1 = 1 := rfl
          rw [UInt32.toNat_shiftLeft, UInt32.toNat_ofNat', hbit, Nat.shiftLeft_eq, hone,
            Nat.one_mul, Nat.mod_eq_of_lt hpow]
        have hand : (w &&& ((1 : UInt32) <<< UInt32.ofNat bit)).toNat =
            (w.toNat.testBit bit).toNat * 2 ^ bit := by
          rw [UInt32.toNat_and, hmask, Nat.and_two_pow]
        rw [if_pos hlow, vliTestBit, Nat.div_eq_of_lt hlow, Nat.mod_eq_of_lt hlow,
          List.getD_cons_zero, bne, Bool.eq_iff_iff, Bool.not_eq_true', beq_eq_false_iff_ne, ne_eq,
          ← UInt32.toNat_inj, hand]
        cases w.toNat.testBit bit <;> simp
      · rw [if_neg hlow, ← ih, vliTestBit, vliTestBit]
        obtain ⟨b, rfl⟩ := Nat.exists_eq_add_of_le (Nat.le_of_not_lt hlow)
        have hdiv : (32 + b) / 32 = b / 32 + 1 := by omega
        have hmod : (32 + b) % 32 = b % 32 := by omega
        rw [hdiv, hmod, List.getD_cons_succ, Nat.add_sub_cancel_left]

/-! ## Products -/

namespace Accumulator

def toNat (r : Accumulator) : ℕ := r.r0.toNat + 2 ^ 32 * r.r1.toNat + 2 ^ 64 * r.r2.toNat

end Accumulator

theorem muladd_spec (a b : UInt32) (r : Accumulator)
    (hroom : r.toNat + a.toNat * b.toNat < 2 ^ 96) :
    (muladd a b r).toNat = r.toNat + a.toNat * b.toNat := by
  have ha := a.toNat_lt
  have hb := b.toNat_lt
  have h0 := r.r0.toNat_lt
  have h1 := r.r1.toNat_lt
  have h2 := r.r2.toNat_lt
  have hprod : a.toNat * b.toNat ≤ (2 ^ 32 - 1) * (2 ^ 32 - 1) :=
    Nat.mul_le_mul (by omega) (by omega)
  have hp : (a.toUInt64 * b.toUInt64).toNat = a.toNat * b.toNat := by
    rw [UInt64.toNat_mul, UInt32.toNat_toUInt64, UInt32.toNat_toUInt64]
    exact Nat.mod_eq_of_lt (by omega)
  have hlow : ((r.r1.toUInt64 <<< 32) ||| r.r0.toUInt64).toNat =
      r.r0.toNat + 2 ^ 32 * r.r1.toNat := by
    have hshift : (r.r1.toUInt64 <<< 32).toNat = 2 ^ 32 * r.r1.toNat := by
      rw [UInt64.toNat_shiftLeft, UInt32.toNat_toUInt64, Nat.shiftLeft_eq]
      have hmod : (32 : UInt64).toNat % 64 = 32 := rfl
      rw [hmod]
      omega
    rw [UInt64.toNat_or, hshift, UInt32.toNat_toUInt64]
    exact (Nat.two_pow_add_eq_or_of_lt (by omega) _).symm.trans (Nat.add_comm _ _)
  generalize hP : a.toNat * b.toNat = P at *
  generalize hL : r.r0.toNat + 2 ^ 32 * r.r1.toNat = L at *
  have hsum : (((r.r1.toUInt64 <<< 32) ||| r.r0.toUInt64) + a.toUInt64 * b.toUInt64).toNat =
      (L + P) % 2 ^ 64 := by
    rw [UInt64.toNat_add, hlow, hp]
  have hcarry : (if ((r.r1.toUInt64 <<< 32) ||| r.r0.toUInt64) + a.toUInt64 * b.toUInt64 <
      a.toUInt64 * b.toUInt64 then (1 : UInt32) else 0).toNat = (L + P) / 2 ^ 64 := by
    split_ifs with hlt
    · have hlt := UInt64.lt_iff_toNat_lt.1 hlt
      rw [hsum, hp] at hlt
      have hone : (1 : UInt32).toNat = 1 := rfl
      omega
    · have hlt := mt UInt64.lt_iff_toNat_lt.2 hlt
      rw [hsum, hp] at hlt
      have hzero : (0 : UInt32).toNat = 0 := rfl
      omega
  have hr0 : (muladd a b r).r0.toNat = (L + P) % 2 ^ 64 % 2 ^ 32 := by
    simp only [muladd, UInt64.toNat_toUInt32, hsum]
  have hr1 : (muladd a b r).r1.toNat = (L + P) % 2 ^ 64 / 2 ^ 32 := by
    have hshift : ∀ n : ℕ, n >>> ((32 : UInt64).toNat % 64) = n / 2 ^ 32 := fun n =>
      Nat.shiftRight_eq_div_pow n 32
    simp only [muladd, UInt64.toNat_toUInt32, UInt64.toNat_shiftRight, hsum, hshift]
    omega
  have hr2 : (muladd a b r).r2.toNat = r.r2.toNat + (L + P) / 2 ^ 64 := by
    simp only [muladd, UInt32.toNat_add, hcarry]
    rw [Accumulator.toNat, hL] at hroom
    omega
  rw [Accumulator.toNat, Accumulator.toNat, hr0, hr1, hr2, hL]
  omega

theorem multColumn_spec {k min count : ℕ} {r : Accumulator}
    (hroom : r.toNat + ((List.range' min count).map fun i =>
      (left.getD i 0).toNat * (right.getD (k - i) 0).toNat).sum < 2 ^ 96) :
    (multColumn left right k min count r).toNat = r.toNat + ((List.range' min count).map fun i =>
      (left.getD i 0).toNat * (right.getD (k - i) 0).toNat).sum := by
  unfold multColumn
  generalize List.range' min count = is at *
  induction is generalizing r with
  | nil => simp
  | cons i is ih =>
      rw [List.map_cons, List.sum_cons, ← Nat.add_assoc] at *
      have hstep := muladd_spec (left.getD i 0) (right.getD (k - i) 0) r (by omega)
      rw [List.foldl_cons, ih (by rw [hstep]; exact hroom), hstep]

open Polynomial in
/-- The words as coefficients. -/
noncomputable def vliPoly : List UInt32 → ℕ[X]
  | [] => 0
  | w :: ws => C w.toNat + X * vliPoly ws

theorem vliPoly_eval (ws : List UInt32) : (vliPoly ws).eval (2 ^ 32) = vliNat ws := by
  induction ws with
  | nil => simp [vliPoly]
  | cons w ws ih =>
      rw [vliPoly, Polynomial.eval_add, Polynomial.eval_C, Polynomial.eval_mul, Polynomial.eval_X,
        ih, vliNat_cons]

theorem vliPoly_coeff (ws : List UInt32) (i : ℕ) :
    (vliPoly ws).coeff i = (ws.getD i 0).toNat := by
  induction ws generalizing i with
  | nil => simp [vliPoly]
  | cons w ws ih =>
      cases i with
      | zero => simp [vliPoly]
      | succ i => simp [vliPoly, ih]

theorem vliPoly_natDegree {n : ℕ} (hlen : ws.length ≤ n + 1) : (vliPoly ws).natDegree ≤ n := by
  rw [Polynomial.natDegree_le_iff_coeff_eq_zero]
  intro i hi
  rw [vliPoly_coeff, List.getD_eq_default _ _ (by omega)]
  rfl

/-- Column `k` of the product. -/
def column (left right : List UInt32) (k : ℕ) : ℕ :=
  ∑ i ∈ Finset.range (k + 1), (left.getD i 0).toNat * (right.getD (k - i) 0).toNat

theorem sum_columns {n : ℕ} (hl : left.length ≤ n + 1) (hr : right.length ≤ n + 1) :
    ∑ k ∈ Finset.range (2 * (n + 1) - 1), column left right k * (2 ^ 32) ^ k =
      vliNat left * vliNat right := by
  have hdegree : (vliPoly left * vliPoly right).natDegree < 2 * (n + 1) - 1 := by
    have hmul := Polynomial.natDegree_mul_le (p := vliPoly left) (q := vliPoly right)
    have hleft := vliPoly_natDegree hl
    have hright := vliPoly_natDegree hr
    omega
  rw [← vliPoly_eval left, ← vliPoly_eval right, ← Polynomial.eval_mul,
    Polynomial.eval_eq_sum_range' hdegree]
  refine Finset.sum_congr rfl fun k _ => ?_
  rw [Polynomial.coeff_mul, Finset.Nat.sum_antidiagonal_eq_sum_range_succ_mk, column]
  simp only [vliPoly_coeff]

/-- The terms which the loops leave out are zero. -/
theorem column_eq {n k : ℕ} (hl : left.length = n + 1) (hr : right.length = n + 1) :
    let min := if k < n + 1 then 0 else k + 1 - (n + 1)
    column left right k = ((List.range' min (Nat.min (k + 1) (n + 1) - min)).map fun i =>
      (left.getD i 0).toNat * (right.getD (k - i) 0).toNat).sum := by
  intro min
  have hsum : ((List.range' min (Nat.min (k + 1) (n + 1) - min)).map fun i =>
      (left.getD i 0).toNat * (right.getD (k - i) 0).toNat).sum =
        ∑ i ∈ Finset.Ico min (Nat.min (k + 1) (n + 1)),
          (left.getD i 0).toNat * (right.getD (k - i) 0).toNat := by
    rw [Finset.sum_Ico_eq_sum_range, List.range'_eq_map_range, List.map_map]
    rfl
  rw [hsum, column]
  symm
  refine Finset.sum_subset (fun i hi => ?_) fun i hi hnot => ?_
  · rw [Finset.mem_Ico] at hi
    rw [Finset.mem_range]
    exact lt_of_lt_of_le hi.2 (Nat.min_le_left _ _)
  · rw [Finset.mem_range] at hi
    have hcase : n + 1 ≤ i ∨ n + 1 ≤ k - i := by
      by_contra hnone
      push Not at hnone
      refine hnot (Finset.mem_Ico.2 ⟨?_, lt_min hi hnone.1⟩)
      change (if k < n + 1 then 0 else k + 1 - (n + 1)) ≤ i
      split_ifs <;> omega
    rcases hcase with hi | hi
    · rw [List.getD_eq_default _ _ (by omega)]
      exact Nat.zero_mul _
    · rw [List.getD_eq_default right _ (by omega)]
      exact Nat.mul_zero _

theorem column_le (left right : List UInt32) (k : ℕ) :
    column left right k ≤ (k + 1) * 2 ^ 64 := by
  have hsum := Finset.sum_le_card_nsmul (Finset.range (k + 1))
    (fun i => (left.getD i 0).toNat * (right.getD (k - i) 0).toNat) (2 ^ 64) fun i _ =>
      Nat.mul_le_mul (left.getD i 0).toNat_lt.le (right.getD (k - i) 0).toNat_lt.le
  rwa [Finset.card_range, smul_eq_mul] at hsum

/-- The digits so far, with the accumulator behind them. -/
theorem multDigits_spec {n : ℕ} (hl : left.length = n + 1) (hr : right.length = n + 1)
    (hn : n < 2 ^ 30) (k : ℕ) (hk : k ≤ 2 * (n + 1) - 1) :
    let s := (List.range k).foldl (multDigit left right (n + 1)) ([], ⟨0, 0, 0⟩)
    s.1.length = k ∧ s.2.toNat < 2 ^ 64 ∧ vliNat s.1 + 2 ^ (32 * k) * s.2.toNat =
      ∑ j ∈ Finset.range k, column left right j * (2 ^ 32) ^ j := by
  induction k with
  | zero => exact ⟨rfl, Nat.two_pow_pos 64, rfl⟩
  | succ k ih =>
      obtain ⟨hlength, hbound, hvalue⟩ := ih (by omega)
      have hcolumn := column_eq hl hr (k := k)
      have hle := column_le left right k
      rw [List.range_succ, List.foldl_append, List.foldl_cons, List.foldl_nil,
        Finset.sum_range_succ, ← hvalue]
      generalize (List.range k).foldl (multDigit left right (n + 1)) ([], ⟨0, 0, 0⟩) = s at *
      have hspec := @multColumn_spec left right k
        (if k < n + 1 then 0 else k + 1 - (n + 1))
        (Nat.min (k + 1) (n + 1) - if k < n + 1 then 0 else k + 1 - (n + 1))
        s.2 (by rw [← hcolumn]; omega)
      rw [← hcolumn] at hspec
      simp only [multDigit]
      generalize multColumn left right k _ _ s.2 = r at *
      have h0 := r.r0.toNat_lt
      have h2 := r.r2.toNat_lt
      have hshift : (⟨r.r1, r.r2, 0⟩ : Accumulator).toNat = r.r1.toNat + 2 ^ 32 * r.r2.toNat := by
        simp [Accumulator.toNat]
      rw [Accumulator.toNat] at hspec
      refine ⟨by rw [List.length_append, hlength, List.length_singleton], ?_, ?_⟩
      · rw [hshift]
        have h1 := r.r1.toNat_lt
        omega
      · rw [hshift, vliNat_append, hlength, vliNat_cons, vliNat_nil, Nat.mul_succ, pow_add,
          ← pow_mul]
        linarith [congrArg (2 ^ (32 * k) * ·) hspec]

/-- The product of two numbers of `n + 1` words. -/
theorem vliMult_spec {n : ℕ} (hl : left.length = n + 1) (hr : right.length = n + 1)
    (hn : n < 2 ^ 30) :
    (vliMult left right (n + 1)).length = 2 * (n + 1) ∧
      vliNat (vliMult left right (n + 1)) = vliNat left * vliNat right := by
  obtain ⟨hlength, hbound, hvalue⟩ := multDigits_spec hl hr hn (2 * (n + 1) - 1) le_rfl
  rw [sum_columns hl.le hr.le] at hvalue
  simp only [vliMult]
  generalize (List.range (2 * (n + 1) - 1)).foldl (multDigit left right (n + 1))
    ([], ⟨0, 0, 0⟩) = s at *
  have hlow : s.2.toNat = s.2.r0.toNat := by
    have hlt : 2 ^ (32 * (2 * (n + 1) - 1)) * s.2.toNat < 2 ^ (32 * (2 * (n + 1) - 1)) * 2 ^ 32 := by
      have hleft := vliNat_lt left
      have hright := vliNat_lt right
      rw [hl] at hleft
      rw [hr] at hright
      calc 2 ^ (32 * (2 * (n + 1) - 1)) * s.2.toNat ≤ vliNat left * vliNat right := by omega
        _ < 2 ^ (32 * (n + 1)) * 2 ^ (32 * (n + 1)) := Nat.mul_lt_mul'' hleft hright
        _ = 2 ^ (32 * (2 * (n + 1) - 1)) * 2 ^ 32 := by
          rw [← pow_add, ← pow_add]
          congr 1
          omega
    have hsmall := Nat.lt_of_mul_lt_mul_left hlt
    rw [Accumulator.toNat] at hsmall ⊢
    omega
  refine ⟨by rw [List.length_append, hlength, List.length_singleton]; omega, ?_⟩
  rw [vliNat_append, hlength, vliNat_cons, vliNat_nil, ← hvalue, hlow]
  ring

end

end UnsoloKey.UEcc
