import UnsoloKey.Vli
import Mathlib.Data.Nat.Size
import Mathlib.Data.ZMod.Basic
import Mathlib.Tactic

/-!
# Modular arithmetic on words

Sums, differences, remainders and inverses as uECC.c computes them.  A remainder is
found by subtracting shifted copies of the modulus, an inverse by a binary Euclidean
algorithm which halves one of two numbers in each round.
-/

namespace UnsoloKey.UEcc

/-! ## The functions -/

/-- `vli[num_words - 1] |= bit` -/
def vliOrTop (bit : UInt32) : List UInt32 → List UInt32
  | [] => []
  | [w] => [w ||| bit]
  | w :: w' :: ws => w :: vliOrTop bit (w' :: ws)

/-- `uECC_vli_modAdd` -/
def vliModAdd (left right mod : List UInt32) : List UInt32 :=
  let sum := vliAdd left right
  if sum.2 ≠ 0 ∨ vliCmpUnsafe mod sum.1 ≠ .gt then (vliSub sum.1 mod).1 else sum.1

/-- `uECC_vli_modSub` -/
def vliModSub (left right mod : List UInt32) : List UInt32 :=
  let diff := vliSub left right
  if diff.2 ≠ 0 then (vliAdd diff.1 mod).1 else diff.1

/-- The loop over the bits of the highest digit; a word has at most 32. -/
def digitBits : ℕ → UInt32 → ℕ
  | 0, _ => 0
  | rounds + 1, digit => if digit = 0 then 0 else digitBits rounds (digit >>> 1) + 1

/-- `uECC_vli_numBits` -/
def vliNumBits (vli : List UInt32) : ℕ :=
  match vli.reverse.dropWhile (· == 0) with
  | [] => 0
  | digit :: rest => 32 * rest.length + digitBits 32 digit

/-- The words shifted by fewer than 32 bits, behind the words which have given this
carry. -/
def shiftLeftFrom (bitShift carry : UInt32) : List UInt32 → List UInt32
  | [] => []
  | w :: mod => ((w <<< bitShift) ||| carry) :: shiftLeftFrom bitShift (w >>> (32 - bitShift)) mod

/-- The modulus with its highest bit at the highest place of a product. -/
def modMultiple (mod : List UInt32) (shift : ℕ) : List UInt32 :=
  List.replicate (shift / 32) 0 ++
    if shift % 32 > 0 then shiftLeftFrom (UInt32.ofNat (shift % 32)) 0 mod else mod

/-- The shift of `mod_multiple` in its two halves. -/
def halveMultiple (modMultiple : List UInt32) (numWords : ℕ) : List UInt32 :=
  vliOrTop ((modMultiple.getD numWords 0) <<< 31) (vliRshift1 (modMultiple.take numWords)) ++
    vliRshift1 (modMultiple.drop numWords)

/-- `uECC_vli_mmod` after `mod_multiple` has been found: `shift + 1` rounds, of which each
keeps the difference unless it borrows. -/
def mmodRounds (numWords : ℕ) : ℕ → List UInt32 → List UInt32 → List UInt32
  | 0, _, v => v
  | rounds + 1, modMultiple, v =>
      let diff := vliSub v modMultiple
      mmodRounds numWords rounds (halveMultiple modMultiple numWords)
        (if diff.2 ≠ 0 then v else diff.1)

/-- `uECC_vli_mmod` -/
def vliMmod (product mod : List UInt32) (numWords : ℕ) : List UInt32 :=
  let shift := 64 * numWords - vliNumBits mod
  (mmodRounds numWords (shift + 1) (modMultiple mod shift) product).take numWords

/-- `uECC_vli_modMult` -/
def vliModMult (left right mod : List UInt32) (numWords : ℕ) : List UInt32 :=
  vliMmod (vliMult left right numWords) mod numWords

def vliEven (vli : List UInt32) : Bool := vli.getD 0 0 &&& 1 == 0

/-- `vli_modInv_update` -/
def vliModInvUpdate (uv mod : List UInt32) : List UInt32 :=
  if vliEven uv then vliRshift1 uv
  else
    let sum := vliAdd uv mod
    if sum.2 ≠ 0 then vliOrTop 0x80000000 (vliRshift1 sum.1) else vliRshift1 sum.1

structure ModInv where
  a : List UInt32
  b : List UInt32
  u : List UInt32
  v : List UInt32

/-- `u - v`, where `u` is first raised by the modulus if it is smaller. -/
def modInvSub (u v mod : List UInt32) : List UInt32 :=
  (vliSub (if vliCmpUnsafe u v = .lt then (vliAdd u mod).1 else u) v).1

/-- One round of the loop of `uECC_vli_modInv`. -/
def modInvRound (mod : List UInt32) (s : ModInv) : ModInv :=
  if vliEven s.a then { s with a := vliRshift1 s.a, u := vliModInvUpdate s.u mod }
  else if vliEven s.b then { s with b := vliRshift1 s.b, v := vliModInvUpdate s.v mod }
  else if vliCmpUnsafe s.a s.b = .gt then
    { s with
      a := vliRshift1 (vliSub s.a s.b).1
      u := vliModInvUpdate (modInvSub s.u s.v mod) mod }
  else
    { s with
      b := vliRshift1 (vliSub s.b s.a).1
      v := vliModInvUpdate (modInvSub s.v s.u mod) mod }

def modInvLoop (mod : List UInt32) : ℕ → ModInv → ModInv
  | 0, s => s
  | rounds + 1, s =>
      if vliCmpUnsafe s.a s.b = .eq then s else modInvLoop mod rounds (modInvRound mod s)

/-- `uECC_vli_modInv`.  No more rounds are taken than `a` and `b` have bits. -/
def vliModInv (input mod : List UInt32) (numWords : ℕ) : List UInt32 :=
  if vliIsZero input then List.replicate numWords 0
  else
    (modInvLoop mod (64 * numWords) ⟨input, mod, 1 :: List.replicate (numWords - 1) 0,
      List.replicate numWords 0⟩).u

/-! ## Sums and differences -/

section

variable {left right mod ws : List UInt32} {n : ℕ}

theorem vliModAdd_spec (hleft : left.length = mod.length) (hright : right.length = mod.length)
    (hl : vliNat left < vliNat mod) (hr : vliNat right < vliNat mod) :
    (vliModAdd left right mod).length = mod.length ∧
      vliNat (vliModAdd left right mod) = (vliNat left + vliNat right) % vliNat mod := by
  obtain ⟨hlength, hsum, hcarry⟩ := vliAdd_spec (hleft.trans hright.symm)
  rw [hleft] at hlength hsum
  obtain ⟨hlengthSub, hsub, hborrow⟩ := vliSub_spec hlength
  have hmod := vliNat_lt mod
  have hlt := vliNat_lt (vliAdd left right).1
  have hltSub := vliNat_lt (vliSub (vliAdd left right).1 mod).1
  rw [hlengthSub, hlength] at hltSub
  rw [hlength] at hlt hsub hlengthSub
  have hzero : (vliAdd left right).2 ≠ 0 ↔ (vliAdd left right).2.toNat ≠ 0 :=
    not_congr UInt32.toNat_inj.symm
  generalize hP : 2 ^ (32 * mod.length) = P at *
  unfold vliModAdd
  dsimp only
  split_ifs with hcase
  · refine ⟨hlengthSub, ?_⟩
    rw [vliCmpUnsafe_eq hlength.symm, ne_eq (compare _ _), Nat.compare_eq_gt, hzero] at hcase
    have hreduced : vliNat (vliSub (vliAdd left right).1 mod).1 =
        vliNat left + vliNat right - vliNat mod := by
      rcases Nat.le_one_iff_eq_zero_or_eq_one.1 hcarry with h | h <;>
        rcases Nat.le_one_iff_eq_zero_or_eq_one.1 hborrow with h' | h' <;>
          rw [h] at hsum hcase <;> rw [h'] at hsub <;> omega
    have hge : vliNat mod ≤ vliNat left + vliNat right := by
      rcases Nat.le_one_iff_eq_zero_or_eq_one.1 hcarry with h | h <;> rw [h] at hsum hcase <;>
        omega
    rw [hreduced, Nat.mod_eq_sub_mod hge, Nat.mod_eq_of_lt (by omega)]
  · refine ⟨hlength, ?_⟩
    rw [vliCmpUnsafe_eq hlength.symm, ne_eq (compare _ _), Nat.compare_eq_gt, hzero] at hcase
    have hnone : (vliAdd left right).2.toNat = 0 := by omega
    rw [hnone] at hsum
    rw [Nat.mod_eq_of_lt (by omega)]
    omega

theorem vliModSub_spec (hleft : left.length = mod.length) (hright : right.length = mod.length)
    (hl : vliNat left < vliNat mod) (hr : vliNat right < vliNat mod) :
    (vliModSub left right mod).length = mod.length ∧
      vliNat (vliModSub left right mod) =
        (vliNat left + (vliNat mod - vliNat right)) % vliNat mod := by
  obtain ⟨hlength, hsub, hborrow⟩ := vliSub_spec (hleft.trans hright.symm)
  rw [hleft] at hlength hsub
  obtain ⟨hlengthAdd, hadd, hcarry⟩ := vliAdd_spec hlength
  have hlt := vliNat_lt (vliSub left right).1
  have hltAdd := vliNat_lt (vliAdd (vliSub left right).1 mod).1
  rw [hlengthAdd, hlength] at hltAdd
  rw [hlength] at hlt hadd hlengthAdd
  have hzero : (vliSub left right).2 ≠ 0 ↔ (vliSub left right).2.toNat ≠ 0 :=
    not_congr UInt32.toNat_inj.symm
  have hmod := vliNat_lt mod
  generalize hP : 2 ^ (32 * mod.length) = P at *
  unfold vliModSub
  dsimp only
  split_ifs with hcase
  · refine ⟨hlengthAdd, ?_⟩
    rw [hzero] at hcase
    have hone : (vliSub left right).2.toNat = 1 := by omega
    rw [hone] at hsub
    rw [Nat.mod_eq_of_lt (by omega)]
    rcases Nat.le_one_iff_eq_zero_or_eq_one.1 hcarry with h | h <;> rw [h] at hadd <;> omega
  · refine ⟨hlength, ?_⟩
    rw [hzero] at hcase
    have hnone : (vliSub left right).2.toNat = 0 := by omega
    rw [hnone] at hsub
    have hge : vliNat left + (vliNat mod - vliNat right) =
        vliNat left - vliNat right + vliNat mod := by omega
    rw [hge, Nat.add_mod_right, Nat.mod_eq_of_lt (by omega)]
    omega

/-! ## The number of bits -/

theorem digitBits_spec {rounds : ℕ} {digit : UInt32} (hpos : 0 < digit.toNat)
    (hlt : digit.toNat < 2 ^ rounds) :
    digit.toNat < 2 ^ digitBits rounds digit ∧ 2 ^ digitBits rounds digit ≤ 2 * digit.toNat := by
  induction rounds generalizing digit with
  | zero => omega
  | succ rounds ih =>
      have hne : digit ≠ 0 := by
        rintro rfl
        exact absurd hpos (by decide)
      have hshift : (digit >>> 1).toNat = digit.toNat / 2 := by
        rw [UInt32.toNat_shiftRight]
        exact Nat.shiftRight_eq_div_pow _ 1
      rw [digitBits, if_neg hne, pow_succ]
      by_cases hone : digit.toNat = 1
      · have hend : digit >>> 1 = 0 := UInt32.toNat_inj.1 (by rw [hshift, hone]; rfl)
        have hzero : digitBits rounds 0 = 0 := by
          cases rounds with
          | zero => rfl
          | succ rounds => exact if_pos rfl
        rw [hend, hzero, hone]
        decide
      · rw [pow_succ] at hlt
        obtain ⟨hbelow, hover⟩ := @ih (digit >>> 1) (by omega) (by omega)
        rw [hshift] at hbelow hover
        omega

/-- The bits of a positive number. -/
theorem vliNumBits_spec (hpos : 0 < vliNat ws) :
    vliNat ws < 2 ^ vliNumBits ws ∧ 2 ^ vliNumBits ws ≤ 2 * vliNat ws := by
  induction ws using List.reverseRecOn with
  | nil => simp at hpos
  | append_singleton ws w ih =>
      have hlow := vliNat_lt ws
      rw [vliNat_append, vliNat_cons, vliNat_nil, Nat.mul_zero, Nat.add_zero] at hpos ⊢
      unfold vliNumBits at ih ⊢
      rw [List.reverse_append, List.reverse_singleton, List.singleton_append,
        List.dropWhile_cons]
      by_cases hw : w = 0
      · subst hw
        simp only [beq_self_eq_true, if_true]
        have hzero : (0 : UInt32).toNat = 0 := rfl
        rw [hzero, Nat.mul_zero, Nat.add_zero] at hpos ⊢
        exact ih hpos
      · have hwpos : 0 < w.toNat := Nat.pos_of_ne_zero fun h => hw (UInt32.toNat_inj.1 h)
        obtain ⟨hbelow, hover⟩ := @digitBits_spec 32 w hwpos w.toNat_lt
        rw [if_neg (by simpa using hw)]
        dsimp only
        rw [List.length_reverse, pow_add]
        constructor
        · calc vliNat ws + 2 ^ (32 * ws.length) * w.toNat
              < 2 ^ (32 * ws.length) * (w.toNat + 1) := by
                rw [Nat.mul_succ]
                omega
            _ ≤ 2 ^ (32 * ws.length) * 2 ^ digitBits 32 w := Nat.mul_le_mul_left _ hbelow
        · calc 2 ^ (32 * ws.length) * 2 ^ digitBits 32 w
              ≤ 2 ^ (32 * ws.length) * (2 * w.toNat) := Nat.mul_le_mul_left _ hover
            _ ≤ 2 * (vliNat ws + 2 ^ (32 * ws.length) * w.toNat) := by
                rw [Nat.mul_left_comm]
                omega

theorem digitBits_le (rounds : ℕ) (digit : UInt32) : digitBits rounds digit ≤ rounds := by
  induction rounds generalizing digit with
  | zero => exact le_rfl
  | succ rounds ih =>
      rw [digitBits]
      split_ifs
      · exact Nat.zero_le _
      · exact Nat.succ_le_succ (ih _)

theorem vliNumBits_le (ws : List UInt32) : vliNumBits ws ≤ 32 * ws.length := by
  have hlength := (List.dropWhile_suffix (l := ws.reverse) (· == 0)).length_le
  rw [List.length_reverse] at hlength
  unfold vliNumBits
  generalize ws.reverse.dropWhile (· == 0) = kept at *
  cases kept with
  | nil => exact Nat.zero_le _
  | cons digit rest =>
      have hdigit := digitBits_le 32 digit
      rw [List.length_cons] at hlength
      dsimp only
      omega

/-! ## Shifts -/

theorem vliOrTop_spec {bit : UInt32} {c : ℕ} (hbit : bit.toNat = 2 ^ 31 * c)
    (hlen : ws.length = n + 1) (hlt : vliNat ws < 2 ^ (32 * n + 31)) :
    (vliOrTop bit ws).length = n + 1 ∧
      vliNat (vliOrTop bit ws) = vliNat ws + 2 ^ (32 * n + 31) * c := by
  induction ws generalizing n with
  | nil => simp at hlen
  | cons w ws ih =>
      cases ws with
      | nil =>
          obtain rfl : n = 0 := by simpa using hlen.symm
          refine ⟨rfl, ?_⟩
          rw [vliNat_cons, vliNat_nil, Nat.mul_zero, Nat.add_zero] at hlt ⊢
          rw [vliOrTop, vliNat_cons, vliNat_nil, Nat.mul_zero, Nat.add_zero, UInt32.toNat_or, hbit,
            Nat.or_comm]
          exact (Nat.two_pow_add_eq_or_of_lt hlt _).symm.trans (Nat.add_comm _ _)
      | cons w' ws =>
          obtain ⟨n, rfl⟩ : ∃ k, n = k + 1 := ⟨ws.length, by simpa using hlen.symm⟩
          have hpow : 2 ^ (32 * (n + 1) + 31) = 2 ^ 32 * 2 ^ (32 * n + 31) := by
            rw [← pow_add]
            congr 1
            omega
          rw [vliNat_cons, hpow] at hlt
          obtain ⟨hlength, hvalue⟩ := ih (n := n) (by simpa using hlen) (by omega)
          rw [vliOrTop, List.length_cons, hlength, vliNat_cons, hvalue, hpow,
            vliNat_cons (w := w)]
          exact ⟨rfl, by ring⟩

/-- A word shifted left, and what has left it. -/
theorem shiftLeft_split {s : ℕ} (hpos : 0 < s) (hs : s < 32) (w : UInt32) :
    (w <<< UInt32.ofNat s).toNat = w.toNat * 2 ^ s % 2 ^ 32 ∧
      (w >>> (32 - UInt32.ofNat s)).toNat = w.toNat * 2 ^ s / 2 ^ 32 := by
  have hnat : (UInt32.ofNat s).toNat = s := by
    rw [UInt32.toNat_ofNat']
    omega
  have hrest : (32 - UInt32.ofNat s).toNat = 32 - s := by
    rw [UInt32.toNat_sub, hnat]
    have hwidth : (32 : UInt32).toNat = 32 := rfl
    omega
  constructor
  · rw [UInt32.toNat_shiftLeft, hnat, Nat.mod_eq_of_lt hs, Nat.shiftLeft_eq]
  · have hpow : (2 : ℕ) ^ 32 = 2 ^ s * 2 ^ (32 - s) := by
      rw [← pow_add]
      congr 1
      omega
    rw [UInt32.toNat_shiftRight, hrest, Nat.mod_eq_of_lt (by omega), Nat.shiftRight_eq_div_pow,
      hpow, Nat.mul_comm w.toNat, Nat.mul_div_mul_left _ _ (Nat.two_pow_pos s)]

theorem shiftLeftFrom_spec {s : ℕ} (hpos : 0 < s) (hs : s < 32) {carry : UInt32}
    (hcarry : carry.toNat < 2 ^ s) :
    (shiftLeftFrom (UInt32.ofNat s) carry ws).length = ws.length ∧
      vliNat (shiftLeftFrom (UInt32.ofNat s) carry ws) =
        (vliNat ws * 2 ^ s + carry.toNat) % 2 ^ (32 * ws.length) := by
  induction ws generalizing carry with
  | nil => exact ⟨rfl, (Nat.mod_one _).symm⟩
  | cons w ws ih =>
      obtain ⟨hkept, hleft⟩ := shiftLeft_split hpos hs w
      have hw := w.toNat_lt
      have hpow : (2 : ℕ) ^ 32 = 2 ^ (32 - s) * 2 ^ s := by
        rw [← pow_add]
        congr 1
        omega
      have hout : w.toNat * 2 ^ s / 2 ^ 32 < 2 ^ s := by
        rw [Nat.div_lt_iff_lt_mul (by decide), Nat.mul_comm]
        exact Nat.mul_lt_mul_of_pos_left hw (Nat.two_pow_pos s)
      obtain ⟨hlength, hvalue⟩ :=
        @ih (w >>> (32 - UInt32.ofNat s)) (by rw [hleft]; exact hout)
      have hhead : ((w <<< UInt32.ofNat s) ||| carry).toNat =
          (w.toNat * 2 ^ s + carry.toNat) % 2 ^ 32 ∧
          (w.toNat * 2 ^ s + carry.toNat) / 2 ^ 32 = w.toNat * 2 ^ s / 2 ^ 32 := by
        have hkeptDvd : w.toNat * 2 ^ s % 2 ^ 32 = 2 ^ s * (w.toNat % 2 ^ (32 - s)) := by
          rw [hpow, Nat.mul_mod_mul_right, Nat.mul_comm]
        have hroom : w.toNat % 2 ^ (32 - s) + 1 ≤ 2 ^ (32 - s) :=
          Nat.mod_lt _ (Nat.two_pow_pos _)
        have hfits : 2 ^ s * (w.toNat % 2 ^ (32 - s)) + carry.toNat < 2 ^ 32 := by
          calc 2 ^ s * (w.toNat % 2 ^ (32 - s)) + carry.toNat
              < 2 ^ s * (w.toNat % 2 ^ (32 - s) + 1) := by
                rw [Nat.mul_succ]
                omega
            _ ≤ 2 ^ s * 2 ^ (32 - s) := Nat.mul_le_mul_left _ hroom
            _ = 2 ^ 32 := by rw [hpow, Nat.mul_comm]
        rw [UInt32.toNat_or, hkept, hkeptDvd]
        rw [← Nat.two_pow_add_eq_or_of_lt hcarry]
        rw [← hkeptDvd] at hfits ⊢
        omega
      rw [shiftLeftFrom, List.length_cons, hlength, List.length_cons, vliNat_cons, hvalue, hhead.1,
        hleft, Nat.mul_succ, Nat.add_comm _ 32, pow_add, Nat.mod_mul, vliNat_cons]
      refine ⟨rfl, ?_⟩
      have hsplit : (w.toNat + 2 ^ 32 * vliNat ws) * 2 ^ s + carry.toNat =
          w.toNat * 2 ^ s + carry.toNat + 2 ^ 32 * (vliNat ws * 2 ^ s) := by ring
      rw [hsplit, Nat.add_mul_mod_self_left, Nat.add_mul_div_left _ _ (by decide), hhead.2,
        Nat.add_comm (vliNat ws * 2 ^ s)]

/-! ## Remainders -/

theorem headD_shift (ws : List UInt32) :
    ((ws.getD 0 0) <<< 31 : UInt32).toNat = 2 ^ 31 * (vliNat ws % 2) := by
  have hmod : vliNat ws % 2 = (ws.getD 0 0).toNat % 2 := by
    cases ws with
    | nil => rfl
    | cons w ws =>
        rw [vliNat_cons, List.getD_cons_zero]
        omega
  have hw := (ws.getD 0 0).toNat_lt
  have hbits : (31 : UInt32).toNat % 32 = 31 := rfl
  rw [hmod, UInt32.toNat_shiftLeft, hbits, Nat.shiftLeft_eq]
  omega

theorem halveMultiple_spec {mm : List UInt32} (hlen : mm.length = 2 * (n + 1)) :
    (halveMultiple mm (n + 1)).length = 2 * (n + 1) ∧
      vliNat (halveMultiple mm (n + 1)) = vliNat mm / 2 := by
  have htake : (mm.take (n + 1)).length = n + 1 := by
    rw [List.length_take, hlen]
    omega
  have hdrop : (mm.drop (n + 1)).length = n + 1 := by
    rw [List.length_drop, hlen]
    omega
  have hget : mm.getD (n + 1) 0 = (mm.drop (n + 1)).getD 0 0 := by
    simp [List.getD_eq_getElem?_getD]
  have hpow : 2 ^ (32 * (n + 1)) = 2 * 2 ^ (32 * n + 31) := by
    rw [← pow_succ']
    congr 1
  have hlow := vliNat_lt (mm.take (n + 1))
  rw [htake, hpow] at hlow
  obtain ⟨hlength, hvalue⟩ := vliOrTop_spec (headD_shift (mm.drop (n + 1)))
    ((length_vliRshift1 _).trans htake)
    (by rw [vliNat_vliRshift1]; omega)
  have hsplit : vliNat mm = vliNat (mm.take (n + 1)) +
      2 * 2 ^ (32 * n + 31) * vliNat (mm.drop (n + 1)) := by
    rw [← hpow]
    conv_lhs => rw [← List.take_append_drop (n + 1) mm, vliNat_append, htake]
  unfold halveMultiple
  rw [hget, List.length_append, hlength, length_vliRshift1, hdrop, vliNat_append, hlength, hvalue,
    vliNat_vliRshift1, vliNat_vliRshift1, hsplit, hpow]
  refine ⟨by omega, ?_⟩
  have hparts : vliNat (mm.drop (n + 1)) =
      2 * (vliNat (mm.drop (n + 1)) / 2) + vliNat (mm.drop (n + 1)) % 2 :=
    (Nat.div_add_mod _ 2).symm
  generalize vliNat (mm.drop (n + 1)) / 2 = q at *
  generalize vliNat (mm.drop (n + 1)) % 2 = r at *
  rw [hparts]
  have hhalf : vliNat (mm.take (n + 1)) + 2 * 2 ^ (32 * n + 31) * (2 * q + r) =
      vliNat (mm.take (n + 1)) + 2 * (2 ^ (32 * n + 31) * (2 * q + r)) := by ring
  rw [hhalf, Nat.add_mul_div_left _ _ (by decide)]
  ring

theorem modMultiple_spec (hlen : mod.length = n + 1) (htop : 2 ^ (32 * n) ≤ vliNat mod) :
    ∃ shift, 64 * (n + 1) - vliNumBits mod = shift ∧
      (modMultiple mod shift).length = 2 * (n + 1) ∧
      vliNat (modMultiple mod shift) = vliNat mod * 2 ^ shift ∧
      2 ^ (64 * (n + 1)) ≤ vliNat mod * 2 ^ (shift + 1) := by
  have hpos : 0 < vliNat mod := lt_of_lt_of_le (Nat.two_pow_pos _) htop
  obtain ⟨hbelow, hover⟩ := vliNumBits_spec hpos
  have hlt := vliNat_lt mod
  rw [hlen] at hlt
  have hlow : 32 * n < vliNumBits mod :=
    (Nat.pow_lt_pow_iff_right (by decide)).1 (lt_of_le_of_lt htop hbelow)
  have hhigh : vliNumBits mod ≤ 32 * (n + 1) := by
    have hbits : 2 ^ vliNumBits mod < 2 ^ (32 * (n + 1) + 1) := by
      rw [pow_succ]
      omega
    have hlt := (Nat.pow_lt_pow_iff_right (by decide)).1 hbits
    omega
  obtain ⟨s, hs⟩ : ∃ s, vliNumBits mod + s = 32 * (n + 1) := ⟨_, Nat.add_sub_of_le hhigh⟩
  have hdiv : (32 * (n + 1) + s) / 32 = n + 1 := by omega
  have hmod : (32 * (n + 1) + s) % 32 = s := by omega
  refine ⟨32 * (n + 1) + s, by omega, ?_⟩
  have hmultiple : (modMultiple mod (32 * (n + 1) + s)).length = 2 * (n + 1) ∧
      vliNat (modMultiple mod (32 * (n + 1) + s)) = vliNat mod * 2 ^ (32 * (n + 1) + s) := by
    unfold modMultiple
    rw [hdiv, hmod, List.length_append, List.length_replicate, vliNat_append,
      List.length_replicate, vliNat_replicate_zero, Nat.zero_add, pow_add, Nat.mul_left_comm]
    split_ifs with hspos
    · obtain ⟨hlength, hvalue⟩ := @shiftLeftFrom_spec mod s hspos (by omega) 0 (Nat.two_pow_pos s)
      have hfits : vliNat mod * 2 ^ s < 2 ^ (32 * (n + 1)) := by
        rw [← hs, pow_add]
        exact Nat.mul_lt_mul_of_pos_right hbelow (Nat.two_pow_pos s)
      have hzero : (0 : UInt32).toNat = 0 := rfl
      rw [hlength, hvalue, hlen, hzero, Nat.add_zero (_ * _), Nat.mod_eq_of_lt hfits]
      exact ⟨by omega, rfl⟩
    · obtain rfl : s = 0 := by omega
      rw [hlen, pow_zero, Nat.mul_one]
      exact ⟨by omega, rfl⟩
  refine ⟨hmultiple.1, hmultiple.2, ?_⟩
  calc 2 ^ (64 * (n + 1)) = 2 ^ vliNumBits mod * 2 ^ (32 * (n + 1) + s) := by
        rw [← pow_add]
        congr 1
        omega
    _ ≤ 2 * vliNat mod * 2 ^ (32 * (n + 1) + s) := Nat.mul_le_mul_right _ hover
    _ = vliNat mod * 2 ^ (32 * (n + 1) + s + 1) := by
        rw [pow_succ]
        ring

/-- Each round keeps the remainder and halves the bound. -/
theorem mmodRounds_spec {m rounds : ℕ} {mm v : List UInt32} (hmm : mm.length = 2 * (n + 1))
    (hv : v.length = 2 * (n + 1)) (hmultiple : ∀ r, rounds = r + 1 → vliNat mm = m * 2 ^ r)
    (hbound : vliNat v < m * 2 ^ rounds) :
    (mmodRounds (n + 1) rounds mm v).length = 2 * (n + 1) ∧
      vliNat (mmodRounds (n + 1) rounds mm v) = vliNat v % m := by
  induction rounds generalizing mm v with
  | zero =>
      rw [pow_zero, Nat.mul_one] at hbound
      exact ⟨hv, (Nat.mod_eq_of_lt hbound).symm⟩
  | succ rounds ih =>
      have hvalue := hmultiple rounds rfl
      obtain ⟨hlength, hhalf⟩ := halveMultiple_spec hmm
      obtain ⟨hlengthSub, hsub, hborrow⟩ := vliSub_spec (hv.trans hmm.symm)
      have hlt := vliNat_lt (vliSub v mm).1
      rw [hlengthSub] at hlt
      have hnext : ∀ r, rounds = r + 1 → vliNat (halveMultiple mm (n + 1)) = m * 2 ^ r := by
        rintro r rfl
        rw [hhalf, hvalue, pow_succ, ← Nat.mul_assoc, Nat.mul_div_cancel _ (by decide)]
      rw [pow_succ, ← Nat.mul_assoc, ← hvalue] at hbound
      rw [mmodRounds]
      by_cases hkeep : (vliSub v mm).2 = 0
      · have hnat : (vliSub v mm).2.toNat = 0 := by rw [hkeep]; rfl
        rw [hnat, Nat.mul_zero, Nat.add_zero] at hsub
        simp only [hkeep, ne_eq, not_true_eq_false, if_false]
        have hrest := ih (v := (vliSub v mm).1) hlength (hlengthSub.trans hv) hnext
          (by rw [← hvalue]; omega)
        rw [← hsub, hvalue, Nat.add_mul_mod_self_left]
        exact hrest
      · have hnat : (vliSub v mm).2.toNat = 1 := by
          have hne : (vliSub v mm).2.toNat ≠ 0 := fun h => hkeep (UInt32.toNat_inj.1 h)
          omega
        rw [hnat, Nat.mul_one] at hsub
        simp only [ne_eq, hkeep, not_false_eq_true, if_true]
        exact ih hlength hv hnext (by rw [← hvalue]; omega)

/-- The remainder of a product, for a modulus whose highest word is not zero. -/
theorem vliMmod_spec {product : List UInt32} (hproduct : product.length = 2 * (n + 1))
    (hlen : mod.length = n + 1) (htop : 2 ^ (32 * n) ≤ vliNat mod) :
    (vliMmod product mod (n + 1)).length = n + 1 ∧
      vliNat (vliMmod product mod (n + 1)) = vliNat product % vliNat mod := by
  obtain ⟨shift, hshift, hlength, hvalue, hbound⟩ := modMultiple_spec hlen htop
  have hlt := vliNat_lt product
  rw [hproduct, ← Nat.mul_assoc] at hlt
  obtain ⟨hrounds, hrest⟩ := mmodRounds_spec hlength
    hproduct (fun r hr => by rw [hvalue, Nat.succ.inj hr]) (lt_of_lt_of_le hlt hbound)
  have hpos : 0 < vliNat mod := lt_of_lt_of_le (Nat.two_pow_pos _) htop
  have hmod := vliNat_lt mod
  rw [hlen] at hmod
  simp only [vliMmod, hshift]
  generalize mmodRounds (n + 1) (shift + 1) (modMultiple mod shift) product = ws at *
  have htake : (ws.take (n + 1)).length = n + 1 := by
    rw [List.length_take, hrounds]
    omega
  refine ⟨htake, ?_⟩
  have hsplit : vliNat (ws.take (n + 1)) + 2 ^ (32 * (n + 1)) * vliNat (ws.drop (n + 1)) =
      vliNat product % vliNat mod := by
    rw [← hrest]
    conv_rhs => rw [← List.take_append_drop (n + 1) ws, vliNat_append, htake]
  have hsmall := Nat.mod_lt (vliNat product) hpos
  have hzero : vliNat (ws.drop (n + 1)) = 0 := by
    by_contra hne
    have hge := Nat.le_mul_of_pos_right (2 ^ (32 * (n + 1))) (Nat.pos_of_ne_zero hne)
    omega
  rw [← hsplit, hzero, Nat.mul_zero]
  rfl

theorem vliModMult_spec (hleft : left.length = n + 1) (hright : right.length = n + 1)
    (hlen : mod.length = n + 1) (htop : 2 ^ (32 * n) ≤ vliNat mod) (hn : n < 2 ^ 30) :
    (vliModMult left right mod (n + 1)).length = n + 1 ∧
      vliNat (vliModMult left right mod (n + 1)) = vliNat left * vliNat right % vliNat mod := by
  obtain ⟨hlength, hvalue⟩ := vliMult_spec hleft hright hn
  rw [← hvalue]
  exact vliMmod_spec hlength hlen htop

/-! ## Inverses -/

theorem vliEven_iff : vliEven ws = true ↔ vliNat ws % 2 = 0 := by
  have hand : (ws.getD 0 0 &&& 1).toNat = vliNat ws % 2 := by
    rw [UInt32.toNat_and]
    have hone : (1 : UInt32).toNat = 1 := rfl
    rw [hone, Nat.and_one_is_mod]
    cases ws with
    | nil => rfl
    | cons w ws =>
        rw [vliNat_cons, List.getD_cons_zero]
        omega
  rw [vliEven, beq_iff_eq, ← UInt32.toNat_inj, hand]
  rfl

theorem vliModInvUpdate_spec {uv : List UInt32} (huv : uv.length = n + 1)
    (hlen : mod.length = n + 1) (hodd : vliNat mod % 2 = 1) (hlt : vliNat uv < vliNat mod) :
    (vliModInvUpdate uv mod).length = n + 1 ∧ vliNat (vliModInvUpdate uv mod) < vliNat mod ∧
      (2 * vliNat (vliModInvUpdate uv mod) = vliNat uv ∨
        2 * vliNat (vliModInvUpdate uv mod) = vliNat uv + vliNat mod) := by
  obtain ⟨hlength, hsum, hcarry⟩ := vliAdd_spec (huv.trans hlen.symm)
  have hpow : 2 ^ (32 * uv.length) = 2 * 2 ^ (32 * n + 31) := by
    rw [huv, ← pow_succ']
    congr 1
  have hbelow := vliNat_lt (vliAdd uv mod).1
  rw [hlength, hpow] at hbelow
  rw [hpow] at hsum
  unfold vliModInvUpdate
  by_cases heven : vliEven uv = true
  · have hzero := vliEven_iff.1 heven
    rw [if_pos heven, length_vliRshift1, vliNat_vliRshift1]
    exact ⟨huv, by omega, .inl (by omega)⟩
  · have hne : vliNat uv % 2 = 1 := by
      have hnot := mt vliEven_iff.2 heven
      omega
    rw [if_neg heven]
    by_cases hnone : (vliAdd uv mod).2 = 0
    · have hnat : (vliAdd uv mod).2.toNat = 0 := by rw [hnone]; rfl
      rw [hnat, Nat.mul_zero, Nat.add_zero] at hsum
      simp only [hnone, ne_eq, not_true_eq_false, if_false]
      rw [length_vliRshift1, hlength, huv, vliNat_vliRshift1, hsum]
      exact ⟨rfl, by omega, .inr (by omega)⟩
    · have hnat : (vliAdd uv mod).2.toNat = 1 := by
        have hne : (vliAdd uv mod).2.toNat ≠ 0 := fun h => hnone (UInt32.toNat_inj.1 h)
        omega
      rw [hnat, Nat.mul_one] at hsum
      simp only [ne_eq, hnone, not_false_eq_true, if_true]
      have hbit : (0x80000000 : UInt32).toNat = 2 ^ 31 * 1 := rfl
      obtain ⟨hlengthTop, hvalue⟩ := vliOrTop_spec hbit
        ((length_vliRshift1 _).trans (hlength.trans huv)) (by rw [vliNat_vliRshift1]; omega)
      rw [hlengthTop, hvalue, vliNat_vliRshift1]
      exact ⟨rfl, by omega, .inr (by omega)⟩

theorem modInvSub_spec {u v : List UInt32} (hu : u.length = mod.length)
    (hv : v.length = mod.length) (hul : vliNat u < vliNat mod) (hvl : vliNat v < vliNat mod) :
    (modInvSub u v mod).length = mod.length ∧ vliNat (modInvSub u v mod) < vliNat mod ∧
      (vliNat (modInvSub u v mod) + vliNat v = vliNat u ∨
        vliNat (modInvSub u v mod) + vliNat v = vliNat u + vliNat mod) := by
  unfold modInvSub
  rw [vliCmpUnsafe_eq (hu.trans hv.symm)]
  by_cases hless : vliNat u < vliNat v
  · rw [if_pos (Nat.compare_eq_lt.2 hless)]
    obtain ⟨hlength, hsum, hcarry⟩ := vliAdd_spec hu
    obtain ⟨hlengthSub, hsub, hborrow⟩ := vliSub_spec
      (hlength.trans (hu.trans hv.symm))
    have hmod := vliNat_lt mod
    have hlt := vliNat_lt (vliSub (vliAdd u mod).1 v).1
    rw [hlengthSub, hlength, hu] at hlt
    rw [hu] at hsum
    rw [hlength, hu] at hsub
    generalize 2 ^ (32 * mod.length) = P at *
    refine ⟨by rw [hlengthSub, hlength, hu], ?_⟩
    rcases Nat.le_one_iff_eq_zero_or_eq_one.1 hcarry with h | h <;>
      rcases Nat.le_one_iff_eq_zero_or_eq_one.1 hborrow with h' | h' <;>
        rw [h] at hsum <;> rw [h'] at hsub <;> omega
  · rw [if_neg (by rw [Nat.compare_eq_lt]; exact hless)]
    obtain ⟨hvalue, -⟩ := vliSub_exact (hu.trans hv.symm) (Nat.le_of_not_lt hless)
    have hlength := (vliSub_spec (hu.trans hv.symm)).1
    exact ⟨hlength.trans hu, by omega, .inl (by omega)⟩

/-- `a` and `b` are multiples of the input, and have no common divisor. -/
structure ModInv.Keeps (input m n : ℕ) (s : ModInv) : Prop where
  a_length : s.a.length = n + 1
  b_length : s.b.length = n + 1
  u_length : s.u.length = n + 1
  v_length : s.v.length = n + 1
  a_pos : 0 < vliNat s.a
  b_pos : 0 < vliNat s.b
  coprime : (vliNat s.a).Coprime (vliNat s.b)
  u_lt : vliNat s.u < m
  v_lt : vliNat s.v < m
  a_eq : (input : ZMod m) * vliNat s.u = vliNat s.a
  b_eq : (input : ZMod m) * vliNat s.v = vliNat s.b

theorem eq_of_double {m : ℕ} (hodd : m % 2 = 1) {x y : ZMod m} (h : 2 * x = 2 * y) : x = y := by
  have hunit : IsUnit ((2 : ℕ) : ZMod m) := by
    rw [ZMod.isUnit_iff_coprime]
    exact Nat.coprime_two_left.2 (Nat.odd_iff.2 hodd)
  exact hunit.mul_left_cancel (by simpa using h)

/-- A number and its multiplier are halved together. -/
theorem mul_half {m input u u' a a' : ℕ} (hodd : m % 2 = 1) (h : (input : ZMod m) * u = a)
    (hu : 2 * u' = u ∨ 2 * u' = u + m) (ha : 2 * a' = a) : (input : ZMod m) * u' = a' := by
  have hdouble : ((2 * u' : ℕ) : ZMod m) = u := by
    rcases hu with hu | hu <;> rw [hu]
    rw [Nat.cast_add, ZMod.natCast_self, add_zero]
  refine eq_of_double hodd ?_
  calc (2 : ZMod m) * (input * u') = input * ((2 * u' : ℕ) : ZMod m) := by
        push_cast
        ring
    _ = ((2 * a' : ℕ) : ZMod m) := by rw [hdouble, h, ha]
    _ = 2 * (a' : ZMod m) := by push_cast; rfl

theorem mul_sub_eq {m input u v w a b : ℕ} (hu : (input : ZMod m) * u = a)
    (hv : (input : ZMod m) * v = b) (hw : w + v = u ∨ w + v = u + m) (hle : b ≤ a) :
    (input : ZMod m) * w = ((a - b : ℕ) : ZMod m) := by
  have hsum : ((w + v : ℕ) : ZMod m) = u := by
    rcases hw with hw | hw <;> rw [hw]
    rw [Nat.cast_add, ZMod.natCast_self, add_zero]
  rw [Nat.cast_sub hle, ← hu, ← hv, ← hsum]
  push_cast
  ring

theorem ModInv.Keeps.round {input : ℕ} {s : ModInv} (hlen : mod.length = n + 1)
    (hodd : vliNat mod % 2 = 1) (h : s.Keeps input (vliNat mod) n)
    (hne : vliNat s.a ≠ vliNat s.b) :
    (modInvRound mod s).Keeps input (vliNat mod) n ∧
      2 * (vliNat (modInvRound mod s).a * vliNat (modInvRound mod s).b) ≤
        vliNat s.a * vliNat s.b := by
  have hapos := h.a_pos
  have hbpos := h.b_pos
  have hab := h.a_length.trans h.b_length.symm
  unfold modInvRound
  by_cases haEven : vliEven s.a = true
  · have haz := vliEven_iff.1 haEven
    have hhalf : 2 * (vliNat s.a / 2) = vliNat s.a := by omega
    obtain ⟨hulen, hult, hu⟩ := vliModInvUpdate_spec h.u_length hlen hodd h.u_lt
    rw [if_pos haEven]
    dsimp only
    rw [vliNat_vliRshift1]
    refine ⟨{ h with
      a_length := by rw [length_vliRshift1, h.a_length]
      u_length := hulen
      a_pos := by rw [vliNat_vliRshift1]; omega
      coprime := ?_
      u_lt := hult
      a_eq := ?_ }, ?_⟩
    · rw [vliNat_vliRshift1]
      exact h.coprime.coprime_dvd_left ⟨2, by omega⟩
    · rw [vliNat_vliRshift1]
      exact mul_half hodd h.a_eq hu hhalf
    · rw [← Nat.mul_assoc, hhalf]
  by_cases hbEven : vliEven s.b = true
  · have hbz := vliEven_iff.1 hbEven
    have hhalf : 2 * (vliNat s.b / 2) = vliNat s.b := by omega
    obtain ⟨hvlen, hvlt, hv⟩ := vliModInvUpdate_spec h.v_length hlen hodd h.v_lt
    rw [if_neg haEven, if_pos hbEven]
    dsimp only
    rw [vliNat_vliRshift1]
    refine ⟨{ h with
      b_length := by rw [length_vliRshift1, h.b_length]
      v_length := hvlen
      b_pos := by rw [vliNat_vliRshift1]; omega
      coprime := ?_
      v_lt := hvlt
      b_eq := ?_ }, ?_⟩
    · rw [vliNat_vliRshift1]
      exact h.coprime.coprime_dvd_right ⟨2, by omega⟩
    · rw [vliNat_vliRshift1]
      exact mul_half hodd h.b_eq hv hhalf
    · rw [Nat.mul_left_comm, hhalf]
  have haOdd := mt vliEven_iff.2 haEven
  have hbOdd := mt vliEven_iff.2 hbEven
  rw [if_neg haEven, if_neg hbEven, vliCmpUnsafe_eq hab]
  by_cases hgt : vliNat s.b < vliNat s.a
  · obtain ⟨hdiff, -⟩ := vliSub_exact hab hgt.le
    have hhalf : 2 * ((vliNat s.a - vliNat s.b) / 2) = vliNat s.a - vliNat s.b := by omega
    obtain ⟨hwlen, hwlt, hw⟩ := modInvSub_spec (h.u_length.trans hlen.symm)
      (h.v_length.trans hlen.symm) h.u_lt h.v_lt
    obtain ⟨hulen, hult, hu⟩ := vliModInvUpdate_spec (hwlen.trans hlen) hlen hodd hwlt
    rw [if_pos (Nat.compare_eq_gt.2 hgt)]
    dsimp only
    rw [vliNat_vliRshift1, hdiff]
    refine ⟨{ h with
      a_length := by rw [length_vliRshift1, (vliSub_spec hab).1, h.a_length]
      u_length := hulen
      a_pos := by rw [vliNat_vliRshift1, hdiff]; omega
      coprime := ?_
      u_lt := hult
      a_eq := ?_ }, ?_⟩
    · rw [vliNat_vliRshift1, hdiff]
      have hsub : (vliNat s.a - vliNat s.b).Coprime (vliNat s.b) :=
        (Nat.coprime_sub_self_left hgt.le).2 h.coprime
      exact hsub.coprime_dvd_left ⟨2, by omega⟩
    · rw [vliNat_vliRshift1, hdiff]
      exact mul_half hodd (mul_sub_eq h.a_eq h.b_eq hw hgt.le) hu hhalf
    · rw [← Nat.mul_assoc, hhalf]
      exact Nat.mul_le_mul_right _ (Nat.sub_le _ _)
  · have hlt : vliNat s.a < vliNat s.b := by omega
    obtain ⟨hdiff, -⟩ := vliSub_exact hab.symm hlt.le
    have hhalf : 2 * ((vliNat s.b - vliNat s.a) / 2) = vliNat s.b - vliNat s.a := by omega
    obtain ⟨hwlen, hwlt, hw⟩ := modInvSub_spec (h.v_length.trans hlen.symm)
      (h.u_length.trans hlen.symm) h.v_lt h.u_lt
    obtain ⟨hvlen, hvlt, hv⟩ := vliModInvUpdate_spec (hwlen.trans hlen) hlen hodd hwlt
    rw [if_neg (by rw [Nat.compare_eq_gt]; exact hgt)]
    dsimp only
    rw [vliNat_vliRshift1, hdiff]
    refine ⟨{ h with
      b_length := by rw [length_vliRshift1, (vliSub_spec hab.symm).1, h.b_length]
      v_length := hvlen
      b_pos := by rw [vliNat_vliRshift1, hdiff]; omega
      coprime := ?_
      v_lt := hvlt
      b_eq := ?_ }, ?_⟩
    · rw [vliNat_vliRshift1, hdiff]
      have hsub : (vliNat s.b - vliNat s.a).Coprime (vliNat s.a) :=
        (Nat.coprime_sub_self_left hlt.le).2 h.coprime.symm
      exact (hsub.coprime_dvd_left ⟨2, by omega⟩).symm
    · rw [vliNat_vliRshift1, hdiff]
      exact mul_half hodd (mul_sub_eq h.b_eq h.a_eq hw hlt.le) hv hhalf
    · rw [Nat.mul_left_comm, hhalf]
      exact Nat.mul_le_mul_left _ (Nat.sub_le _ _)

theorem ModInv.Keeps.loop {input rounds : ℕ} {s : ModInv} (hlen : mod.length = n + 1)
    (hodd : vliNat mod % 2 = 1) (h : s.Keeps input (vliNat mod) n)
    (hrounds : vliNat s.a * vliNat s.b < 2 ^ rounds) :
    (modInvLoop mod rounds s).Keeps input (vliNat mod) n ∧
      vliNat (modInvLoop mod rounds s).a = vliNat (modInvLoop mod rounds s).b := by
  induction rounds generalizing s with
  | zero =>
      have hpos := Nat.mul_pos h.a_pos h.b_pos
      omega
  | succ rounds ih =>
      rw [modInvLoop, vliCmpUnsafe_eq (h.a_length.trans h.b_length.symm)]
      by_cases heq : vliNat s.a = vliNat s.b
      · rw [if_pos (Nat.compare_eq_eq.2 heq)]
        exact ⟨h, heq⟩
      · rw [if_neg (by rw [Nat.compare_eq_eq]; exact heq)]
        obtain ⟨hround, hhalf⟩ := h.round hlen hodd heq
        exact ih hround (by rw [pow_succ] at hrounds; omega)

/-- The loop has ended, with equal numbers, before the rounds run out. -/
theorem modInvLoop_end {input : List UInt32} (hinput : input.length = n + 1)
    (hlen : mod.length = n + 1) (hodd : vliNat mod % 2 = 1) (hone : 1 < vliNat mod)
    (hcoprime : (vliNat input).Coprime (vliNat mod)) {s : ModInv}
    (hs : modInvLoop mod (64 * (n + 1)) ⟨input, mod, 1 :: List.replicate n 0,
      List.replicate (n + 1) 0⟩ = s) :
    s.Keeps (vliNat input) (vliNat mod) n ∧ vliNat s.a = vliNat s.b := by
  have hpos : 0 < vliNat input := by
    by_contra hzero
    rw [Nat.eq_zero_of_not_pos hzero, Nat.coprime_zero_left] at hcoprime
    omega
  have hu : vliNat (1 :: List.replicate n 0) = 1 := by
    rw [vliNat_cons, vliNat_replicate_zero]
    rfl
  have hstart : (⟨input, mod, 1 :: List.replicate n 0, List.replicate (n + 1) 0⟩ :
      ModInv).Keeps (vliNat input) (vliNat mod) n :=
    { a_length := hinput
      b_length := hlen
      u_length := by simp
      v_length := by simp
      a_pos := hpos
      b_pos := Nat.zero_lt_of_lt hone
      coprime := hcoprime
      u_lt := by rw [hu]; exact hone
      v_lt := by rw [vliNat_replicate_zero]; omega
      a_eq := by rw [hu, Nat.cast_one, mul_one]
      b_eq := by rw [vliNat_replicate_zero, Nat.cast_zero, mul_zero, ZMod.natCast_self] }
  have hrounds : vliNat input * vliNat mod < 2 ^ (64 * (n + 1)) := by
    have hleft := vliNat_lt input
    have hright := vliNat_lt mod
    rw [hinput] at hleft
    rw [hlen] at hright
    calc vliNat input * vliNat mod < 2 ^ (32 * (n + 1)) * 2 ^ (32 * (n + 1)) :=
          Nat.mul_lt_mul'' hleft hright
      _ = 2 ^ (64 * (n + 1)) := by
        rw [← pow_add]
        congr 1
        omega
  rw [← hs]
  exact hstart.loop hlen hodd hrounds

theorem vliModInv_eq {input : List UInt32} (hone : 1 < vliNat mod)
    (hcoprime : (vliNat input).Coprime (vliNat mod)) :
    vliModInv input mod (n + 1) = (modInvLoop mod (64 * (n + 1))
      ⟨input, mod, 1 :: List.replicate n 0, List.replicate (n + 1) 0⟩).u := by
  have hnonzero : vliIsZero input ≠ true := fun h => by
    rw [vliIsZero_iff] at h
    rw [h, Nat.coprime_zero_left] at hcoprime
    omega
  rw [vliModInv, if_neg hnonzero, Nat.add_sub_cancel]

/-- The inverse is found before the rounds run out. -/
theorem vliModInv_spec {input : List UInt32} (hinput : input.length = n + 1)
    (hlen : mod.length = n + 1) (hodd : vliNat mod % 2 = 1) (hone : 1 < vliNat mod)
    (hcoprime : (vliNat input).Coprime (vliNat mod)) :
    (vliModInv input mod (n + 1)).length = n + 1 ∧
      vliNat (vliModInv input mod (n + 1)) < vliNat mod ∧
      (vliNat input : ZMod (vliNat mod)) * vliNat (vliModInv input mod (n + 1)) = 1 := by
  obtain ⟨hend, heq⟩ := modInvLoop_end hinput hlen hodd hone hcoprime rfl
  rw [vliModInv_eq hone hcoprime]
  refine ⟨hend.u_length, hend.u_lt, ?_⟩
  have hgcd := hend.coprime
  rw [← heq, Nat.coprime_self] at hgcd
  rw [hend.a_eq, hgcd, Nat.cast_one]

theorem vliModInv_zero {input : List UInt32} (hzero : vliNat input = 0) :
    vliModInv input mod n = List.replicate n 0 :=
  if_pos (vliIsZero_iff.2 hzero)

/-- The loop of the inversion has ended with its two numbers equal, so the cut at `64 * (n + 1)`
rounds takes nothing from it, and what has been inverted is one again after the
multiplication. -/
theorem vliModMult_vliModInv {input : List UInt32} (hinput : input.length = n + 1)
    (hlen : mod.length = n + 1) (hn : n < 2 ^ 30) (htop : 2 ^ (32 * n) ≤ vliNat mod)
    (hodd : vliNat mod % 2 = 1) (hone : 1 < vliNat mod)
    (hcoprime : (vliNat input).Coprime (vliNat mod)) :
    (∃ s, modInvLoop mod (64 * (n + 1)) ⟨input, mod, 1 :: List.replicate n 0,
        List.replicate (n + 1) 0⟩ = s ∧ s.a = s.b ∧ vliModInv input mod (n + 1) = s.u) ∧
      vliModMult input (vliModInv input mod (n + 1)) mod (n + 1) = 1 :: List.replicate n 0 := by
  constructor
  · obtain ⟨hend, heq⟩ := modInvLoop_end hinput hlen hodd hone hcoprime rfl
    exact ⟨_, rfl, vliNat_inj (hend.a_length.trans hend.b_length.symm) heq,
      vliModInv_eq hone hcoprime⟩
  · obtain ⟨hlength, -, hmul⟩ := vliModInv_spec hinput hlen hodd hone hcoprime
    obtain ⟨hlength', hvalue⟩ := vliModMult_spec hinput hlength hlen htop hn
    refine vliNat_inj (hlength'.trans (by simp)) ?_
    have hcongr : vliNat input * vliNat (vliModInv input mod (n + 1)) ≡ 1 [MOD vliNat mod] := by
      rw [← ZMod.natCast_eq_natCast_iff, Nat.cast_mul, hmul, Nat.cast_one]
    rw [hvalue, hcongr, Nat.mod_eq_of_lt hone, vliNat_cons, vliNat_replicate_zero]
    rfl

theorem vliModMult_vliModInv_seven :
    (∃ s, modInvLoop [7, 1] 128 ⟨[3, 0], [7, 1], [1, 0], [0, 0]⟩ = s ∧ s.a = s.b ∧
        vliModInv [3, 0] [7, 1] 2 = s.u) ∧
      vliModMult [3, 0] (vliModInv [3, 0] [7, 1] 2) [7, 1] 2 = [1, 0] :=
  vliModMult_vliModInv (n := 1) rfl rfl (by decide) (by decide) (by decide) (by decide)
    (by decide)

end

end UnsoloKey.UEcc
