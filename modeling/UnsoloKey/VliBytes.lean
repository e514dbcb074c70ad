import UnsoloKey.BigEndian
import UnsoloKey.Vli
import Mathlib.Tactic

/-!
# Words and big-endian bytes

`uECC_vli_nativeToBytes` and `uECC_vli_bytesToNative`.  The bytes of the interface are
big-endian, the words little-endian; the loops run over the bytes.
-/

namespace UnsoloKey.UEcc

/-- `uECC_vli_nativeToBytes` -/
def nativeToBytes (numBytes : ℕ) (native : List UInt32) : List UInt8 :=
  (List.range numBytes).map fun i =>
    let b := numBytes - 1 - i
    (native.getD (b / 4) 0 >>> UInt32.ofNat (8 * (b % 4))).toUInt8

/-- One round of the loop of `uECC_vli_bytesToNative`. -/
def orByte (bytes : List UInt8) (native : List UInt32) (i : ℕ) : List UInt32 :=
  let b := bytes.length - 1 - i
  native.modify (b / 4) (· ||| ((bytes.getD i 0).toUInt32 <<< UInt32.ofNat (8 * (b % 4))))

/-- `uECC_vli_bytesToNative` -/
def bytesToNative (bytes : List UInt8) : List UInt32 :=
  (List.range bytes.length).foldl (orByte bytes) (List.replicate ((bytes.length + 3) / 4) 0)

section

variable {ws : List UInt32} {bytes : List UInt8} {k b : ℕ}

theorem toNat_getD (ws : List UInt32) (j : ℕ) :
    (ws.getD j 0).toNat = vliNat ws / 2 ^ (32 * j) % 2 ^ 32 := by
  induction j generalizing ws with
  | zero =>
      cases ws with
      | nil => rfl
      | cons w ws =>
          have hw := w.toNat_lt
          rw [List.getD_cons_zero, vliNat_cons]
          omega
  | succ j ih =>
      cases ws with
      | nil =>
          rw [List.getD_nil, vliNat_nil, Nat.zero_div]
          rfl
      | cons w ws =>
          have hw := w.toNat_lt
          have hdiv : vliNat (w :: ws) / 2 ^ (32 * (j + 1)) = vliNat ws / 2 ^ (32 * j) := by
            have hpow : 2 ^ (32 * (j + 1)) = 2 ^ 32 * 2 ^ (32 * j) := by
              rw [← pow_add]
              congr 1
              omega
            have hhead : (w.toNat + 2 ^ 32 * vliNat ws) / 2 ^ 32 = vliNat ws := by omega
            rw [vliNat_cons, hpow, ← Nat.div_div_eq_div_mul, hhead]
          rw [List.getD_cons_succ, ih, hdiv]

/-- A place in the words and in the bytes. -/
theorem pow_place (b : ℕ) : 256 ^ b = 2 ^ (32 * (b / 4)) * 2 ^ (8 * (b % 4)) := by
  have hb : 8 * b = 32 * (b / 4) + 8 * (b % 4) := by omega
  rw [← pow_add, ← hb, pow_mul]
  rfl

theorem toNat_shift (b : ℕ) : (UInt32.ofNat (8 * (b % 4))).toNat % 32 = 8 * (b % 4) := by
  rw [UInt32.toNat_ofNat']
  omega

/-- The byte at a place of the number. -/
theorem getD_shiftRight (ws : List UInt32) (b : ℕ) :
    (ws.getD (b / 4) 0 >>> UInt32.ofNat (8 * (b % 4))).toUInt8 =
      UInt8.ofNat (vliNat ws / 256 ^ b) := by
  have hpow : 2 ^ 32 = 2 ^ (8 * (b % 4)) * (2 ^ 8 * 2 ^ (24 - 8 * (b % 4))) := by
    rw [← pow_add, ← pow_add]
    congr 1
    omega
  rw [← UInt8.toNat_inj, UInt32.toNat_toUInt8, UInt32.toNat_shiftRight, toNat_shift,
    Nat.shiftRight_eq_div_pow, toNat_getD, UInt8.toNat_ofNat', pow_place,
    ← Nat.div_div_eq_div_mul, hpow, Nat.mod_mul_right_div_self, Nat.mod_mul_right_mod]

theorem nativeToBytes_eq (k : ℕ) (ws : List UInt32) :
    nativeToBytes k ws = beBytes k (vliNat ws) := by
  rw [beBytes_eq_map]
  exact List.map_congr_left fun i _ => getD_shiftRight ws (k - 1 - i)

theorem length_orByte (bytes : List UInt8) (ws : List UInt32) (i : ℕ) :
    (orByte bytes ws i).length = ws.length := List.length_modify _ _ _

theorem vliNat_modify (f : UInt32 → UInt32) {j : ℕ} (hj : j < ws.length) :
    vliNat (ws.modify j f) + 2 ^ (32 * j) * (ws.getD j 0).toNat =
      vliNat ws + 2 ^ (32 * j) * (f (ws.getD j 0)).toNat := by
  induction ws generalizing j with
  | nil => simp at hj
  | cons w ws ih =>
      cases j with
      | zero =>
          rw [List.modify_zero_cons, vliNat_cons, vliNat_cons, List.getD_cons_zero]
          omega
      | succ j =>
          have hpow : 2 ^ (32 * (j + 1)) = 2 ^ 32 * 2 ^ (32 * j) := by
            rw [← pow_add]
            congr 1
            omega
          have hrest := ih (Nat.lt_of_succ_lt_succ hj)
          rw [List.modify_succ_cons, vliNat_cons, vliNat_cons, List.getD_cons_succ, hpow,
            Nat.mul_assoc, Nat.mul_assoc]
          omega

/-- A byte is set where the number has only zeros at its place and below. -/
theorem vliNat_orByte {i : ℕ} (hb : (bytes.length - 1 - i) / 4 < ws.length)
    (hzero : vliNat ws % 256 ^ (bytes.length - 1 - i + 1) = 0) :
    vliNat (orByte bytes ws i) =
      vliNat ws + (bytes.getD i 0).toNat * 256 ^ (bytes.length - 1 - i) := by
  unfold orByte
  generalize bytes.length - 1 - i = b at *
  generalize bytes.getD i 0 = v at *
  have hv := v.toNat_lt
  have hmodify := vliNat_modify (· ||| (v.toUInt32 <<< UInt32.ofNat (8 * (b % 4)))) hb
  obtain ⟨q, hq⟩ := Nat.dvd_of_mod_eq_zero hzero
  obtain ⟨r, hr⟩ : ∃ r, (ws.getD (b / 4) 0).toNat = 2 ^ (8 * (b % 4) + 8) * r := by
    have hpow : 2 ^ 32 = 2 ^ (8 * (b % 4) + 8) * 2 ^ (24 - 8 * (b % 4)) := by
      rw [← pow_add]
      congr 1
      omega
    have hplace : 256 ^ (b + 1) = 2 ^ (32 * (b / 4)) * 2 ^ (8 * (b % 4) + 8) := by
      rw [pow_succ, pow_place, pow_add, Nat.mul_assoc, show (2 : ℕ) ^ 8 = 256 from rfl]
    refine ⟨q % 2 ^ (24 - 8 * (b % 4)), ?_⟩
    rw [toNat_getD, hq, hplace, Nat.mul_assoc, Nat.mul_div_cancel_left _ (Nat.two_pow_pos _), hpow,
      Nat.mul_mod_mul_left]
  have hshift : (v.toUInt32 <<< UInt32.ofNat (8 * (b % 4))).toNat = v.toNat * 2 ^ (8 * (b % 4)) := by
    have hlt : v.toNat * 2 ^ (8 * (b % 4)) < 2 ^ 32 := by
      calc v.toNat * 2 ^ (8 * (b % 4)) < 2 ^ 8 * 2 ^ (8 * (b % 4)) :=
            Nat.mul_lt_mul_of_pos_right hv (Nat.two_pow_pos _)
        _ ≤ 2 ^ 8 * 2 ^ 24 := Nat.mul_le_mul_left _ (Nat.pow_le_pow_right (by decide) (by omega))
    rw [UInt32.toNat_shiftLeft, toNat_shift, UInt8.toNat_toUInt32, Nat.shiftLeft_eq,
      Nat.mod_eq_of_lt hlt]
  have hor : (ws.getD (b / 4) 0 ||| (v.toUInt32 <<< UInt32.ofNat (8 * (b % 4)))).toNat =
      (ws.getD (b / 4) 0).toNat + v.toNat * 2 ^ (8 * (b % 4)) := by
    have hlt : v.toNat * 2 ^ (8 * (b % 4)) < 2 ^ (8 * (b % 4) + 8) := by
      rw [pow_add, Nat.mul_comm (2 ^ _)]
      exact Nat.mul_lt_mul_of_pos_right hv (Nat.two_pow_pos _)
    rw [UInt32.toNat_or, hshift, hr, Nat.two_pow_add_eq_or_of_lt hlt]
  rw [hor] at hmodify
  rw [pow_place]
  dsimp only
  linarith

theorem orBytes_spec (bytes : List UInt8) {i : ℕ} (hi : i ≤ bytes.length) :
    ((List.range i).foldl (orByte bytes) (List.replicate ((bytes.length + 3) / 4) 0)).length =
        (bytes.length + 3) / 4 ∧
      vliNat ((List.range i).foldl (orByte bytes)
          (List.replicate ((bytes.length + 3) / 4) 0)) =
        beNat (bytes.take i) * 256 ^ (bytes.length - i) := by
  induction i with
  | zero =>
      rw [List.range_zero, List.foldl_nil, vliNat_replicate_zero, List.take_zero]
      exact ⟨List.length_replicate, (Nat.zero_mul _).symm⟩
  | succ i ih =>
      obtain ⟨hlength, hvalue⟩ := ih (by omega)
      rw [List.range_succ, List.foldl_append, List.foldl_cons, List.foldl_nil]
      generalize (List.range i).foldl (orByte bytes) _ = ws at *
      have hplace : bytes.length - i = bytes.length - 1 - i + 1 := by omega
      rw [hplace] at hvalue
      have hnext : bytes.length - (i + 1) = bytes.length - 1 - i := by omega
      rw [length_orByte, vliNat_orByte (by omega) (by rw [hvalue, Nat.mul_mod_left]), hvalue,
        List.take_succ_eq_append_getElem (by omega), beNat_concat, hnext,
        List.getD_eq_getElem _ _ (by omega), pow_succ]
      exact ⟨hlength, by ring⟩

theorem bytesToNative_spec (bytes : List UInt8) :
    (bytesToNative bytes).length = (bytes.length + 3) / 4 ∧
      vliNat (bytesToNative bytes) = beNat bytes := by
  have h := orBytes_spec bytes le_rfl
  rwa [List.take_length, Nat.sub_self, pow_zero, Nat.mul_one] at h

/-- The two conversions undo each other. -/
theorem nativeBytes_roundTrip (bytes : List UInt8) (ws : List UInt32) :
    nativeToBytes bytes.length (bytesToNative bytes) = bytes ∧
      bytesToNative (nativeToBytes (4 * ws.length) ws) = ws := by
  constructor
  · rw [nativeToBytes_eq, (bytesToNative_spec bytes).2]
    refine beNat_inj (beBytes_length _ _) ?_
    rw [beNat_beBytes, Nat.mod_eq_of_lt (beNat_lt bytes)]
  · have hlt := vliNat_lt ws
    have hpow : 256 ^ (4 * ws.length) = 2 ^ (32 * ws.length) := by
      rw [show 256 = 2 ^ 8 from rfl, ← pow_mul]
      congr 1
      omega
    rw [nativeToBytes_eq]
    obtain ⟨hlength, hvalue⟩ := bytesToNative_spec (beBytes (4 * ws.length) (vliNat ws))
    rw [beBytes_length] at hlength
    rw [beNat_beBytes, hpow, Nat.mod_eq_of_lt hlt] at hvalue
    exact vliNat_inj (by omega) hvalue

end

end UnsoloKey.UEcc
