import UnsoloKey.Der
import UnsoloKey.Responses
import Mathlib.Tactic

/-!
# The DER form of a signature

A verifier reads two positive integers out of the DER sequence and refuses
encodings which are not the shortest.  The device strips the 32 big-endian bytes of
each number before it writes them, and the verifier gets the two numbers back.
-/

namespace UnsoloKey

/-! ## Writing -/

theorem beNat_derStrip (bs : List UInt8) : beNat (derStrip bs) = beNat bs := by
  fun_induction derStrip bs with
  | case1 b c rest hzero ih =>
      rw [ih, hzero.1, beNat_zero_cons]
  | case2 b c rest hkeep => rfl
  | case3 bs hshort => rfl

theorem derStrip_ne_nil {bs : List UInt8} (h : bs ≠ []) : derStrip bs ≠ [] := by
  fun_induction derStrip bs with
  | case1 b c rest hzero ih => exact ih (by simp)
  | case2 b c rest hkeep => simp
  | case3 bs hshort => exact h

theorem derStrip_front {bs : List UInt8} {b c : UInt8} {rest : List UInt8}
    (h : derStrip bs = b :: c :: rest) : b = 0 → 0x80 ≤ c := by
  fun_induction derStrip bs with
  | case1 b' c' rest' hzero ih => exact ih h
  | case2 b' c' rest' hkeep =>
      injection h with hb h
      injection h with hc _
      subst hb hc
      intro hzero
      by_contra hlt
      exact hkeep ⟨hzero, (and_top_eq_zero_iff c').2 (UInt8.not_le.1 hlt)⟩
  | case3 bs hshort => exact absurd h (hshort b c rest)

theorem derInteger_content {raw : List UInt8} (hraw : raw ≠ []) :
    ∃ content, derInteger raw = 0x02 :: UInt8.ofNat content.length :: content ∧
      minimalPositive content = true ∧ beNat content = beNat raw ∧
      content.length ≤ raw.length + 1 := by
  have hle := derStrip_length_le raw
  have hvalue := beNat_derStrip raw
  have hne := derStrip_ne_nil hraw
  unfold derInteger
  dsimp only
  generalize hstrip : derStrip raw = r at hle hvalue hne
  cases r with
  | nil => exact absurd rfl hne
  | cons b rest =>
      rw [List.headD_cons]
      by_cases htop : b &&& 0x80 ≠ 0
      · have hsign : 0x80 ≤ b := by
          rw [Ne, and_top_eq_zero_iff] at htop
          exact UInt8.not_lt.1 htop
        refine ⟨0x00 :: b :: rest, ?_, ?_, (beNat_zero_cons _).trans hvalue,
          Nat.succ_le_succ hle⟩
        · rw [if_pos htop]
          rfl
        · simp [minimalPositive, hsign]
      · have hsign : b < 0x80 := by
          rw [not_not] at htop
          exact (and_top_eq_zero_iff b).1 htop
        refine ⟨b :: rest, ?_, ?_, hvalue, by omega⟩
        · rw [if_neg htop]
          rfl
        · cases rest with
          | nil => simp [minimalPositive, hsign]
          | cons c rest =>
              have hfront := derStrip_front hstrip
              simp [minimalPositive, hsign, imp_iff_not_or.1 hfront]

theorem decodeDerInteger_append {raw : List UInt8} (hraw : raw.length = 32)
    (rest : List UInt8) :
    decodeDerInteger (derInteger raw ++ rest) = some (beNat raw, rest) := by
  have hne : raw ≠ [] := by
    rintro rfl
    cases hraw
  obtain ⟨content, hder, hminimal, hvalue, hlength⟩ := derInteger_content hne
  have hnat : (UInt8.ofNat content.length).toNat = content.length := by
    rw [UInt8.toNat_ofNat']
    omega
  rw [hder, List.cons_append, List.cons_append, decodeDerInteger, hnat,
    List.take_left', List.drop_left', List.length_append, if_pos, hvalue]
  · exact ⟨by omega, by omega, hminimal⟩
  · rfl
  · rfl

/-- The verifier reads the numbers `r` and `s` which the signature holds. -/
theorem decodeDerSignature_ecdsaSigToDer (sigRaw : Bytes 64) :
    decodeDerSignature (ecdsaSigToDer sigRaw) =
      some (beNat (sigRaw.val.take 32), beNat (sigRaw.val.drop 32)) := by
  have hr : (sigRaw.val.take 32).length = 32 := by simp
  have hs : (sigRaw.val.drop 32).length = 32 := by simp
  have hrle := derInteger_length_le (sigRaw.val.take 32)
  have hsle := derInteger_length_le (sigRaw.val.drop 32)
  rw [hr] at hrle
  rw [hs] at hsle
  have hsecond := decodeDerInteger_append hs []
  rw [List.append_nil] at hsecond
  unfold ecdsaSigToDer
  dsimp only
  have hnat : (UInt8.ofNat ((derInteger (sigRaw.val.take 32)).length +
      (derInteger (sigRaw.val.drop 32)).length)).toNat =
      (derInteger (sigRaw.val.take 32)).length +
        (derInteger (sigRaw.val.drop 32)).length := by
    rw [UInt8.toNat_ofNat']
    omega
  rw [decodeDerSignature, hnat, List.length_append, if_pos ⟨by omega, rfl⟩,
    decodeDerInteger_append hr]
  dsimp only
  rw [hsecond]

end UnsoloKey
