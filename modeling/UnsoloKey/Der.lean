import UnsoloKey.BigEndian
import Mathlib.Tactic

/-!
# The distinguished encoding of integers and of pairs of integers

An integer is written in two's complement in as few octets as possible, and the length
in front of it in as few octets as possible; so there is one encoding for each value.
-/

namespace UnsoloKey

theorem and_top_eq_zero_iff (b : UInt8) : b &&& 0x80 = 0 ↔ b < 0x80 := by
  have hall : ∀ n : Fin 256,
      UInt8.ofNat n.val &&& 0x80 = 0 ↔ UInt8.ofNat n.val < 0x80 := by
    decide +kernel
  have hb := hall ⟨b.toNat, b.toNat_lt⟩
  rwa [UInt8.ofNat_toNat] at hb

/-! ## Encodings -/

/-- The integer which the octets are the two's complement of. -/
def twosComplement (bs : List UInt8) : ℤ :=
  if bs.headD 0 < 0x80 then beNat bs else beNat bs - 256 ^ bs.length

/-- Octets of which the first nine bits are neither all zero nor all one. -/
def MinimalContent : List UInt8 → Prop
  | [] => False
  | [_] => True
  | b :: c :: _ => ¬ (b = 0x00 ∧ c < 0x80) ∧ ¬ (b = 0xFF ∧ 0x80 ≤ c)

/-- The length octets: the length itself below 128, otherwise the number of octets which
follow and the length in them. -/
def derLength (n : ℕ) : List UInt8 :=
  if n < 0x80 then [UInt8.ofNat n]
  else
    let octets := (Nat.digits 256 n).reverse.map UInt8.ofNat
    UInt8.ofNat (0x80 + octets.length) :: octets

/-- `INTEGER z`. -/
def EncodesInteger (z : ℤ) (bs : List UInt8) : Prop :=
  ∃ content, MinimalContent content ∧ twosComplement content = z ∧
    bs = 0x02 :: (derLength content.length ++ content)

/-- `SEQUENCE { INTEGER r, INTEGER s }`. -/
def EncodesPair (r s : ℤ) (bs : List UInt8) : Prop :=
  ∃ x y, EncodesInteger r x ∧ EncodesInteger s y ∧
    bs = 0x30 :: (derLength (x ++ y).length ++ (x ++ y))

/-! ## One encoding for each integer -/

section

variable {xs ys rest : List UInt8} {b c : UInt8}

theorem lt_top_iff : b < 0x80 ↔ b.toNat < 128 := UInt8.lt_iff_toNat_lt

theorem twosComplement_nonneg (h : b < 0x80) :
    twosComplement (b :: rest) = (beNat (b :: rest) : ℤ) := by
  rw [twosComplement, List.headD_cons, if_pos h]

theorem twosComplement_neg (h : ¬ b < 0x80) :
    twosComplement (b :: rest) = (beNat (b :: rest) : ℤ) - 256 ^ (rest.length + 1) := by
  rw [twosComplement, List.headD_cons, if_neg h, List.length_cons]

/-- What fits the octets. -/
theorem twosComplement_near (b : UInt8) (rest : List UInt8) :
    -(128 * 256 ^ rest.length) ≤ twosComplement (b :: rest) ∧
      twosComplement (b :: rest) < 128 * 256 ^ rest.length := by
  have hrest := beNat_lt rest
  have hb := b.toNat_lt
  have hcons : beNat (b :: rest) = b.toNat * 256 ^ rest.length + beNat rest := beNat_cons
  by_cases htop : b < 0x80
  · have hmul := Nat.mul_le_mul_right (256 ^ rest.length)
      (show b.toNat ≤ 127 by have hlt := lt_top_iff.1 htop; omega)
    rw [twosComplement_nonneg htop, hcons]
    push_cast
    zify at hmul hrest
    have hpower : (0 : ℤ) ≤ 256 ^ rest.length := by positivity
    have hvalue : (0 : ℤ) ≤ b.toNat * 256 ^ rest.length + beNat rest := by positivity
    constructor
    · linarith
    · linarith
  · have hle := Nat.mul_le_mul_right (256 ^ rest.length)
      (show b.toNat ≤ 255 by omega)
    have hge := Nat.mul_le_mul_right (256 ^ rest.length)
      (show 128 ≤ b.toNat by have hnot := mt lt_top_iff.2 htop; omega)
    rw [twosComplement_neg htop, hcons, pow_succ]
    push_cast
    zify at hle hge hrest
    constructor
    · linarith
    · linarith

/-- What would not have fitted one octet less. -/
theorem twosComplement_far (h : MinimalContent (b :: c :: rest)) :
    128 * 256 ^ rest.length ≤ twosComplement (b :: c :: rest) ∨
      twosComplement (b :: c :: rest) < -(128 * 256 ^ rest.length) := by
  have hrest := beNat_lt rest
  have hb := b.toNat_lt
  have hc := c.toNat_lt
  have hcons : beNat (b :: c :: rest) =
      (b.toNat * 256 + c.toNat) * 256 ^ rest.length + beNat rest := by
    rw [beNat_cons, beNat_cons, List.length_cons, pow_succ]
    ring
  obtain ⟨hzero, hones⟩ := h
  by_cases htop : b < 0x80
  · have hfar : 128 ≤ b.toNat * 256 + c.toNat := by
      by_contra hlt
      exact hzero ⟨UInt8.toNat_inj.1 (show b.toNat = 0 by omega), lt_top_iff.2 (by omega)⟩
    have hmul := Nat.mul_le_mul_right (256 ^ rest.length) hfar
    rw [twosComplement_nonneg htop, hcons]
    push_cast
    zify at hmul
    exact .inl (by linarith)
  · have hfar : b.toNat * 256 + c.toNat ≤ 65407 := by
      by_contra hlt
      exact hones ⟨UInt8.toNat_inj.1 (show b.toNat = 255 by omega),
        UInt8.not_lt.1 fun hlow => absurd (lt_top_iff.1 hlow) (by omega)⟩
    have hmul := Nat.mul_le_mul_right (256 ^ rest.length) hfar
    rw [twosComplement_neg htop, hcons, List.length_cons, pow_succ, pow_succ]
    push_cast
    zify at hmul hrest
    exact .inr (by linarith)

theorem MinimalContent.length_le (hx : MinimalContent xs) (hy : MinimalContent ys)
    (h : twosComplement xs = twosComplement ys) : ys.length ≤ xs.length := by
  cases xs with
  | nil => exact absurd hx id
  | cons b xs =>
      by_contra hlt
      match ys, hy with
      | [], hy => exact absurd hy id
      | [_], _ =>
          simp only [List.length_cons, List.length_nil] at hlt
          omega
      | b' :: c' :: rest, hy =>
          have hnear := twosComplement_near b xs
          have hfar := twosComplement_far hy
          simp only [List.length_cons] at hlt
          have hpow : (256 : ℤ) ^ xs.length ≤ 256 ^ rest.length :=
            pow_le_pow_right₀ (by norm_num) (by omega)
          rw [h] at hnear
          rcases hfar with hfar | hfar
          · linarith
          · linarith

theorem twosComplement_inj (hx : MinimalContent xs) (hy : MinimalContent ys)
    (h : twosComplement xs = twosComplement ys) : xs = ys := by
  have hlen : xs.length = ys.length := le_antisymm (hy.length_le hx h.symm) (hx.length_le hy h)
  refine beNat_inj hlen ?_
  cases xs with
  | nil => exact absurd hx id
  | cons b xs =>
      cases ys with
      | nil => exact absurd hy id
      | cons c ys =>
          have hxlt := beNat_lt (b :: xs)
          have hylt := beNat_lt (c :: ys)
          simp only [List.length_cons, Nat.add_right_cancel_iff] at hlen hxlt hylt
          rw [← hlen] at hylt
          zify at hxlt hylt ⊢
          by_cases hb : b < 0x80
          · by_cases hc : c < 0x80
            · rwa [twosComplement_nonneg hb, twosComplement_nonneg hc] at h
            · rw [twosComplement_nonneg hb, twosComplement_neg hc, ← hlen] at h
              omega
          · by_cases hc : c < 0x80
            · rw [twosComplement_neg hb, twosComplement_nonneg hc] at h
              omega
            · rw [twosComplement_neg hb, twosComplement_neg hc, ← hlen] at h
              omega

theorem EncodesInteger.unique {z : ℤ} (hx : EncodesInteger z xs) (hy : EncodesInteger z ys) :
    xs = ys := by
  obtain ⟨content, hminimal, hvalue, rfl⟩ := hx
  obtain ⟨content', hminimal', hvalue', rfl⟩ := hy
  rw [twosComplement_inj hminimal hminimal' (hvalue.trans hvalue'.symm)]

theorem EncodesPair.unique {r s : ℤ} (hx : EncodesPair r s xs) (hy : EncodesPair r s ys) :
    xs = ys := by
  obtain ⟨r₁, s₁, hr₁, hs₁, rfl⟩ := hx
  obtain ⟨r₂, s₂, hr₂, hs₂, rfl⟩ := hy
  rw [hr₁.unique hr₂, hs₁.unique hs₂]

end

/-! ## Strict decoding -/

/-- The content bytes of a positive integer: no sign bit, and no zero byte which the
next one makes superfluous. -/
def minimalPositive : List UInt8 → Bool
  | [] => false
  | [b] => b < 0x80
  | b :: c :: _ => b < 0x80 ∧ (b = 0 → 0x80 ≤ c)

def decodeDerInteger : List UInt8 → Option (ℕ × List UInt8)
  | 0x02 :: n :: rest =>
      let content := rest.take n.toNat
      if n.toNat < 0x80 ∧ n.toNat ≤ rest.length ∧ minimalPositive content = true then
        some (beNat content, rest.drop n.toNat)
      else none
  | _ => none

def decodeDerSignature : List UInt8 → Option (ℕ × ℕ)
  | 0x30 :: n :: rest =>
      if n.toNat < 0x80 ∧ n.toNat = rest.length then
        match decodeDerInteger rest with
        | some (r, rest) =>
            match decodeDerInteger rest with
            | some (s, []) => some (r, s)
            | _ => none
        | none => none
      else none
  | _ => none

section

variable {bs rest : List UInt8} {n r s : ℕ}

theorem minimalContent_of_positive (h : minimalPositive bs = true) :
    MinimalContent bs ∧ twosComplement bs = beNat bs := by
  match bs, h with
  | [b], h => exact ⟨trivial, twosComplement_nonneg (of_decide_eq_true h)⟩
  | b :: c :: rest, h =>
      obtain ⟨htop, hzero⟩ := of_decide_eq_true h
      refine ⟨⟨fun hlow => ?_, fun hones => ?_⟩, twosComplement_nonneg htop⟩
      · exact absurd (lt_top_iff.1 hlow.2)
          (Nat.not_lt.2 (UInt8.le_iff_toNat_le.1 (hzero hlow.1)))
      · rw [hones.1] at htop
        exact absurd htop (by decide)

theorem derLength_short (h : n < 0x80) : derLength n = [UInt8.ofNat n] := if_pos h

/-- What the strict decoder accepts is the encoding of the number which it reads. -/
theorem decodeDerInteger_sound (h : decodeDerInteger bs = some (n, rest)) :
    ∃ x, EncodesInteger n x ∧ bs = x ++ rest := by
  unfold decodeDerInteger at h
  split at h
  case h_1 len tail =>
    dsimp only at h
    split_ifs at h with hok
    obtain ⟨hshort, hle, hminimal⟩ := hok
    rw [Option.some.injEq, Prod.mk.injEq] at h
    obtain ⟨rfl, rfl⟩ := h
    obtain ⟨hcontent, hvalue⟩ := minimalContent_of_positive hminimal
    refine ⟨0x02 :: len :: tail.take len.toNat, ⟨_, hcontent, hvalue, ?_⟩, ?_⟩
    · rw [List.length_take_of_le hle, derLength_short hshort, UInt8.ofNat_toNat]
      rfl
    · simp
  case h_2 => cases h

theorem decodeDerSignature_sound (h : decodeDerSignature bs = some (r, s)) :
    EncodesPair r s bs := by
  unfold decodeDerSignature at h
  split at h
  case h_1 len tail =>
    split_ifs at h with hok
    obtain ⟨hshort, hlen⟩ := hok
    split at h
    case h_1 r' rest hfirst =>
      split at h
      case h_1 s' hsecond =>
        obtain ⟨rfl, rfl⟩ := Prod.mk.inj (Option.some.inj h)
        obtain ⟨x, hx, rfl⟩ := decodeDerInteger_sound hfirst
        obtain ⟨y, hy, rfl⟩ := decodeDerInteger_sound hsecond
        refine ⟨x, y, hx, hy, ?_⟩
        rw [List.append_nil] at hlen ⊢
        rw [← hlen, derLength_short hshort, UInt8.ofNat_toNat]
        rfl
      case h_2 => cases h
    case h_2 => cases h
  case h_2 => cases h

end

end UnsoloKey
