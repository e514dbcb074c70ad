import Mathlib.Tactic

/-!
# Prefixes of UTF-8 texts

A text which is cut after some bytes is valid UTF-8 exactly when no character is cut in
two, that is when the first byte which is left out begins a character.
-/

namespace UnsoloKey

def ValidUtf8 (bs : List UInt8) : Prop := bs.toByteArray.IsValidUTF8

instance (bs : List UInt8) : Decidable (ValidUtf8 bs) :=
  inferInstanceAs (Decidable bs.toByteArray.IsValidUTF8)

/-- No character of the text goes across position `n`. -/
def CharBoundary (bs : List UInt8) (n : ℕ) : Prop :=
  ∀ h : n < bs.length, (bs[n]).IsUTF8FirstByte

variable {bs : List UInt8} {n : ℕ}

theorem extract_toByteArray (bs : List UInt8) (n : ℕ) :
    bs.toByteArray.extract 0 n = (bs.take n).toByteArray := by
  rw [ByteArray.ext_iff, ← Array.toList_inj]
  simp

/-- The cut text is valid exactly when no character is cut in two. -/
theorem validUtf8_take_iff (hvalid : ValidUtf8 bs) (hn : n ≤ bs.length) :
    ValidUtf8 (bs.take n) ↔ CharBoundary bs n := by
  let s : String := ⟨bs.toByteArray, hvalid⟩
  have hsize : s.rawEndPos.byteIdx = bs.length := List.size_toByteArray
  have hle : (⟨n⟩ : String.Pos.Raw) ≤ s.rawEndPos := by
    rw [String.Pos.Raw.le_iff, hsize]
    exact hn
  have hprefix : (⟨n⟩ : String.Pos.Raw).IsValid s ↔ ValidUtf8 (bs.take n) := by
    rw [String.Pos.Raw.isValid_iff_isValidUTF8_extract_zero, and_iff_right hle, ValidUtf8,
      ← extract_toByteArray]
  rw [← hprefix, String.Pos.Raw.isValid_iff_isUTF8FirstByte]
  constructor
  · rintro (heq | ⟨hlt, hfirst⟩) h
    · have hidx : n = bs.length := by rw [← hsize, ← heq]
      omega
    · simpa [String.getUTF8Byte, s] using hfirst
  · intro hboundary
    rcases hn.lt_or_eq with h | h
    · have hlt : (⟨n⟩ : String.Pos.Raw) < s.rawEndPos := by
        rw [String.Pos.Raw.lt_iff, hsize]
        exact h
      exact .inr ⟨hlt, by simpa [String.getUTF8Byte, s] using hboundary h⟩
    · exact .inl (String.Pos.Raw.ext (h.trans hsize.symm))

theorem charBoundary_of_length_le (hn : bs.length ≤ n) : CharBoundary bs n :=
  fun h => absurd h (Nat.not_lt.2 hn)

end UnsoloKey
