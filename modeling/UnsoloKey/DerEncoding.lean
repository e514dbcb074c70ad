import UnsoloKey.DerSignature
import UnsoloKey.ReaderRules
import Mathlib.Tactic

/-!
# ecdsa_sig_to_der in memory

The function strips and writes with two pointers and one running index.  Written out
like that it leaves in the buffer the bytes which `ecdsaSigToDer` lists, and these are
the one encoding of the two numbers.
-/

namespace UnsoloKey

open Rd

/-- The strip loop on the `len` bytes at `p`. -/
def derStripAt (p : ℕ) : ℕ → Rd (ℕ × ℕ)
  | len + 2 => do
      if (← byte p) ≠ 0 then return (p, len + 2)
      if (← byte (p + 1)) &&& 0x80 ≠ 0 then return (p, len + 2)
      derStripAt (p + 1) (len + 1)
  | len => return (p, len)

/-- `r_pad` and `s_pad`, from the byte at which the stripped component begins. -/
def derPad (b : UInt8) : ℕ := if b &&& 0x80 ≠ 0 then 1 else 0

/-- `ecdsa_sig_to_der`: the buffer afterwards and the returned index. -/
def ecdsaSigToDerAt (sigRaw : ℕ) (der : Mem) : Rd (Mem × ℕ) := do
  let (r, rLen) ← derStripAt sigRaw 32
  let rPad := derPad (← byte r)
  let (s, sLen) ← derStripAt (sigRaw + 32) 32
  let sPad := derPad (← byte s)
  let totalLen := 2 + rLen + rPad + 2 + sLen + sPad
  let der := der.write 0 [0x30]
  let der := der.write 1 [UInt8.ofNat totalLen]
  let der := der.write 2 [0x02]
  let der := der.write 3 [UInt8.ofNat (rLen + rPad)]
  let der := if rPad = 1 then der.write 4 [0x00] else der
  let idx := 4 + rPad
  let der := der.write idx (← bytes r rLen)
  let idx := idx + rLen
  let der := der.write idx [0x02]
  let der := der.write (idx + 1) [UInt8.ofNat (sLen + sPad)]
  let idx := idx + 2
  let der := if sPad = 1 then der.write idx [0x00] else der
  let idx := idx + sPad
  let der := der.write idx (← bytes s sLen)
  return (der, idx + sLen)

/-- The listed bytes have been written to the beginning of the buffer, and nothing else
has. -/
structure Written (der : Mem) (out : List UInt8) (der' : Mem) : Prop where
  bytes : der'.slice 0 out.length = out
  frame : ∀ a, out.length ≤ a → der' a = der a

section

variable {m der der' : Mem} {p len sigRaw : ℕ} {out bs : List UInt8} {b : UInt8}

namespace Written

theorem start : Written der [] der := ⟨rfl, fun _ _ => rfl⟩

theorem write (h : Written der out der') : Written der (out ++ bs) (der'.write out.length bs) := by
  constructor
  · rw [List.length_append, Mem.slice_write, h.bytes]
  · intro a ha
    rw [List.length_append] at ha
    rw [Mem.write, if_neg (by omega), h.frame a (by omega)]

theorem write_at {idx : ℕ} (h : Written der out der') (hidx : idx = out.length) :
    Written der (out ++ bs) (der'.write idx bs) := hidx ▸ h.write

theorem pad {idx n : ℕ} (h : Written der out der') (hidx : idx = out.length) :
    Written der (out ++ if n = 1 then [0x00] else [])
      (if n = 1 then der'.write idx [0x00] else der') := by
  by_cases hone : n = 1
  · rw [if_pos hone, if_pos hone]
    exact h.write_at hidx
  · rw [if_neg hone, if_neg hone, List.append_nil]
    exact h

end Written

/-! ## The strip loops -/

/-- The loop stays in its component and leaves the stripped bytes. -/
theorem derStripAt_meets (hlen : 0 < len) :
    (derStripAt p len).Meets m False (fun a => p ≤ a ∧ a < p + len) fun q =>
      m.slice q.1 q.2 = derStrip (m.slice p len) ∧ 0 < q.2 ∧ q.2 ≤ len ∧ p ≤ q.1 ∧
        q.1 + q.2 = p + len := by
  induction len using Nat.strong_induction_on generalizing p with
  | _ len ih =>
      match len, hlen with
      | 1, _ =>
          refine ⟨?_, by omega, le_rfl, le_rfl, rfl⟩
          rw [Mem.slice_succ]
          rfl
      | len + 2, _ =>
          have hslice : m.slice p (len + 2) = m p :: m (p + 1) :: m.slice (p + 2) len := by
            rw [Mem.slice_succ, Mem.slice_succ]
          have hkeep : ¬ (m p = 0 ∧ m (p + 1) &&& 0x80 = 0) →
              m.slice p (len + 2) = derStrip (m.slice p (len + 2)) := by
            intro hnot
            rw [hslice, derStrip, if_neg hnot]
          rw [derStripAt, meets_bind, meets_byte]
          refine ⟨⟨le_rfl, by omega⟩, ?_⟩
          by_cases hzero : m p = 0
          · rw [if_neg (not_not.2 hzero), meets_bind, meets_byte]
            refine ⟨⟨by omega, by omega⟩, ?_⟩
            by_cases htop : m (p + 1) &&& 0x80 = 0
            · rw [if_neg (not_not.2 htop)]
              refine (ih (len + 1) (by omega) (by omega)).mono (fun a ha => by omega) ?_
              rintro q ⟨hstrip, hpos, hle, hstart, hend⟩
              refine ⟨?_, hpos, by omega, by omega, by omega⟩
              rw [hstrip, hslice, derStrip, if_pos ⟨hzero, htop⟩, Mem.slice_succ]
            · rw [if_pos htop]
              exact ⟨hkeep fun h => htop h.2, by omega, le_rfl, le_rfl, rfl⟩
          · rw [if_pos hzero]
            exact ⟨hkeep fun h => hzero h.1, by omega, le_rfl, le_rfl, rfl⟩

/-! ## The whole function -/

/-- Tag, length, padding and content, where the length is that of padding and content. -/
theorem derInteger_eq {r n : ℕ} {raw : List UInt8} (hstrip : m.slice r n = derStrip raw)
    (hn : 0 < n) : derInteger raw =
      0x02 :: UInt8.ofNat (n + derPad (m r)) ::
        ((if derPad (m r) = 1 then [0x00] else []) ++ m.slice r n) := by
  have hhead : (m.slice r n).headD 0 = m r := by
    obtain ⟨n, rfl⟩ : ∃ k, n = k + 1 := ⟨n - 1, by omega⟩
    rw [Mem.slice_succ, List.headD_cons]
  unfold derInteger derPad
  dsimp only
  rw [← hstrip, hhead, Mem.slice_length]
  by_cases htop : m r &&& 0x80 ≠ 0
  · simp [htop]
  · simp [htop]

theorem padding_length (b : UInt8) :
    (if derPad b = 1 then [0x00] else [] : List UInt8).length = derPad b := by
  by_cases htop : b &&& 0x80 ≠ 0
  · simp [derPad, htop]
  · simp [derPad, htop]

theorem derInteger_length {r n : ℕ} {raw : List UInt8}
    (hstrip : m.slice r n = derStrip raw) (hn : 0 < n) :
    (derInteger raw).length = 2 + n + derPad (m r) := by
  rw [derInteger_eq hstrip hn]
  simp only [List.length_cons, List.length_append, padding_length, Mem.slice_length]
  omega

/-- The raw signature at an address. -/
def rawAt (m : Mem) (sigRaw : ℕ) : Bytes 64 := ⟨m.slice sigRaw 64, m.slice_length sigRaw 64⟩

theorem rawAt_components (m : Mem) (sigRaw : ℕ) : (rawAt m sigRaw).val.take 32 = m.slice sigRaw 32 ∧
    (rawAt m sigRaw).val.drop 32 = m.slice (sigRaw + 32) 32 := by
  have hsplit : (rawAt m sigRaw).val = m.slice sigRaw 32 ++ m.slice (sigRaw + 32) 32 :=
    Mem.slice_add m sigRaw 32 32
  rw [hsplit]
  exact ⟨List.take_left' (by simp), List.drop_left' (by simp)⟩

/-- The bytes in the order in which they are written. -/
theorem ecdsaSigToDer_eq {r rLen s sLen : ℕ}
    (hr : m.slice r rLen = derStrip (m.slice sigRaw 32)) (hrpos : 0 < rLen)
    (hs : m.slice s sLen = derStrip (m.slice (sigRaw + 32) 32)) (hspos : 0 < sLen) :
    ecdsaSigToDer (rawAt m sigRaw) =
      [0x30] ++ [UInt8.ofNat (2 + rLen + derPad (m r) + 2 + sLen + derPad (m s))] ++
        [0x02] ++ [UInt8.ofNat (rLen + derPad (m r))] ++
        (if derPad (m r) = 1 then [0x00] else []) ++ m.slice r rLen ++ [0x02] ++
        [UInt8.ofNat (sLen + derPad (m s))] ++
        (if derPad (m s) = 1 then [0x00] else []) ++ m.slice s sLen := by
  obtain ⟨htake, hdrop⟩ := rawAt_components m sigRaw
  have hrlen := derInteger_length hr hrpos
  have hslen := derInteger_length hs hspos
  have htotal : (derInteger (m.slice sigRaw 32)).length +
      (derInteger (m.slice (sigRaw + 32) 32)).length =
        2 + rLen + derPad (m r) + 2 + sLen + derPad (m s) := by
    omega
  unfold ecdsaSigToDer
  dsimp only
  rw [htake, hdrop, htotal, derInteger_eq hr hrpos, derInteger_eq hs hspos]
  simp only [List.cons_append, List.nil_append, List.append_assoc]

/-- The function reads the signature, fills the buffer up to the index which it returns,
and leaves the rest of the buffer alone. -/
theorem ecdsaSigToDerAt_meets (m der : Mem) (sigRaw : ℕ) :
    (ecdsaSigToDerAt sigRaw der).Meets m False (fun a => sigRaw ≤ a ∧ a < sigRaw + 64) fun q =>
      Written der (ecdsaSigToDer (rawAt m sigRaw)) q.1 ∧
        q.2 = (ecdsaSigToDer (rawAt m sigRaw)).length := by
  rw [ecdsaSigToDerAt, meets_bind]
  refine (derStripAt_meets (by omega)).mono (fun a ha => by omega) ?_
  rintro ⟨r, rLen⟩ ⟨hr, hrpos, hrle, hrstart, hrend⟩
  dsimp only at hr hrpos hrle hrstart hrend ⊢
  rw [meets_bind, meets_byte]
  refine ⟨⟨by omega, by omega⟩, ?_⟩
  rw [meets_bind]
  refine (derStripAt_meets (by omega)).mono (fun a ha => by omega) ?_
  rintro ⟨s, sLen⟩ ⟨hs, hspos, hsle, hsstart, hsend⟩
  dsimp only at hs hspos hsle hsstart hsend ⊢
  rw [meets_bind, meets_byte]
  refine ⟨⟨by omega, by omega⟩, ?_⟩
  rw [meets_bind, meets_bytes]
  refine ⟨fun a ha hlt => ⟨by omega, by omega⟩, ?_⟩
  rw [meets_bind, meets_bytes]
  refine ⟨fun a ha hlt => ⟨by omega, by omega⟩, ?_⟩
  rw [meets_pure]
  dsimp only
  have hrpad := padding_length (m r)
  have hspad := padding_length (m s)
  rw [ecdsaSigToDer_eq hr hrpos hs hspos]
  have hhead : Written der ([0x30] ++
      [UInt8.ofNat (2 + rLen + derPad (m r) + 2 + sLen + derPad (m s))] ++ [0x02] ++
      [UInt8.ofNat (rLen + derPad (m r))])
      ((((der.write 0 [0x30]).write 1
        [UInt8.ofNat (2 + rLen + derPad (m r) + 2 + sLen + derPad (m s))]).write 2
        [0x02]).write 3 [UInt8.ofNat (rLen + derPad (m r))]) :=
    (((Written.start.write_at rfl).write_at rfl).write_at rfl).write_at rfl
  constructor
  · refine ((((((hhead.pad rfl).write_at ?_).write_at ?_).write_at ?_).pad ?_).write_at ?_)
    all_goals simp only [List.length_append, List.length_singleton, Mem.slice_length, hrpad, hspad]
  · simp only [List.length_append, List.length_singleton, Mem.slice_length, hrpad, hspad]

end

/-- Whatever the signature, the function returns at most 72, has written that many bytes, and
these are the one encoding of the two numbers.  No loop leaves its component. -/
theorem ecdsaSigToDer_exact (m der : Mem) (sigRaw : ℕ) : ∃ der' n,
    (ecdsaSigToDerAt sigRaw der).run m = some (der', n) ∧ n ≤ 72 ∧
      (∀ a, n ≤ a → der' a = der a) ∧
      (∀ bs, EncodesPair (beNat (m.slice sigRaw 32)) (beNat (m.slice (sigRaw + 32) 32)) bs ↔
        bs = der'.slice 0 n) ∧
      decodeDerSignature (der'.slice 0 n) =
        some (beNat (m.slice sigRaw 32), beNat (m.slice (sigRaw + 32) 32)) ∧
      (∀ a ∈ (derStripAt sigRaw 32).reads m, sigRaw ≤ a ∧ a < sigRaw + 32) ∧
      (∀ a ∈ (derStripAt (sigRaw + 32) 32).reads m, sigRaw + 32 ≤ a ∧ a < sigRaw + 32 + 32) ∧
      ∀ a ∈ (ecdsaSigToDerAt sigRaw der).reads m, sigRaw ≤ a ∧ a < sigRaw + 64 := by
  obtain ⟨hreads, ⟨der', n⟩, hrun, hwritten, hn⟩ :=
    meets_total_iff.1 (ecdsaSigToDerAt_meets m der sigRaw)
  dsimp only at hwritten hn
  have hcomponent : ∀ p, ∀ a ∈ (derStripAt p 32).reads m, p ≤ a ∧ a < p + 32 := fun p =>
    (meets_total_iff.1 (derStripAt_meets (m := m) (by omega))).1
  have hdecode := decodeDerSignature_ecdsaSigToDer (rawAt m sigRaw)
  rw [(rawAt_components m sigRaw).1, (rawAt_components m sigRaw).2] at hdecode
  have hencodes := decodeDerSignature_sound hdecode
  have hbytes : der'.slice 0 n = ecdsaSigToDer (rawAt m sigRaw) := by
    rw [hn, hwritten.bytes]
  refine ⟨der', n, hrun, ?_, ?_, ?_, ?_, hcomponent sigRaw, hcomponent (sigRaw + 32), hreads⟩
  · rw [hn]
    exact ecdsaSigToDer_length_le _
  · intro a ha
    exact hwritten.frame a (by omega)
  · intro bs
    rw [hbytes]
    constructor
    · exact fun h => h.unique hencodes
    · rintro rfl
      exact hencodes
  · rw [hbytes]
    exact hdecode

end UnsoloKey
