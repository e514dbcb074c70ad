import UnsoloKey.Fips180
import UnsoloKey.Reader
import UnsoloKey.Sha256
import Mathlib.Tactic

/-!
# sha256.c and the standards

The context keeps an unfinished block in an array of 64 bytes and counts the bits of
the finished ones.  Whatever the array held before and however the message is cut into
calls, what it goes through is the padded message of FIPS 180-4, block by block; and
`hmac_sha256` is the construction of RFC 2104 on top of it.
-/

namespace UnsoloKey

open Fips180 (Working hashBlocks initialHash compress)

/-! ## One block -/

def Sha256State.working (s : Sha256State) : Working :=
  ⟨s.a.toBitVec, s.b.toBitVec, s.c.toBitVec, s.d.toBitVec, s.e.toBitVec, s.f.toBitVec,
    s.g.toBitVec, s.h.toBitVec⟩

theorem sig0_toBitVec (x : UInt32) : (sig0 x).toBitVec = Fips180.smallSigma0 x.toBitVec := rfl

theorem sig1_toBitVec (x : UInt32) : (sig1 x).toBitVec = Fips180.smallSigma1 x.toBitVec := rfl

theorem working_round (s : Sha256State) (km : UInt32 × UInt32) :
    (sha256Round s km).working = s.working.step km.1.toBitVec km.2.toBitVec := rfl

theorem working_rounds (s : Sha256State) (kms : List (UInt32 × UInt32)) :
    (kms.foldl sha256Round s).working =
      (kms.map fun km => (km.1.toBitVec, km.2.toBitVec)).foldl (fun r kw => r.step kw.1 kw.2)
        s.working := by
  induction kms generalizing s with
  | nil => rfl
  | cons km kms ih =>
      rw [List.foldl_cons, List.map_cons, List.foldl_cons, ih, working_round]

theorem working_init : sha256Init.state.working = initialHash := by decide +kernel

/-- Below 18 ^ 2 it is enough to try the divisors below 18. -/
theorem primesBelow_small : Fips180.primesBelow 312 =
    (List.range 312).filter fun p => 2 ≤ p ∧ ∀ d < 18, 2 ≤ d → d < p → ¬ d ∣ p := by
  refine List.filter_congr fun p hp => ?_
  rw [List.mem_range] at hp
  rw [decide_eq_decide]
  refine and_congr_right fun htwo => ⟨fun h d _ hd hlt => h d hlt hd, fun h d hlt hd => ?_⟩
  have hprime : p.Prime := Nat.prime_def_le_sqrt.2 ⟨htwo, fun d hd hle => by
    have hsq : d * d ≤ p := Nat.le_sqrt.1 hle
    exact h d (by nlinarith) hd (by nlinarith)⟩
  exact (Nat.prime_def_lt'.1 hprime).2 d hd hlt

theorem roundConstants_eq : Fips180.roundConstants = sha256K.map UInt32.toBitVec := by
  rw [Fips180.roundConstants, primesBelow_small]
  decide +kernel

theorem or_bytes {x y k : ℕ} (hy : y < 2 ^ k) : x * 2 ^ k ||| y = x * 2 ^ k + y := by
  rw [Nat.mul_comm, ← Nat.two_pow_add_eq_or_of_lt hy]

theorem word_toBitVec (a b c d : UInt8) :
    ((a.toUInt32 <<< 24) ||| (b.toUInt32 <<< 16) ||| (c.toUInt32 <<< 8) |||
      d.toUInt32).toBitVec = BitVec.ofNat 32 (beNat [a, b, c, d]) := by
  have ha := a.toNat_lt
  have hb := b.toNat_lt
  have hc := c.toNat_lt
  have hd := d.toNat_lt
  have hsum : a.toNat * 2 ^ 24 ||| b.toNat * 2 ^ 16 ||| c.toNat * 2 ^ 8 ||| d.toNat =
      beNat [a, b, c, d] := by
    have hab : a.toNat * 2 ^ 24 ||| b.toNat * 2 ^ 16 = (a.toNat * 2 ^ 8 + b.toNat) * 2 ^ 16 := by
      rw [or_bytes (by omega)]
      ring
    have habc : (a.toNat * 2 ^ 8 + b.toNat) * 2 ^ 16 ||| c.toNat * 2 ^ 8 =
        ((a.toNat * 2 ^ 8 + b.toNat) * 2 ^ 8 + c.toNat) * 2 ^ 8 := by
      rw [or_bytes (by omega)]
      ring
    rw [hab, habc, or_bytes (by omega)]
    simp only [beNat, List.foldl_cons, List.foldl_nil]
    omega
  have hlt : beNat [a, b, c, d] < 2 ^ 32 := (beNat_lt [a, b, c, d]).trans_eq (by norm_num)
  have hshift : ∀ x : UInt8, x.toNat < 256 →
      x.toNat <<< 24 % 2 ^ 32 = x.toNat * 2 ^ 24 ∧ x.toNat <<< 16 % 2 ^ 32 = x.toNat * 2 ^ 16 ∧
        x.toNat <<< 8 % 2 ^ 32 = x.toNat * 2 ^ 8 := by
    intro x hx
    simp only [Nat.shiftLeft_eq]
    omega
  apply BitVec.eq_of_toNat_eq
  rw [BitVec.toNat_ofNat, Nat.mod_eq_of_lt hlt, ← hsum]
  change UInt32.toNat _ = _
  simp only [UInt32.toNat_or, UInt32.toNat_shiftLeft, UInt8.toNat_toUInt32]
  change (a.toNat <<< 24 % 2 ^ 32 ||| b.toNat <<< 16 % 2 ^ 32 ||| c.toNat <<< 8 % 2 ^ 32 |||
    d.toNat) = _
  rw [(hshift a ha).1, (hshift b hb).2.1, (hshift c hc).2.2]

section

variable {data : List UInt8} {t : ℕ}

theorem blockWord_toBitVec (h : 4 * t + 4 ≤ data.length) :
    (blockWord data (4 * t)).toBitVec = Fips180.blockWord data t := by
  have hget : ∀ i < 4, data.getD (4 * t + i) 0 = (data.drop (4 * t)).getD i 0 := by
    intro i _
    rw [List.getD_eq_getElem?_getD, List.getD_eq_getElem?_getD, List.getElem?_drop]
  have hzero := hget 0 (by omega)
  rw [Nat.add_zero] at hzero
  rw [blockWord, Fips180.blockWord, hzero, hget 1 (by omega), hget 2 (by omega),
    hget 3 (by omega)]
  have hlen : 4 ≤ (data.drop (4 * t)).length := by
    rw [List.length_drop]
    omega
  generalize data.drop (4 * t) = rest at hlen
  match rest, hlen with
  | a :: b :: c :: d :: _, _ => exact word_toBitVec a b c d

/-- The loop over `m` fills it with the words of the schedule. -/
theorem schedule_loop (h : data.length = 64) (n : ℕ) :
    ((List.range' 16 n).foldl
      (fun m i => m ++ [sig1 (m.getD (i - 2) 0) + m.getD (i - 7) 0 +
        sig0 (m.getD (i - 15) 0) + m.getD (i - 16) 0])
      ((List.range 16).map fun i => blockWord data (4 * i))).map UInt32.toBitVec =
        (List.range (16 + n)).map (Fips180.scheduleWord data) := by
  induction n with
  | zero =>
      rw [List.range'_zero, List.foldl_nil, List.map_map]
      refine List.map_congr_left fun t ht => ?_
      have hlt := List.mem_range.1 ht
      rw [Function.comp_apply, blockWord_toBitVec (by omega), Fips180.scheduleWord_lt hlt]
  | succ n ih =>
      have hrange : List.range (16 + (n + 1)) = List.range (16 + n) ++ [16 + n] :=
        List.range_succ
      rw [List.range'_1_concat, List.foldl_append, List.foldl_cons, List.foldl_nil, hrange]
      generalize (List.range' 16 n).foldl _ _ = m at ih ⊢
      have hget : ∀ t < 16 + n, (m.getD t 0).toBitVec = Fips180.scheduleWord data t := by
        intro t ht
        have hmap : (m.map UInt32.toBitVec)[t]? = some (Fips180.scheduleWord data t) := by
          rw [ih, List.getElem?_map, List.getElem?_range ht, Option.map_some]
        rw [List.getElem?_map, Option.map_eq_some_iff] at hmap
        obtain ⟨w, hw, heq⟩ := hmap
        rw [List.getD_eq_getElem?_getD, hw, Option.getD_some, heq]
      rw [List.map_append, List.map_append, ih]
      refine congrArg _ ?_
      rw [List.map_singleton, List.map_singleton, UInt32.toBitVec_add, UInt32.toBitVec_add,
        UInt32.toBitVec_add, sig1_toBitVec, sig0_toBitVec, hget _ (by omega), hget _ (by omega),
        hget _ (by omega), hget _ (by omega),
        Fips180.scheduleWord_ge (show 16 ≤ 16 + n by omega)]

theorem schedule_map (h : data.length = 64) :
    (schedule data).map UInt32.toBitVec = (List.range 64).map (Fips180.scheduleWord data) :=
  schedule_loop h 48

theorem working_transform (s : Sha256State) (h : data.length = 64) :
    (sha256Transform s data).working = compress s.working data := by
  have hrounds : (sha256K.zip (schedule data)).map (fun km => (km.1.toBitVec, km.2.toBitVec)) =
      (List.range 64).map fun t =>
        (Fips180.roundConstants.getD t 0, Fips180.scheduleWord data t) := by
    have hpairs : (sha256K.zip (schedule data)).map (fun km => (km.1.toBitVec, km.2.toBitVec)) =
        (sha256K.map UInt32.toBitVec).zip ((schedule data).map UInt32.toBitVec) := by
      rw [List.zip_map]
      rfl
    rw [hpairs, schedule_map h, ← roundConstants_eq]
    have hlen : Fips180.roundConstants.length = 64 := by
      rw [roundConstants_eq]
      rfl
    refine List.ext_getElem (by simp [hlen]) fun t ht ht' => ?_
    have hlt : t < Fips180.roundConstants.length := by
      rw [List.length_map, List.length_range] at ht'
      omega
    simp [List.getD, hlt]
  have hfold : ((sha256K.zip (schedule data)).foldl sha256Round s).working =
      (List.range 64).foldl
        (fun r t => r.step (Fips180.roundConstants.getD t 0) (Fips180.scheduleWord data t))
        s.working := by
    rw [working_rounds, hrounds, List.foldl_map]
  have hadd : ∀ r : Sha256State, Sha256State.working ⟨s.a + r.a, s.b + r.b, s.c + r.c, s.d + r.d,
      s.e + r.e, s.f + r.f, s.g + r.g, s.h + r.h⟩ = s.working.add r.working := fun _ => rfl
  rw [compress, ← hfold]
  exact hadd _

end

theorem toUInt8_shiftRight (w k : UInt32) (hk : k.toNat < 32) :
    (w >>> k).toUInt8 = UInt8.ofNat (w.toNat / 2 ^ k.toNat) := by
  apply UInt8.toNat_inj.1
  rw [UInt32.toNat_toUInt8, UInt32.toNat_shiftRight, UInt8.toNat_ofNat', Nat.mod_eq_of_lt hk,
    Nat.shiftRight_eq_div_pow]

theorem wordBytes_eq (w : UInt32) : (wordBytes w).val = beBytes 4 w.toNat := by
  rw [beBytes_eq_map, wordBytes]
  dsimp only
  rw [toUInt8_shiftRight w 24 (by decide), toUInt8_shiftRight w 16 (by decide),
    toUInt8_shiftRight w 8 (by decide)]
  have hlast : w.toUInt8 = UInt8.ofNat (w.toNat / 256 ^ 0) := by
    rw [pow_zero, Nat.div_one]
    rfl
  rw [hlast]
  rfl

theorem digest_eq (s : Sha256State) :
    s.digest.val = s.working.words.flatMap fun w => beBytes 4 w.toNat := by
  simp only [Sha256State.digest, wordBytes_eq, Working.words, Sha256State.working,
    List.flatMap_cons, List.flatMap_nil, List.append_nil, List.append_assoc]
  rfl

theorem be64Bytes_eq (n : ℕ) : be64Bytes n = beBytes 8 n := by
  rw [beBytes_eq_map]
  rfl

/-! ## The context in memory -/

/-- `SHA256_CTX`, with the array as it stands. -/
structure Sha256Buffer where
  data : Mem
  datalen : ℕ
  bitlen : ℕ
  state : Sha256State

/-- What the list model keeps of the context. -/
def Sha256Buffer.view (ctx : Sha256Buffer) : Sha256Ctx :=
  ⟨ctx.data.slice 0 ctx.datalen, ctx.bitlen, ctx.state⟩

/-- `sha256_init`, which leaves the array alone. -/
def sha256InitIn (data : Mem) : Sha256Buffer :=
  ⟨data, 0, 0, sha256Init.state⟩

/-- One round of the loop of `sha256_update`. -/
def sha256ByteIn (ctx : Sha256Buffer) (b : UInt8) : Sha256Buffer :=
  let data := ctx.data.write ctx.datalen [b]
  let datalen := ctx.datalen + 1
  if datalen = 64 then
    ⟨data, 0, (ctx.bitlen + 512) % 2 ^ 64, sha256Transform ctx.state (data.slice 0 64)⟩
  else ⟨data, datalen, ctx.bitlen, ctx.state⟩

def sha256UpdateIn (ctx : Sha256Buffer) (data : List UInt8) : Sha256Buffer :=
  data.foldl sha256ByteIn ctx

/-- `n` rounds of a loop which stores zero at `i` and counts `i` up. -/
def zeroFill : ℕ → ℕ → Mem → Mem
  | 0, _, data => data
  | n + 1, i, data => zeroFill n (i + 1) (data.write i [0x00])

/-- The bit count, from the last byte of the block to the first of its eight. -/
def storeBitlen (bitlen : ℕ) (data : Mem) : Mem :=
  let data := data.write 63 [UInt8.ofNat bitlen]
  let data := data.write 62 [UInt8.ofNat (bitlen >>> 8)]
  let data := data.write 61 [UInt8.ofNat (bitlen >>> 16)]
  let data := data.write 60 [UInt8.ofNat (bitlen >>> 24)]
  let data := data.write 59 [UInt8.ofNat (bitlen >>> 32)]
  let data := data.write 58 [UInt8.ofNat (bitlen >>> 40)]
  let data := data.write 57 [UInt8.ofNat (bitlen >>> 48)]
  data.write 56 [UInt8.ofNat (bitlen >>> 56)]

def sha256FinalIn (ctx : Sha256Buffer) : Bytes 32 :=
  let data := ctx.data.write ctx.datalen [0x80]
  let i := ctx.datalen + 1
  let bitlen := (ctx.bitlen + ctx.datalen * 8) % 2 ^ 64
  if ctx.datalen < 56 then
    let data := zeroFill (56 - i) i data
    (sha256Transform ctx.state ((storeBitlen bitlen data).slice 0 64)).digest
  else
    let data := zeroFill (64 - i) i data
    let state := sha256Transform ctx.state (data.slice 0 64)
    let data := zeroFill 56 0 data
    (sha256Transform state ((storeBitlen bitlen data).slice 0 64)).digest

/-- `hmac_sha256`; `ctx` is initialised three times, and its array holds anything before. -/
def hmacSha256In (data₁ data₂ data₃ : Mem) (key text : List UInt8) : Bytes 32 :=
  let key := if key.length > 64 then
      (sha256FinalIn (sha256UpdateIn (sha256InitIn data₁) key)).val
    else key
  let mac := sha256FinalIn
    (sha256UpdateIn (sha256UpdateIn (sha256InitIn data₂) (hmacPad key 0x36)) text)
  sha256FinalIn
    (sha256UpdateIn (sha256UpdateIn (sha256InitIn data₃) (hmacPad key 0x5c)) mac.val)

section

variable {ctx : Sha256Buffer} {data : Mem} {n i : ℕ}

theorem view_byteIn (h : ctx.datalen < 64) (b : UInt8) :
    (sha256ByteIn ctx b).view = sha256Byte ctx.view b ∧ (sha256ByteIn ctx b).datalen < 64 := by
  have hslice : (ctx.data.write ctx.datalen [b]).slice 0 (ctx.datalen + 1) =
      ctx.data.slice 0 ctx.datalen ++ [b] := Mem.slice_write ctx.data ctx.datalen [b]
  unfold sha256ByteIn sha256Byte Sha256Buffer.view
  dsimp only
  rw [Mem.slice_length]
  by_cases hfull : ctx.datalen + 1 = 64
  · rw [hfull] at hslice
    rw [if_pos hfull, if_pos hfull, hslice]
    exact ⟨rfl, Nat.zero_lt_of_lt h⟩
  · rw [if_neg hfull, if_neg hfull, hslice]
    exact ⟨rfl, Nat.lt_of_le_of_ne h hfull⟩

theorem view_updateIn (h : ctx.datalen < 64) (bytes : List UInt8) :
    (sha256UpdateIn ctx bytes).view = sha256Update ctx.view bytes ∧
      (sha256UpdateIn ctx bytes).datalen < 64 := by
  induction bytes generalizing ctx with
  | nil => exact ⟨rfl, h⟩
  | cons b bytes ih =>
      obtain ⟨hview, hlen⟩ := view_byteIn h b
      have hrest := ih hlen
      rw [hview] at hrest
      exact hrest

theorem slice_zeroFill (n i : ℕ) (data : Mem) : (zeroFill n i data).slice 0 (i + n) =
    data.slice 0 i ++ List.replicate n 0x00 := by
  induction n generalizing i data with
  | zero => simp [zeroFill]
  | succ n ih =>
      have hstep : (data.write i [0x00]).slice 0 (i + 1) = data.slice 0 i ++ [0x00] :=
        Mem.slice_write data i [0x00]
      rw [zeroFill, show i + (n + 1) = i + 1 + n by omega, ih, hstep, List.append_assoc,
        List.replicate_succ]
      rfl

theorem slice_storeBitlen (bitlen : ℕ) (data : Mem) :
    (storeBitlen bitlen data).slice 0 64 = data.slice 0 56 ++ be64Bytes bitlen := by
  have hbefore : ∀ a < 56, storeBitlen bitlen data a = data a := by
    intro a ha
    unfold storeBitlen
    simp only [Mem.write, List.length_singleton]
    repeat rw [if_neg (by omega)]
  have hslice : (storeBitlen bitlen data).slice 0 56 = data.slice 0 56 := by
    refine List.map_congr_left fun i hi => ?_
    rw [Nat.zero_add, hbefore i (List.mem_range.1 hi)]
  rw [show (64 : ℕ) = 56 + 8 from rfl, Mem.slice_add, hslice]
  refine congrArg _ (List.map_congr_left fun i hi => ?_)
  have hlt := List.mem_range.1 hi
  interval_cases i <;> simp [storeBitlen, Mem.write, Nat.shiftRight_eq_div_pow]

theorem finalIn_eq (h : ctx.datalen < 64) : sha256FinalIn ctx = sha256Final ctx.view := by
  have hmark : (ctx.data.write ctx.datalen [0x80]).slice 0 (ctx.datalen + 1) =
      ctx.data.slice 0 ctx.datalen ++ [0x80] := Mem.slice_write ctx.data ctx.datalen [0x80]
  have hfill : ∀ k, (zeroFill k (ctx.datalen + 1) (ctx.data.write ctx.datalen [0x80])).slice 0
      (ctx.datalen + 1 + k) =
        ctx.data.slice 0 ctx.datalen ++ 0x80 :: List.replicate k 0x00 := by
    intro k
    rw [slice_zeroFill, hmark, List.append_assoc]
    rfl
  unfold sha256FinalIn sha256Final Sha256Buffer.view
  dsimp only
  rw [Mem.slice_length]
  by_cases hshort : ctx.datalen < 56
  · have hblock := hfill (56 - (ctx.datalen + 1))
    rw [show ctx.datalen + 1 + (56 - (ctx.datalen + 1)) = 56 by omega] at hblock
    rw [if_pos hshort, if_pos hshort, slice_storeBitlen, hblock,
      show 56 - (ctx.datalen + 1) = 55 - ctx.datalen by omega]
  · have hblock := hfill (64 - (ctx.datalen + 1))
    rw [show ctx.datalen + 1 + (64 - (ctx.datalen + 1)) = 64 by omega] at hblock
    have hzero := slice_zeroFill 56 0 (zeroFill (64 - (ctx.datalen + 1)) (ctx.datalen + 1)
      (ctx.data.write ctx.datalen [0x80]))
    rw [Nat.zero_add, Mem.slice_zero, List.nil_append] at hzero
    rw [if_neg hshort, if_neg hshort, slice_storeBitlen, hblock, hzero,
      show 64 - (ctx.datalen + 1) = 63 - ctx.datalen by omega]

end

/-! ## Messages -/

/-- The context has gone through the bytes `whole`, which are a number of blocks; what
came after them is in the array. -/
structure Absorbed (ctx : Sha256Ctx) (whole : List UInt8) : Prop where
  aligned : whole.length % 64 = 0
  short : ctx.data.length < 64
  bitlen : ctx.bitlen = 8 * whole.length % 2 ^ 64
  state : ctx.state.working = hashBlocks initialHash whole

section

variable {ctx : Sha256Ctx} {whole : List UInt8}

theorem absorbed_init : Absorbed sha256Init [] where
  aligned := rfl
  short := by decide
  bitlen := rfl
  state := working_init

theorem Absorbed.byte (h : Absorbed ctx whole) (b : UInt8) :
    ∃ whole', Absorbed (sha256Byte ctx b) whole' ∧
      whole' ++ (sha256Byte ctx b).data = whole ++ ctx.data ++ [b] := by
  have hshort := h.short
  unfold sha256Byte
  by_cases hfull : ctx.data.length + 1 = 64
  · rw [if_pos hfull]
    have hblock : (ctx.data ++ [b]).length = 64 := by
      rw [List.length_append, List.length_singleton, hfull]
    refine ⟨whole ++ (ctx.data ++ [b]), ?_, by rw [List.append_nil, List.append_assoc]⟩
    exact {
      aligned := by
        have haligned := h.aligned
        rw [List.length_append, hblock]
        omega
      short := Nat.succ_pos 63
      bitlen := by
        change (ctx.bitlen + 512) % 2 ^ 64 = _
        rw [h.bitlen, List.length_append, hblock]
        omega
      state := by
        change (sha256Transform ctx.state (ctx.data ++ [b])).working = _
        rw [working_transform _ hblock, Fips180.hashBlocks_append h.aligned hblock, h.state] }
  · rw [if_neg hfull]
    refine ⟨whole, ?_, (List.append_assoc _ _ _).symm⟩
    exact {
      aligned := h.aligned
      short := by
        change (ctx.data ++ [b]).length < 64
        rw [List.length_append, List.length_singleton]
        omega
      bitlen := h.bitlen
      state := h.state }

theorem Absorbed.update (h : Absorbed ctx whole) (bytes : List UInt8) :
    ∃ whole', Absorbed (sha256Update ctx bytes) whole' ∧
      whole' ++ (sha256Update ctx bytes).data = whole ++ ctx.data ++ bytes := by
  induction bytes generalizing ctx whole with
  | nil => exact ⟨whole, h, by rw [List.append_nil]; rfl⟩
  | cons b bytes ih =>
      obtain ⟨whole₁, hbyte, hwhole₁⟩ := h.byte b
      obtain ⟨whole₂, hrest, hwhole₂⟩ := ih hbyte
      refine ⟨whole₂, hrest, ?_⟩
      change whole₂ ++ (sha256Update (sha256Byte ctx b) bytes).data = _
      rw [hwhole₂, hwhole₁, List.append_assoc _ [b]]
      rfl

/-- The two branches of `sha256_final` are the two lengths which the padding can have. -/
theorem Absorbed.final (h : Absorbed ctx whole) :
    (sha256Final ctx).val = Fips180.sha256 (whole ++ ctx.data) := by
  have haligned := h.aligned
  have hshort := h.short
  have hlength : (whole ++ ctx.data).length = whole.length + ctx.data.length :=
    List.length_append
  have hbits : be64Bytes ((ctx.bitlen + ctx.data.length * 8) % 2 ^ 64) =
      beBytes 8 (8 * (whole ++ ctx.data).length) := by
    rw [be64Bytes_eq, ← beBytes_mod 8 (8 * (whole ++ ctx.data).length), h.bitlen, hlength]
    refine congrArg _ ?_
    omega
  unfold sha256Final Fips180.sha256
  dsimp only
  rw [hbits]
  by_cases hbranch : ctx.data.length < 56
  · have hpad : Fips180.pad (whole ++ ctx.data) =
        whole ++ (ctx.data ++ 0x80 :: List.replicate (55 - ctx.data.length) 0 ++
          beBytes 8 (8 * (whole ++ ctx.data).length)) := by
      have hzero : Fips180.zeroBytes (whole ++ ctx.data).length = 55 - ctx.data.length := by
        rw [Fips180.zeroBytes_eq_iff, hlength]
        omega
      rw [Fips180.pad, hzero]
      simp only [List.append_assoc]
    have hblock : (ctx.data ++ 0x80 :: List.replicate (55 - ctx.data.length) 0 ++
        beBytes 8 (8 * (whole ++ ctx.data).length)).length = 64 := by
      simp only [List.length_append, List.length_cons, List.length_replicate, beBytes_length]
      omega
    rw [if_pos hbranch, digest_eq, working_transform _ hblock, hpad,
      Fips180.hashBlocks_append haligned hblock, h.state]
  · have hpad : Fips180.pad (whole ++ ctx.data) =
        whole ++ (ctx.data ++ 0x80 :: List.replicate (63 - ctx.data.length) 0) ++
          (List.replicate 56 0 ++ beBytes 8 (8 * (whole ++ ctx.data).length)) := by
      have hzero : Fips180.zeroBytes (whole ++ ctx.data).length =
          63 - ctx.data.length + 56 := by
        rw [Fips180.zeroBytes_eq_iff, hlength]
        omega
      rw [Fips180.pad, hzero, List.replicate_add]
      simp only [List.append_assoc, List.cons_append]
    have hfirst : (ctx.data ++ 0x80 :: List.replicate (63 - ctx.data.length) 0).length = 64 := by
      simp only [List.length_append, List.length_cons, List.length_replicate]
      omega
    have hsecond : (List.replicate 56 0 ++
        beBytes 8 (8 * (whole ++ ctx.data).length)).length = 64 := by
      simp only [List.length_append, List.length_replicate, beBytes_length]
    have hwhole : (whole ++ (ctx.data ++
        0x80 :: List.replicate (63 - ctx.data.length) 0)).length % 64 = 0 := by
      rw [List.length_append, hfirst]
      omega
    rw [if_neg hbranch, digest_eq, working_transform _ hsecond, working_transform _ hfirst, hpad,
      Fips180.hashBlocks_append hwhole hsecond, Fips180.hashBlocks_append haligned hfirst, h.state]

end

/-- The digests which the device computes are those of the standard. -/
theorem sha256_eq (message : List UInt8) : (sha256 message).val = Fips180.sha256 message := by
  obtain ⟨whole, habsorbed, hwhole⟩ := absorbed_init.update message
  rw [sha256, habsorbed.final, hwhole]
  rfl

theorem hmacSha256_eq (key text : List UInt8) :
    (hmacSha256 key text).val = Fips180.hmac Fips180.sha256 64 key text := by
  have htwo : ∀ xs ys, (sha256Final (sha256Update (sha256Update sha256Init xs) ys)).val =
      Fips180.sha256 (xs ++ ys) := by
    intro xs ys
    rw [← sha256Update_append]
    exact sha256_eq (xs ++ ys)
  have hkey : (if key.length > 64 then (sha256 key).val else key) =
      if key.length > 64 then Fips180.sha256 key else key := by
    rw [sha256_eq]
  unfold hmacSha256 Fips180.hmac
  dsimp only
  rw [hkey, htwo, htwo]
  rfl

/-- So is what the context in memory comes to, whatever its array held before. -/
theorem updateIn_final (data : Mem) (calls : List (List UInt8)) :
    sha256FinalIn (calls.foldl sha256UpdateIn (sha256InitIn data)) = sha256 calls.flatten := by
  have hcalls : ∀ ctx : Sha256Buffer, ctx.datalen < 64 →
      (calls.foldl sha256UpdateIn ctx).view = sha256Update ctx.view calls.flatten ∧
        (calls.foldl sha256UpdateIn ctx).datalen < 64 := by
    induction calls with
    | nil => exact fun ctx h => ⟨rfl, h⟩
    | cons call calls ih =>
        intro ctx h
        obtain ⟨hview, hlen⟩ := view_updateIn h call
        have hrest := ih _ hlen
        rwa [hview, ← sha256Update_append] at hrest
  obtain ⟨hview, hlen⟩ := hcalls (sha256InitIn data) (Nat.succ_pos 63)
  rw [finalIn_eq hlen, hview]
  rfl

theorem hmacSha256In_eq (data₁ data₂ data₃ : Mem) (key text : List UInt8) :
    hmacSha256In data₁ data₂ data₃ key text = hmacSha256 key text := by
  have hone : ∀ data xs, sha256FinalIn (sha256UpdateIn (sha256InitIn data) xs) = sha256 xs := by
    intro data xs
    have h := updateIn_final data [xs]
    rwa [List.flatten_singleton] at h
  have htwo : ∀ data xs ys,
      sha256FinalIn (sha256UpdateIn (sha256UpdateIn (sha256InitIn data) xs) ys) =
        sha256Final (sha256Update (sha256Update sha256Init xs) ys) := by
    intro data xs ys
    have h := updateIn_final data [xs, ys]
    rw [← sha256Update_append]
    simpa [sha256] using h
  unfold hmacSha256In hmacSha256
  dsimp only
  rw [hone, htwo, htwo]

/-- However a message is cut into calls the digest is its SHA-256 hash, and `hmac_sha256` is
HMAC-SHA-256 for keys of every length. -/
theorem sha256_hmac_standard :
    (∀ (data : Mem) (calls : List (List UInt8)),
      (sha256FinalIn (calls.foldl sha256UpdateIn (sha256InitIn data))).val =
        Fips180.sha256 calls.flatten) ∧
      ∀ (data₁ data₂ data₃ : Mem) (key text : List UInt8),
        (hmacSha256In data₁ data₂ data₃ key text).val =
          Fips180.hmac Fips180.sha256 64 key text := by
  constructor
  · intro data calls
    rw [updateIn_final, sha256_eq]
  · intro data₁ data₂ data₃ key text
    rw [hmacSha256In_eq, hmacSha256_eq]

end UnsoloKey
