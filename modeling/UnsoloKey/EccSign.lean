import UnsoloKey.EccKeys
import Mathlib.Tactic

/-!
# Signatures

`uECC_sign` takes the first coordinate of a random multiple of the generator as it is,
without a reduction by the order, and does not look whether the second number is zero.
A signature is accepted by the verification of the standard unless one of the two
happens.
-/

namespace UnsoloKey.UEcc

open CoZ P256

/-! ## The functions -/

/-- `bits2int`.  The order has as many bits as the longest hash which is kept, so that
nothing is shifted out. -/
def bits2int (bits : List UInt8) : Vli :=
  let native := bytesToNative (bits.take ((secp256r1.numNBits + 7) / 8))
  native ++ List.replicate (secp256r1.numWords - native.length) 0

/-- `uECC_sign_with_k_internal`: the signature, unless it returns 0. -/
def signWithK (random : ℕ → UInt8) (pos : ℕ) (privateKey messageHash : List UInt8) (k : Vli) :
    Option (List UInt8) × ℕ :=
  if vliIsZero k || vliCmp secp256r1.n k != 1 then (none, pos)
  else
    match blindedMult random pos secp256r1.g k with
    | (none, pos) => (none, pos)
    | (some p, pos) =>
        let p := p.take secp256r1.numWords
        if vliIsZero p then (none, pos)
        else
          match generateRandomInt random secp256r1.n secp256r1.numWords rngMaxTries pos with
          | (none, pos) => (none, pos)
          | (some tmp, pos) =>
              let k := vliModMult k tmp secp256r1.n secp256r1.numWords
              let k := vliModInv k secp256r1.n secp256r1.numWords
              let k := vliModMult k tmp secp256r1.n secp256r1.numWords
              let tmp := bytesToNative privateKey
              let s := vliModMult tmp p secp256r1.n secp256r1.numWords
              let tmp := bits2int messageHash
              let s := vliModAdd tmp s secp256r1.n
              let s := vliModMult s k secp256r1.n secp256r1.numWords
              if vliNumBits s > secp256r1.numBytes * 8 then (none, pos)
              else
                (some (nativeToBytes secp256r1.numBytes p ++ nativeToBytes secp256r1.numBytes s),
                  pos)

/-- `uECC_sign` -/
def sign (random : ℕ → UInt8) (privateKey messageHash : List UInt8) :
    ℕ → ℕ → Option (List UInt8) × ℕ
  | 0, pos => (none, pos)
  | tries + 1, pos =>
      match generateRandomInt random secp256r1.n secp256r1.numWords rngMaxTries pos with
      | (none, pos) => (none, pos)
      | (some k, pos) =>
          match signWithK random pos privateKey messageHash k with
          | (some signature, pos) => (some signature, pos)
          | (none, pos) => sign random privateKey messageHash tries pos

/-! ## Scalars -/

abbrev Fn : Type := ZMod n256

/-- Eight words which denote the scalar, not all of them below the order. -/
structure IsFn (ws : Vli) (x : Fn) : Prop where
  length : ws.length = 8
  cast : (vliNat ws : Fn) = x

namespace IsFn

variable {a b : Vli} {x y : Fn}

theorem val_eq (ha : IsFn a x) (hlt : vliNat a < n256) : x.val = vliNat a := by
  rw [← ha.cast, ZMod.val_natCast_of_lt hlt]

theorem ne_zero (ha : IsFn a x) (hpos : 0 < vliNat a) (hlt : vliNat a < n256) : x ≠ 0 := by
  rw [← ha.cast, Ne, ZMod.natCast_eq_zero_iff]
  exact fun hdvd => absurd (Nat.le_of_dvd hpos hdvd) (by omega)

theorem mul (ha : IsFn a x) (hb : IsFn b y) : IsFn (vliModMult a b secp256r1.n 8) (x * y) ∧
    vliNat (vliModMult a b secp256r1.n 8) < n256 := by
  obtain ⟨hlength, hvalue⟩ := vliModMult_spec (n := 7) ha.length hb.length
    (show secp256r1.n.length = 7 + 1 from rfl) (by decide) (by decide)
  rw [vliNat_n] at hvalue
  refine ⟨⟨hlength, ?_⟩, ?_⟩
  · rw [hvalue, ZMod.natCast_mod, Nat.cast_mul, ha.cast, hb.cast]
  · rw [hvalue]
    exact Nat.mod_lt _ (by decide)

/-- The left number may exceed the order: it is subtracted once at most. -/
theorem add (ha : IsFn a x) (hb : IsFn b y) (hlt : vliNat b < n256) :
    IsFn (vliModAdd a b secp256r1.n) (x + y) := by
  obtain ⟨hlength, hsum, hcarry⟩ := vliAdd_spec (ha.length.trans hb.length.symm)
  rw [ha.length] at hlength hsum
  have hn : (vliAdd a b).1.length = secp256r1.n.length := hlength
  obtain ⟨hlength', hdiff, hborrow⟩ := vliSub_spec hn
  have hltA := vliNat_lt a
  have hltSum := vliNat_lt (vliAdd a b).1
  have hltDiff := vliNat_lt (vliSub (vliAdd a b).1 secp256r1.n).1
  rw [hlength] at hlength' hdiff hltSum
  rw [hlength'] at hltDiff
  rw [ha.length] at hltA
  have hvalue : (vliModAdd a b secp256r1.n).length = 8 ∧
      (vliNat (vliModAdd a b secp256r1.n) = vliNat a + vliNat b ∨
        vliNat (vliModAdd a b secp256r1.n) + n256 = vliNat a + vliNat b) := by
    have hcmp : vliCmpUnsafe secp256r1.n (vliAdd a b).1 ≠ .gt ↔
        n256 ≤ vliNat (vliAdd a b).1 := by
      rw [vliCmpUnsafe_eq hn.symm, vliNat_n, Ne, Nat.compare_eq_gt, Nat.not_lt]
    have hnone : (vliAdd a b).2 ≠ 0 ↔ (vliAdd a b).2.toNat ≠ 0 := UInt32.toNat_inj.symm.not
    rw [vliNat_n] at hdiff
    unfold vliModAdd
    simp only [hcmp, hnone]
    split_ifs with hcond
    · refine ⟨hlength', .inr ?_⟩
      omega
    · exact ⟨hlength, .inl (by omega)⟩
  refine ⟨hvalue.1, ?_⟩
  rw [← ha.cast, ← hb.cast, ← Nat.cast_add]
  rcases hvalue.2 with hvalue | hvalue
  · rw [hvalue]
  · rw [← hvalue, Nat.cast_add, ZMod.natCast_self, add_zero]

theorem inv (ha : IsFn a x) (hne : x ≠ 0) : IsFn (vliModInv a secp256r1.n 8) x⁻¹ := by
  have hcoprime : (vliNat a).Coprime n256 := by
    rw [Nat.coprime_comm, n256_prime.coprime_iff_not_dvd, ← ZMod.natCast_eq_zero_iff, ha.cast]
    exact hne
  rw [← vliNat_n] at hcoprime
  obtain ⟨hlength, -, hmul⟩ := vliModInv_spec (n := 7) ha.length
    (show secp256r1.n.length = 7 + 1 from rfl) (by decide) (by decide) hcoprime
  rw [vliNat_n, ha.cast] at hmul
  exact ⟨hlength, eq_inv_of_mul_eq_one_right hmul⟩

theorem not_long (ha : IsFn a x) : ¬ vliNumBits a > secp256r1.numBytes * 8 := by
  have hbits := vliNumBits_le a
  rw [ha.length] at hbits
  exact Nat.not_lt.2 hbits

/-- The second number of a signature: the random factor `τ` cancels. -/
theorem signature {k t priv p e : Vli} {κ τ d r m : Fn} (hk : IsFn k κ) (hκ : κ ≠ 0)
    (ht : IsFn t τ) (hτ : τ ≠ 0) (hpriv : IsFn priv d) (hp : IsFn p r) (he : IsFn e m) :
    IsFn (vliModMult (vliModAdd e (vliModMult priv p secp256r1.n 8) secp256r1.n)
        (vliModMult (vliModInv (vliModMult k t secp256r1.n 8) secp256r1.n 8) t secp256r1.n 8)
        secp256r1.n 8) ((m + d * r) * κ⁻¹) ∧
      vliNat (vliModMult (vliModAdd e (vliModMult priv p secp256r1.n 8) secp256r1.n)
        (vliModMult (vliModInv (vliModMult k t secp256r1.n 8) secp256r1.n 8) t secp256r1.n 8)
        secp256r1.n 8) < n256 := by
  have hinv := (((hk.mul ht).1.inv (mul_ne_zero hκ hτ)).mul ht).1
  rw [show (κ * τ)⁻¹ * τ = κ⁻¹ by field_simp] at hinv
  exact (he.add (hpriv.mul hp).1 (hpriv.mul hp).2).mul hinv

end IsFn

theorem bits2int_spec (bits : List UInt8) :
    (bits2int bits).length = 8 ∧ vliNat (bits2int bits) = beNat (bits.take 32) := by
  obtain ⟨hlength, hvalue⟩ := bytesToNative_spec (bits.take 32)
  have hle : (bits.take 32).length ≤ 32 := by
    rw [List.length_take]
    omega
  have heq : bits2int bits = bytesToNative (bits.take 32) ++
      List.replicate (8 - (bytesToNative (bits.take 32)).length) 0 := rfl
  rw [heq, List.length_append, List.length_replicate, vliNat_append, vliNat_replicate_zero,
    hvalue, hlength]
  omega

/-! ## The signature -/

section

variable {random : ℕ → UInt8} {pos pos' tries d : ℕ} {k : Vli} {sig priv hash : List UInt8}

/-- What a signature consists of. -/
structure SignedWith (sig hash : List UInt8) (d k : ℕ) : Prop where
  scalar : 2 ≤ k ∧ k ≤ n256 - 3
  bytes : ∃ x y, ∃ h : curve.Nonsingular x y, k • generator = .some x y h ∧ x ≠ 0 ∧
    sig = beBytes 32 x.val ++
      beBytes 32 (((beNat (hash.take 32) : Fn) + d * x.val) * (k : Fn)⁻¹).val

theorem signWithK_spec (hk : k.length = 8) (hpriv : priv = beBytes 32 d) (hd : d < n256)
    (h : signWithK random pos priv hash k = (some sig, pos')) : SignedWith sig hash d (vliNat k) := by
  have hnone : ∀ {o : Option (List UInt8) × ℕ} {pos : ℕ}, (none, pos) = o → o ≠ (some sig, pos') :=
    fun ho heq => by
      rw [← ho] at heq
      exact absurd (Prod.mk.inj heq).1 (by simp)
  rw [signWithK] at h
  by_cases hrange : (vliIsZero k || vliCmp secp256r1.n k != 1) = true
  · rw [if_pos hrange] at h
    exact absurd h (hnone rfl)
  rw [if_neg hrange] at h
  rw [Bool.or_eq_true, not_or, bne_iff_ne, not_not] at hrange
  have hpos : 0 < vliNat k := Nat.pos_of_ne_zero fun hzero => hrange.1 (vliIsZero_iff.2 hzero)
  have hlt : vliNat k < n256 := by
    rw [← vliNat_n]
    exact (vliCmp_eq_one (show secp256r1.n.length = k.length from hk.symm)).1 hrange.2
  split at h
  · exact absurd h (hnone rfl)
  next p pos hmult =>
  obtain ⟨z, initialZ, hz, hresult⟩ := blindedMult_spec hmult
  dsimp only at h
  by_cases hzero : vliIsZero (p.take secp256r1.numWords) = true
  · rw [if_pos hzero] at h
    exact absurd h (hnone rfl)
  rw [if_neg hzero] at h
  split at h
  · exact absurd h (hnone rfl)
  next t pos hrandom =>
  obtain ⟨htlength, htpos, htlt⟩ := generateRandomInt_spec (by rfl) hrandom
  rw [vliNat_n] at htlt
  split at h
  · exact absurd h (hnone rfl)
  rw [hresult] at h hzero
  rcases fails_or hpos hlt with hfails | ⟨hlow, hhigh⟩
  · rw [eccPointMult_zero isPoint_g order_nsmul_generator hk (.inr hfails) hz] at hzero
    exact absurd (by decide) hzero
  obtain ⟨x, y, hns, hP, hx, -⟩ := eccPointMult_point isPoint_g order_nsmul_generator
    (by rw [vliNat_gx]; decide) hk hlow hhigh hz
  refine ⟨⟨hlow, hhigh⟩, x, y, hns, hP, mt hx.isZero_iff.2 hzero, ?_⟩
  rw [← Option.some.inj (Prod.mk.inj h).1, show secp256r1.numWords = 8 from rfl,
    show secp256r1.numBytes = 32 from rfl]
  generalize (eccPointMult secp256r1.g (regularScalar k) initialZ 257).take 8 = p at *
  have hkF : IsFn k (vliNat k : Fn) := ⟨hk, rfl⟩
  have htF : IsFn t (vliNat t : Fn) := ⟨htlength, rfl⟩
  have hkne := hkF.ne_zero hpos hlt
  have htne := htF.ne_zero htpos htlt
  have hpF : IsFn p (x.val : Fn) := ⟨hx.length, by rw [hx.val_eq]⟩
  have hprivF : IsFn (bytesToNative priv) (d : Fn) := by
    obtain ⟨hlength, hvalue⟩ := bytesToNative_spec priv
    rw [hpriv, beBytes_length] at hlength
    rw [hpriv, beNat_beBytes, Nat.mod_eq_of_lt (hd.trans (by decide))] at hvalue
    exact ⟨hpriv ▸ hlength, by rw [hpriv, hvalue]⟩
  have heF : IsFn (bits2int hash) (beNat (hash.take 32) : Fn) :=
    ⟨(bits2int_spec hash).1, by rw [(bits2int_spec hash).2]⟩
  have hs := hkF.signature hkne htF htne hprivF hpF heF
  refine congrArg₂ _ hx.bytes ?_
  rw [hs.1.val_eq hs.2]
  exact nativeToBytes_eq 32 _

theorem sign_spec (hpriv : priv = beBytes 32 d) (hd : d < n256)
    (h : sign random priv hash tries pos = (some sig, pos')) : ∃ k, SignedWith sig hash d k := by
  induction tries generalizing pos with
  | zero => exact absurd (Prod.mk.inj h).1 (by simp)
  | succ tries ih =>
      rw [sign] at h
      split at h
      · exact absurd (Prod.mk.inj h).1 (by simp)
      next k pos hrandom =>
      obtain ⟨hlength, -, -⟩ := generateRandomInt_spec (by rfl) hrandom
      split at h
      · next signature pos hsign =>
          rw [← (Prod.mk.inj h).1.symm.trans rfl] at hsign
          exact ⟨vliNat k, signWithK_spec hlength hpriv hd hsign⟩
      · exact ih h

/-! ## The verification -/

/-- The verification of a signature under the public key `Q`, as the standard has it. -/
structure EcdsaVerifies (Q : curve.Point) (hash : List UInt8) (r s : ℕ) : Prop where
  r_range : 0 < r ∧ r < n256
  s_range : 0 < s ∧ s < n256
  point : ∃ x y, ∃ h : curve.Nonsingular x y,
    ((beNat (hash.take 32) : Fn) * (s : Fn)⁻¹).val • generator + ((r : Fn) * (s : Fn)⁻¹).val • Q =
      .some x y h ∧ x.val % n256 = r

/-- Multiples of the generator by one scalar are the same. -/
theorem nsmul_generator_congr {a b : ℕ} (h : (a : Fn) = b) : a • generator = b • generator := by
  rw [ZMod.natCast_eq_natCast_iff] at h
  have hmod : ∀ c : ℕ, c • generator = (c % n256) • generator := fun c => by
    conv_lhs => rw [← Nat.div_add_mod c n256, add_nsmul, mul_nsmul, order_nsmul_generator,
      nsmul_zero, zero_add]
  rw [hmod a, hmod b, h]

/-- A signature is accepted unless its first number has not been reduced or its second
number is zero. -/
theorem SignedWith.verifies_iff {k : ℕ} (h : SignedWith sig hash d k) :
    EcdsaVerifies (d • generator) hash (beNat (sig.take 32)) (beNat (sig.drop 32)) ↔
      beNat (sig.take 32) < n256 ∧ beNat (sig.drop 32) ≠ 0 := by
  refine ⟨fun hv => ⟨hv.r_range.2, hv.s_range.1.ne'⟩, fun ⟨hr, hs⟩ => ?_⟩
  obtain ⟨x, y, hns, hP, hx, hbytes⟩ := h.bytes
  generalize hv : ((beNat (hash.take 32) : Fn) + d * x.val) * (k : Fn)⁻¹ = v at hbytes
  have hxlt : x.val < 256 ^ 32 := (ZMod.val_lt x).trans p256_lt
  have hvlt : v.val < 256 ^ 32 := (ZMod.val_lt v).trans (by decide)
  have htake : beNat (sig.take 32) = x.val := by
    rw [hbytes, List.take_left' (beBytes_length 32 _), beNat_beBytes, Nat.mod_eq_of_lt hxlt]
  have hdrop : beNat (sig.drop 32) = v.val := by
    rw [hbytes, List.drop_left' (beBytes_length 32 _), beNat_beBytes, Nat.mod_eq_of_lt hvlt]
  rw [htake] at hr ⊢
  rw [hdrop] at hs ⊢
  have hvne : v ≠ 0 := mt (ZMod.val_eq_zero v).2 hs
  have hkne : (k : Fn) ≠ 0 := by
    rw [Ne, ZMod.natCast_eq_zero_iff]
    intro hdvd
    have hle := Nat.le_of_dvd (by have hlow := h.scalar.1; omega) hdvd
    have hhigh := h.scalar.2
    have hn : 3 < n256 := by decide
    omega
  refine ⟨⟨Nat.pos_of_ne_zero (mt (ZMod.val_eq_zero x).1 hx), hr⟩,
    ⟨Nat.pos_of_ne_zero hs, ZMod.val_lt v⟩, x, y, hns, ?_, Nat.mod_eq_of_lt hr⟩
  -- both multiples together are that of the random scalar
  rw [← hP, ← mul_nsmul', ← add_nsmul]
  refine nsmul_generator_congr ?_
  rw [Nat.cast_add, Nat.cast_mul, ZMod.natCast_zmod_val, ZMod.natCast_zmod_val,
    ZMod.natCast_zmod_val]
  have hkv : (k : Fn) * v = beNat (hash.take 32) + d * x.val := by
    rw [← hv, mul_left_comm, mul_inv_cancel₀ hkne, mul_one]
  field_simp
  linear_combination -hkv

/-- A signature is found for a scalar whose multiple has a first coordinate. -/
theorem signWithK_isSome {priv hash : List UInt8} {pos₁ pos₂ : ℕ} {initialZ t : Vli}
    (hk : k.length = 8) (hlow : 2 ≤ vliNat k) (hhigh : vliNat k ≤ n256 - 3)
    (hx : ∀ x y, ∀ h : curve.Nonsingular x y, vliNat k • generator = .some x y h → x ≠ 0)
    (hz : generateRandomInt random secp256r1.p 8 64 pos = (some initialZ, pos₁))
    (ht : generateRandomInt random secp256r1.n 8 64 pos₁ = (some t, pos₂))
    (hpriv : priv.length = 32) :
    ∃ sig, signWithK random pos priv hash k = (some sig, pos₂) := by
  have hn : 3 < n256 := by decide
  have hrange : (vliIsZero k || vliCmp secp256r1.n k != 1) = false := by
    rw [Bool.or_eq_false_iff, bne_eq_false_iff_eq, Bool.eq_false_iff, Ne, vliIsZero_iff,
      vliCmp_eq_one (show secp256r1.n.length = k.length from hk.symm), vliNat_n]
    omega
  have hmult := blindedMult_of_random hz secp256r1.g k
  obtain ⟨z, initialZ', hblinding, hresult⟩ := blindedMult_spec hmult
  obtain ⟨x, y, h, hP, hrx, -⟩ := eccPointMult_point isPoint_g order_nsmul_generator
    (by rw [vliNat_gx]; decide) hk hlow hhigh hblinding
  have hzero : ¬ vliIsZero ((eccPointMult secp256r1.g (regularScalar k) initialZ' 257).take 8) =
      true := mt hrx.isZero_iff.1 (hx x y h hP)
  rw [hresult] at hmult
  rw [signWithK, hrange, if_neg Bool.false_ne_true, hmult]
  dsimp only
  rw [show secp256r1.numWords = 8 from rfl, if_neg hzero,
    show generateRandomInt random secp256r1.n 8 rngMaxTries pos₁ = _ from ht]
  dsimp only
  obtain ⟨htlength, htpos, htlt⟩ := generateRandomInt_spec (by rfl) ht
  rw [vliNat_n] at htlt
  have hkF : IsFn k (vliNat k : Fn) := ⟨hk, rfl⟩
  have htF : IsFn t (vliNat t : Fn) := ⟨htlength, rfl⟩
  have hprivF : IsFn (bytesToNative priv) (vliNat (bytesToNative priv) : Fn) :=
    ⟨by rw [(bytesToNative_spec priv).1, hpriv], rfl⟩
  have hs := hkF.signature (hkF.ne_zero (by omega) (by omega)) htF (htF.ne_zero htpos htlt) hprivF
    ⟨hrx.length, rfl⟩ ⟨(bits2int_spec hash).1, rfl⟩
  rw [if_neg hs.1.not_long]
  exact ⟨_, rfl⟩

theorem two_nsmul_generator_x {x y : Fp} {h : curve.Nonsingular x y}
    (hP : 2 • generator = .some x y h) : x ≠ 0 := by
  have hy : (gy : Fp) ≠ 0 := natCast_ne_zero (by decide) (by decide)
  obtain ⟨hz, h', hdouble⟩ := double_represents (h := generator_nonsingular) two_mul_half a₄_eq hy
    one_ne_zero rfl
  rw [generator, hdouble, WeierstrassCurve.Affine.Point.some.injEq] at hP
  rw [← hP.1, hz, one_pow, mul_one]
  exact div_ne_zero (by decide +kernel) (pow_ne_zero 2 hy)

theorem sign_of_signWithK {pos₁ pos₂ : ℕ} (tries : ℕ)
    (hk : generateRandomInt random secp256r1.n 8 64 pos = (some k, pos₁))
    (hsign : signWithK random pos₁ priv hash k = (some sig, pos₂)) :
    sign random priv hash (tries + 1) pos = (some sig, pos₂) := by
  rw [sign, show generateRandomInt random secp256r1.n secp256r1.numWords rngMaxTries pos = _
    from hk]
  dsimp only
  rw [hsign]

theorem sign_small (priv hash : List UInt8) (hpriv : priv.length = 32) :
    ∃ sig, sign (smallRandom 2) priv hash 64 0 = (some sig, 96) := by
  have htwo : vliNat (smallWords 2) = 2 := by decide
  obtain ⟨sig, hsig⟩ := @signWithK_isSome (smallRandom 2) 32 (smallWords 2) priv hash _ _ _ _ rfl
    (le_of_eq htwo.symm) (by rw [htwo]; decide)
    (fun x y h hP => two_nsmul_generator_x (by rwa [htwo] at hP))
    (generateRandomInt_small (.inl rfl) (by simp) (by simp))
    (generateRandomInt_small (.inl rfl) (by simp) (by simp)) hpriv
  exact ⟨sig, sign_of_signWithK 63 (generateRandomInt_small (.inl rfl) (by simp) (by simp)) hsig⟩

/-- A signature under a key which `uECC_make_key` has made is accepted under its public
key, unless the one number is not reduced or the other is zero. -/
theorem makeKey_sign_verifies {random' : ℕ → UInt8} {q q' : ℕ} {pub : List UInt8}
    (hkey : makeKey random 64 pos = (some (pub, priv), pos'))
    (hsign : sign random' priv hash 64 q = (some sig, q')) :
    ∃ Q, PointBytes pub Q ∧
      (EcdsaVerifies Q hash (beNat (sig.take 32)) (beNat (sig.drop 32)) ↔
        beNat (sig.take 32) < n256 ∧ beNat (sig.drop 32) ≠ 0) := by
  obtain ⟨d, hd⟩ := makeKey_pair hkey
  obtain ⟨k, hk⟩ := sign_spec hd.priv_eq (lt_of_le_of_lt hd.high (by decide)) hsign
  exact ⟨_, hd.pub_bytes, hk.verifies_iff⟩

theorem makeKey_sign_verifies_two : ∃ pub priv sig pos q Q,
    makeKey (smallRandom 2) 64 0 = (some (pub, priv), pos) ∧
      sign (smallRandom 2) priv (List.replicate 32 0xC5) 64 0 = (some sig, q) ∧
      PointBytes pub Q ∧
      (EcdsaVerifies Q (List.replicate 32 0xC5) (beNat (sig.take 32)) (beNat (sig.drop 32)) ↔
        beNat (sig.take 32) < n256 ∧ beNat (sig.drop 32) ≠ 0) := by
  obtain ⟨point, pos, -, hkey⟩ := makeKey_small (.inl rfl)
  obtain ⟨sig, hsign⟩ := sign_small (nativeToBytes 32 (smallWords 2)) (List.replicate 32 0xC5)
    (by rw [nativeToBytes_eq, beBytes_length])
  obtain ⟨Q, hQ, hiff⟩ := makeKey_sign_verifies hkey hsign
  exact ⟨_, _, sig, pos, 96, Q, hkey, hsign, hQ, hiff⟩

end

end UnsoloKey.UEcc
