import UnsoloKey.EccMult
import UnsoloKey.VliBytes
import Mathlib.Tactic

/-!
# Keys and the shared secret

`uECC_make_key` draws a scalar below the order and multiplies the generator;
`uECC_shared_secret` multiplies the point of the other side.  The generator of random
bytes is a sequence of which each call takes the next bytes.
-/

namespace UnsoloKey.UEcc

open CoZ P256

/-! ## The functions -/

/-- `num_words` words which the generator has filled byte by byte. -/
def randomWords (random : ℕ → UInt8) (pos numWords : ℕ) : Vli :=
  (List.range numWords).map fun i =>
    (random (pos + 4 * i)).toUInt32 ||| ((random (pos + 4 * i + 1)).toUInt32 <<< 8) |||
      ((random (pos + 4 * i + 2)).toUInt32 <<< 16) ||| ((random (pos + 4 * i + 3)).toUInt32 <<< 24)

/-- `vli[num_words - 1] &= bits` -/
def vliAndTop (bits : UInt32) : Vli → Vli
  | [] => []
  | [w] => [w &&& bits]
  | w :: w' :: ws => w :: vliAndTop bits (w' :: ws)

/-- `uECC_generate_random_int`, for that many tries. -/
def generateRandomInt (random : ℕ → UInt8) (top : Vli) (numWords : ℕ) :
    ℕ → ℕ → Option Vli × ℕ
  | 0, pos => (none, pos)
  | tries + 1, pos =>
      let mask : UInt32 := 0xFFFFFFFF
      let words := vliAndTop (mask >>> UInt32.ofNat (numWords * 32 - vliNumBits top))
        (randomWords random pos numWords)
      if !vliIsZero words && vliCmp top words == 1 then (some words, pos + numWords * 4)
      else generateRandomInt random top numWords tries (pos + numWords * 4)

/-- `uECC_RNG_MAX_TRIES` -/
def rngMaxTries : ℕ := 64

/-- The products which are blinded with a random number below `p`. -/
def blindedMult (random : ℕ → UInt8) (pos : ℕ) (point k : Vli) : Option Vli × ℕ :=
  match generateRandomInt random secp256r1.p secp256r1.numWords rngMaxTries pos with
  | (none, pos) => (none, pos)
  | (some initialZ, pos) =>
      (some (eccPointMult point (regularScalar k) (some initialZ) (secp256r1.numNBits + 1)), pos)

/-- `EccPoint_compute_public_key` -/
def eccPointComputePublicKey (random : ℕ → UInt8) (pos : ℕ) (privateKey : Vli) :
    Option Vli × ℕ :=
  match blindedMult random pos secp256r1.g privateKey with
  | (none, pos) => (none, pos)
  | (some result, pos) => (if vliIsZero result then none else some result, pos)

/-- The coordinates of a point as bytes. -/
def pointBytes (point : Vli) : List UInt8 :=
  nativeToBytes secp256r1.numBytes (point.take secp256r1.numWords) ++
    nativeToBytes secp256r1.numBytes (point.drop secp256r1.numWords)

/-- `uECC_make_key`: the public and the private key, unless it returns 0. -/
def makeKey (random : ℕ → UInt8) : ℕ → ℕ → Option (List UInt8 × List UInt8) × ℕ
  | 0, pos => (none, pos)
  | tries + 1, pos =>
      match generateRandomInt random secp256r1.n secp256r1.numWords rngMaxTries pos with
      | (none, pos) => (none, pos)
      | (some priv, pos) =>
          match eccPointComputePublicKey random pos priv with
          | (some pub, pos) => (some (pointBytes pub, nativeToBytes secp256r1.numBytes priv), pos)
          | (none, pos) => makeKey random tries pos

/-- `uECC_shared_secret`: the secret and what the function returns, unless it leaves the
secret alone. -/
def sharedSecret (random : ℕ → UInt8) (pos : ℕ) (publicKey privateKey : List UInt8) :
    Option (List UInt8 × Bool) × ℕ :=
  let priv := bytesToNative privateKey
  let pub := bytesToNative (publicKey.take secp256r1.numBytes) ++
    bytesToNative (publicKey.drop secp256r1.numBytes)
  match blindedMult random pos pub priv with
  | (none, pos) => (none, pos)
  | (some result, pos) =>
      (some (nativeToBytes secp256r1.numBytes (result.take secp256r1.numWords),
        !vliIsZero result), pos)

/-! ## Random numbers -/

section

variable {random : ℕ → UInt8} {top w k point : Vli} {numWords tries pos pos' d : ℕ}

theorem length_vliAndTop (bits : UInt32) (ws : Vli) : (vliAndTop bits ws).length = ws.length := by
  induction ws with
  | nil => rfl
  | cons w ws ih =>
      cases ws with
      | nil => rfl
      | cons w' ws => exact congrArg (· + 1) ih

/-- A number which the generator has given is below the bound, and not zero. -/
theorem generateRandomInt_spec (htop : top.length = numWords)
    (h : generateRandomInt random top numWords tries pos = (some w, pos')) :
    w.length = numWords ∧ 0 < vliNat w ∧ vliNat w < vliNat top := by
  induction tries generalizing pos with
  | zero => simp [generateRandomInt] at h
  | succ tries ih =>
      rw [generateRandomInt] at h
      split_ifs at h with hcond
      · obtain ⟨hw, -⟩ := Prod.mk.inj h
        rw [Option.some.inj hw] at hcond
        rw [Bool.and_eq_true, Bool.not_eq_true', beq_iff_eq] at hcond
        obtain ⟨hzero, hcmp⟩ := hcond
        have hlength : w.length = numWords := by
          rw [← Option.some.inj hw, length_vliAndTop, randomWords, List.length_map,
            List.length_range]
        refine ⟨hlength, Nat.pos_of_ne_zero fun hzero' => ?_, ?_⟩
        · rw [vliIsZero_iff.2 hzero'] at hzero
          exact absurd hzero (by decide)
        · exact (vliCmp_eq_one (htop.trans hlength.symm)).1 hcmp
      · exact ih h

theorem blindedMult_spec {result : Vli} (h : blindedMult random pos point k = (some result, pos')) :
    ∃ z initialZ, Blinding initialZ z ∧
      result = eccPointMult point (regularScalar k) initialZ 257 := by
  unfold blindedMult at h
  split at h
  · exact absurd (Prod.mk.inj h).1 (by simp)
  · next initialZ pos hrandom =>
      obtain ⟨hlength, hpos, hlt⟩ := generateRandomInt_spec (by rfl) hrandom
      rw [vliNat_p] at hlt
      refine ⟨(vliNat initialZ : Fp), some initialZ, ⟨⟨hlength, hlt, rfl⟩, fun hzero => ?_⟩,
        (Option.some.inj (Prod.mk.inj h).1).symm⟩
      rw [ZMod.natCast_eq_zero_iff] at hzero
      exact absurd (Nat.le_of_dvd hpos hzero) (by omega)

/-! ## The public key -/

theorem vliIsZero_append (left right : Vli) :
    vliIsZero (left ++ right) = true ↔ vliIsZero left = true ∧ vliIsZero right = true := by
  rw [vliIsZero_iff, vliIsZero_iff, vliIsZero_iff, vliNat_append, Nat.add_eq_zero_iff,
    Nat.mul_eq_zero]
  have hpow := Nat.two_pow_pos (32 * left.length)
  constructor
  · rintro ⟨hleft, hright⟩
    exact ⟨hleft, hright.resolve_left hpow.ne'⟩
  · rintro ⟨hleft, hright⟩
    exact ⟨hleft, .inr hright⟩

/-- No point of the curve has the coordinates zero. -/
theorem IsPoint.not_isZero {P : curve.Point} (h : IsPoint point P) : vliIsZero point = false := by
  obtain ⟨x, y, hns, -, hx, hy⟩ := h
  rw [Bool.eq_false_iff, Ne, ← List.take_append_drop 8 point, vliIsZero_append, hx.isZero_iff,
    hy.isZero_iff]
  rintro ⟨rfl, rfl⟩
  rw [nonsingular_iff, zero_pow two_ne_zero, zero_pow three_ne_zero, mul_zero, sub_zero,
    zero_add] at hns
  exact natCast_ne_zero (by decide) (by decide) hns.symm

/-- The scalar is one for which the ladder does not fail. -/
theorem fails_or {d : ℕ} (hpos : 0 < d) (hlt : d < n256) : Fails d ∨ 2 ≤ d ∧ d ≤ n256 - 3 := by
  unfold Fails
  omega

/-- A public key is the multiple of the generator, for all scalars but three. -/
theorem computePublicKey_some {pub : Vli} (hk : k.length = 8) (hpos : 0 < vliNat k)
    (hlt : vliNat k < n256) (h : eccPointComputePublicKey random pos k = (some pub, pos')) :
    2 ≤ vliNat k ∧ vliNat k ≤ n256 - 3 ∧ IsPoint pub (vliNat k • generator) := by
  unfold eccPointComputePublicKey at h
  split at h
  · exact absurd (Prod.mk.inj h).1 (by simp)
  · next result pos hmult =>
      obtain ⟨z, initialZ, hz, hresult⟩ := blindedMult_spec hmult
      have hpub := (Prod.mk.inj h).1
      rw [hresult] at hpub
      split_ifs at hpub with hzero
      rcases fails_or hpos hlt with hfails | ⟨hlow, hhigh⟩
      · rw [eccPointMult_zero isPoint_g order_nsmul_generator hk (.inr hfails) hz] at hzero
        exact absurd rfl hzero
      · rw [← Option.some.inj hpub]
        exact ⟨hlow, hhigh, eccPointMult_point isPoint_g order_nsmul_generator
          (by rw [vliNat_gx]; decide) hk hlow hhigh hz⟩

theorem blindedMult_of_random {initialZ : Vli}
    (h : generateRandomInt random secp256r1.p 8 64 pos = (some initialZ, pos')) (point k : Vli) :
    blindedMult random pos point k =
      (some (eccPointMult point (regularScalar k) (some initialZ) 257), pos') := by
  unfold blindedMult
  rw [show generateRandomInt random secp256r1.p secp256r1.numWords rngMaxTries pos = _ from h]
  rfl

theorem blindedMult_of_none
    (h : generateRandomInt random secp256r1.p 8 64 pos = (none, pos')) (point k : Vli) :
    blindedMult random pos point k = (none, pos') := by
  unfold blindedMult
  rw [show generateRandomInt random secp256r1.p secp256r1.numWords rngMaxTries pos = _ from h]

/-- Three private keys are refused, and all are while the generator gives no number. -/
theorem computePublicKey_isSome_iff (hk : k.length = 8) (hpos : 0 < vliNat k)
    (hlt : vliNat k < n256) :
    (eccPointComputePublicKey random pos k).1.isSome = true ↔
      ¬ Fails (vliNat k) ∧ (generateRandomInt random secp256r1.p 8 64 pos).1.isSome = true := by
  rcases hrandom : generateRandomInt random secp256r1.p 8 64 pos with ⟨_ | initialZ, pos'⟩
  · rw [eccPointComputePublicKey, blindedMult_of_none hrandom]
    simp
  · have hmult := blindedMult_of_random hrandom secp256r1.g k
    obtain ⟨z, initialZ', hz, hresult⟩ := blindedMult_spec hmult
    rw [eccPointComputePublicKey, hmult]
    dsimp only
    rw [hresult]
    rcases fails_or hpos hlt with hfails | ⟨hlow, hhigh⟩
    · rw [eccPointMult_zero isPoint_g order_nsmul_generator hk (.inr hfails) hz, if_pos (by decide)]
      simp [hfails]
    · have hpoint := eccPointMult_point isPoint_g order_nsmul_generator
        (by rw [vliNat_gx]; decide) hk hlow hhigh hz
      have hnot : ¬ Fails (vliNat k) := by
        have hn : 3 < n256 := by decide
        unfold Fails
        omega
      rw [hpoint.not_isZero]
      simp [hnot]

/-- The public key of every private key below the order. -/
theorem computePublicKey_exact (hk : k.length = 8) (hpos : 0 < vliNat k)
    (hlt : vliNat k < n256) :
    ((eccPointComputePublicKey random pos k).1.isSome = true ↔
        ¬ Fails (vliNat k) ∧ (generateRandomInt random secp256r1.p 8 64 pos).1.isSome = true) ∧
      ∀ pub ∈ (eccPointComputePublicKey random pos k).1,
        IsPoint pub (vliNat k • generator) := by
  refine ⟨computePublicKey_isSome_iff hk hpos hlt, fun pub hpub => ?_⟩
  exact (computePublicKey_some hk hpos hlt (Prod.ext hpub rfl)).2.2

theorem computePublicKey_exact_five :
    ((eccPointComputePublicKey (fun _ => 1) 0 (5 :: List.replicate 7 0)).1.isSome = true ↔
        ¬ Fails (vliNat (5 :: List.replicate 7 0)) ∧
          (generateRandomInt (fun _ => 1) secp256r1.p 8 64 0).1.isSome = true) ∧
      ∀ pub ∈ (eccPointComputePublicKey (fun _ => 1) 0 (5 :: List.replicate 7 0)).1,
        IsPoint pub (vliNat (5 :: List.replicate 7 0) • generator) :=
  computePublicKey_exact rfl (by decide) (by decide)

/-! ## Bytes -/

/-- The bytes of the coordinates of a finite point. -/
def PointBytes (bs : List UInt8) (P : curve.Point) : Prop :=
  ∃ x y, ∃ h : curve.Nonsingular x y,
    P = .some x y h ∧ bs = beBytes 32 x.val ++ beBytes 32 y.val

theorem IsFp.val_eq {ws : Vli} {x : Fp} (h : IsFp ws x) : x.val = vliNat ws := by
  rw [← h.cast, ZMod.val_natCast_of_lt h.lt]

theorem IsFp.bytes {ws : Vli} {x : Fp} (h : IsFp ws x) : nativeToBytes 32 ws = beBytes 32 x.val := by
  rw [nativeToBytes_eq, h.val_eq]

theorem isFp_bytesToNative (x : Fp) : IsFp (bytesToNative (beBytes 32 x.val)) x := by
  obtain ⟨hlength, hvalue⟩ := bytesToNative_spec (beBytes 32 x.val)
  have hlt : x.val < p256 := ZMod.val_lt x
  rw [beBytes_length] at hlength
  rw [beNat_beBytes, Nat.mod_eq_of_lt (hlt.trans p256_lt)] at hvalue
  refine ⟨hlength, by rw [hvalue]; exact hlt, ?_⟩
  rw [hvalue, ZMod.natCast_zmod_val]

theorem IsPoint.bytes {P : curve.Point} (h : IsPoint point P) : PointBytes (pointBytes point) P := by
  obtain ⟨x, y, hns, hP, hx, hy⟩ := h
  exact ⟨x, y, hns, hP, congrArg₂ _ hx.bytes hy.bytes⟩

theorem PointBytes.words {bs : List UInt8} {P : curve.Point} (h : PointBytes bs P) :
    IsPoint (bytesToNative (bs.take 32) ++ bytesToNative (bs.drop 32)) P ∧
      vliNat ((bytesToNative (bs.take 32) ++ bytesToNative (bs.drop 32)).take 8) =
        beNat (bs.take 32) := by
  obtain ⟨x, y, hns, hP, hbs⟩ := h
  have hx := isFp_bytesToNative x
  have hy := isFp_bytesToNative y
  rw [hbs, List.take_left' (beBytes_length 32 _), List.drop_left' (beBytes_length 32 _),
    List.take_left' hx.length]
  refine ⟨⟨x, y, hns, hP, ?_, ?_⟩, (bytesToNative_spec _).2⟩
  · rw [List.take_left' hx.length]
    exact hx
  · rw [List.drop_left' hx.length]
    exact hy

/-! ## Key pairs -/

/-- The private key is a scalar for which the ladder does not fail, the public key its
multiple of the generator. -/
structure IsKeyPair (pub priv : List UInt8) (d : ℕ) : Prop where
  low : 2 ≤ d
  high : d ≤ n256 - 3
  priv_eq : priv = beBytes 32 d
  pub_bytes : PointBytes pub (d • generator)

theorem makeKey_pair {pub priv : List UInt8}
    (h : makeKey random tries pos = (some (pub, priv), pos')) : ∃ d, IsKeyPair pub priv d := by
  induction tries generalizing pos with
  | zero => exact absurd (Prod.mk.inj h).1 (by simp)
  | succ tries ih =>
      rw [makeKey] at h
      split at h
      · exact absurd (Prod.mk.inj h).1 (by simp)
      · next k pos hrandom =>
          obtain ⟨hlength, hpos, hlt⟩ := generateRandomInt_spec (by rfl) hrandom
          rw [vliNat_n] at hlt
          split at h
          · next point pos hcompute =>
              obtain ⟨hlow, hhigh, hpoint⟩ := computePublicKey_some hlength hpos hlt hcompute
              have hkeys := Option.some.inj (Prod.mk.inj h).1
              rw [Prod.mk.injEq] at hkeys
              refine ⟨vliNat k, hlow, hhigh, ?_, ?_⟩
              · rw [← hkeys.2, nativeToBytes_eq]
                rfl
              · rw [← hkeys.1]
                exact hpoint.bytes
          · exact ih h

/-! ## The shared secret -/

/-- What the secret is read off. -/
theorem sharedSecret_mult {pub priv secret : List UInt8} {P : curve.Point} {ok : Bool}
    (hpub : PointBytes pub P) (hpriv : priv = beBytes 32 d) (hlt : d < n256)
    (h : sharedSecret random pos pub priv = (some (secret, ok), pos')) :
    ∃ point k initialZ z, IsPoint point P ∧ vliNat (point.take 8) = beNat (pub.take 32) ∧
      k.length = 8 ∧ vliNat k = d ∧ Blinding initialZ z ∧
      secret = nativeToBytes 32 ((eccPointMult point (regularScalar k) initialZ 257).take 8) ∧
      ok = !vliIsZero (eccPointMult point (regularScalar k) initialZ 257) := by
  obtain ⟨hlength, hvalue⟩ := bytesToNative_spec priv
  have hn : n256 < 256 ^ 32 := by decide
  rw [hpriv, beBytes_length] at hlength
  rw [hpriv, beNat_beBytes, Nat.mod_eq_of_lt (hlt.trans hn)] at hvalue
  obtain ⟨hpoint, htake⟩ := hpub.words
  unfold sharedSecret at h
  dsimp only at h
  split at h
  · exact absurd (Prod.mk.inj h).1 (by simp)
  · next result pos hmult =>
      obtain ⟨z, initialZ, hz, hresult⟩ := blindedMult_spec hmult
      have hsecret := Option.some.inj (Prod.mk.inj h).1
      rw [Prod.mk.injEq, hresult, hpriv] at hsecret
      exact ⟨_, _, initialZ, z, hpoint, htake, hlength, hvalue, hz, hsecret.1.symm,
        hsecret.2.symm⟩

/-- The secret is the first coordinate of the product. -/
theorem sharedSecret_point {pub priv secret : List UInt8} {P : curve.Point} {ok : Bool}
    (hpub : PointBytes pub P) (horder : n256 • P = 0) (hpriv : priv = beBytes 32 d) (hlow : 2 ≤ d)
    (hhigh : d ≤ n256 - 3) (hx : beNat (pub.take 32) ≠ 0)
    (h : sharedSecret random pos pub priv = (some (secret, ok), pos')) :
    ok = true ∧ ∃ x y, ∃ hns : curve.Nonsingular x y, d • P = .some x y hns ∧
      secret = beBytes 32 x.val := by
  have hlt : d < n256 := lt_of_le_of_lt hhigh (by decide)
  obtain ⟨point, k, initialZ, z, hpoint, htake, hk, rfl, hz, hsecret, hok⟩ :=
    sharedSecret_mult hpub hpriv hlt h
  have hmult := eccPointMult_point hpoint horder (by rwa [htake]) hk hlow hhigh hz
  refine ⟨by rw [hok, hmult.not_isZero]; rfl, ?_⟩
  obtain ⟨x, y, hns, hP, hrx, -⟩ := hmult
  exact ⟨x, y, hns, hP, hsecret.trans hrx.bytes⟩

/-- For a point on the second axis the function returns 0 and leaves zeros. -/
theorem sharedSecret_zero {pub priv secret : List UInt8} {P : curve.Point} {ok : Bool}
    (hpub : PointBytes pub P) (horder : n256 • P = 0) (hpriv : priv = beBytes 32 d)
    (hlt : d < n256) (hx : beNat (pub.take 32) = 0)
    (h : sharedSecret random pos pub priv = (some (secret, ok), pos')) :
    ok = false ∧ secret = List.replicate 32 0 := by
  obtain ⟨point, k, initialZ, z, hpoint, htake, hk, rfl, hz, hsecret, hok⟩ :=
    sharedSecret_mult hpub hpriv hlt h
  rw [eccPointMult_zero hpoint horder hk (.inl (htake.trans hx)) hz] at hsecret hok
  exact ⟨hok, hsecret⟩

theorem sharedSecret_ok_iff {pub priv secret : List UInt8} {P : curve.Point} {ok : Bool}
    (hpub : PointBytes pub P) (horder : n256 • P = 0) (hpriv : priv = beBytes 32 d) (hlow : 2 ≤ d)
    (hhigh : d ≤ n256 - 3)
    (h : sharedSecret random pos pub priv = (some (secret, ok), pos')) :
    ok = true ↔ beNat (pub.take 32) ≠ 0 := by
  constructor
  · intro hok hx
    obtain ⟨hfalse, -⟩ := sharedSecret_zero hpub horder hpriv (lt_of_le_of_lt hhigh (by decide)) hx h
    rw [hok] at hfalse
    exact absurd hfalse (by decide)
  · exact fun hx => (sharedSecret_point hpub horder hpriv hlow hhigh hx h).1

theorem generator_nsmul_order (d : ℕ) : n256 • d • generator = 0 := by
  rw [smul_comm, order_nsmul_generator, nsmul_zero]

theorem generateRandomInt_of_words {words : Vli} (tries pos : ℕ)
    (hmask : vliAndTop (0xFFFFFFFF >>> UInt32.ofNat (numWords * 32 - vliNumBits top))
      (randomWords random pos numWords) = words)
    (hcond : (!vliIsZero words && vliCmp top words == 1) = true) :
    generateRandomInt random top numWords (tries + 1) pos = (some words, pos + numWords * 4) := by
  rw [generateRandomInt, hmask, if_pos hcond]

theorem makeKey_of_random {pos₁ : ℕ} (tries : ℕ)
    (hk : generateRandomInt random secp256r1.n 8 64 pos = (some k, pos₁))
    (hz : (generateRandomInt random secp256r1.p 8 64 pos₁).1.isSome = true)
    (hfails : ¬ Fails (vliNat k)) :
    ∃ point pos', eccPointComputePublicKey random pos₁ k = (some point, pos') ∧
      makeKey random (tries + 1) pos = (some (pointBytes point, nativeToBytes 32 k), pos') := by
  obtain ⟨hlength, hpos, hlt⟩ := generateRandomInt_spec (by rfl) hk
  rw [vliNat_n] at hlt
  have hsome := (computePublicKey_isSome_iff hlength hpos hlt).2 ⟨hfails, hz⟩
  rcases hcompute : eccPointComputePublicKey random pos₁ k with ⟨_ | point, pos'⟩
  · rw [hcompute] at hsome
    exact absurd hsome Bool.false_ne_true
  · refine ⟨point, pos', rfl, ?_⟩
    rw [makeKey, show generateRandomInt random secp256r1.n secp256r1.numWords rngMaxTries pos = _
      from hk]
    dsimp only
    rw [hcompute]
    rfl

/-- The secret is left alone exactly while the generator gives no number to blind with. -/
theorem sharedSecret_isSome_iff (pub priv : List UInt8) :
    (sharedSecret random pos pub priv).1.isSome = true ↔
      (generateRandomInt random secp256r1.p 8 64 pos).1.isSome = true := by
  unfold sharedSecret
  dsimp only
  rcases hrandom : generateRandomInt random secp256r1.p 8 64 pos with ⟨_ | initialZ, pos'⟩
  · rw [blindedMult_of_none hrandom]
    exact Iff.rfl
  · rw [blindedMult_of_random hrandom]
    exact iff_of_true rfl rfl

theorem sharedSecret_of_random (pub priv : List UInt8)
    (hz : (generateRandomInt random secp256r1.p 8 64 pos).1.isSome = true) :
    ∃ secret ok pos', sharedSecret random pos pub priv = (some (secret, ok), pos') := by
  obtain ⟨⟨secret, ok⟩, hsecret⟩ :=
    Option.isSome_iff_exists.1 ((sharedSecret_isSome_iff pub priv).2 hz)
  exact ⟨secret, ok, _, Prod.ext hsecret rfl⟩

/-- A generator whose numbers of 32 bytes are all `b`. -/
def smallRandom (b : UInt8) : ℕ → UInt8 := fun pos => if pos % 32 = 0 then b else 0

/-- The words of a small number. -/
def smallWords (b : UInt8) : Vli := b.toUInt32 :: List.replicate 7 0

theorem generateRandomInt_small {b : UInt8} (hb : b = 2 ∨ b = 3)
    (htop : top ∈ [secp256r1.n, secp256r1.p]) (hpos : pos ∈ [0, 32, 64]) :
    generateRandomInt (smallRandom b) top 8 64 pos = (some (smallWords b), pos + 32) := by
  have hmask : ∀ top ∈ [secp256r1.n, secp256r1.p], ∀ pos ∈ [0, 32, 64],
      vliAndTop (0xFFFFFFFF >>> UInt32.ofNat (8 * 32 - vliNumBits top))
        (randomWords (smallRandom b) pos 8) = smallWords b := by
    rcases hb with rfl | rfl <;> decide
  have hcond : ∀ top ∈ [secp256r1.n, secp256r1.p],
      (!vliIsZero (smallWords b) && vliCmp top (smallWords b) == 1) = true := by
    rcases hb with rfl | rfl <;> decide
  exact generateRandomInt_of_words 63 pos (hmask top htop pos hpos) (hcond top htop)

theorem generateRandomInt_small_p {b : UInt8} (hb : b = 2 ∨ b = 3) (hpos : pos ∈ [0, 32, 64]) :
    (generateRandomInt (smallRandom b) secp256r1.p 8 64 pos).1.isSome = true := by
  rw [generateRandomInt_small hb (by simp) hpos]
  rfl

theorem makeKey_small {b : UInt8} (hb : b = 2 ∨ b = 3) : ∃ point pos',
    eccPointComputePublicKey (smallRandom b) 32 (smallWords b) = (some point, pos') ∧
      makeKey (smallRandom b) 64 0 =
        (some (pointBytes point, nativeToBytes 32 (smallWords b)), pos') := by
  have hfails : ¬ Fails (vliNat (smallWords b)) := by
    rcases hb with rfl | rfl <;> decide
  exact makeKey_of_random 63 (generateRandomInt_small hb (by simp) (by simp))
    (generateRandomInt_small_p hb (by simp)) hfails

theorem sharedSecret_small {b : UInt8} (hb : b = 2 ∨ b = 3) (pub priv : List UInt8) :
    ∃ secret ok pos', sharedSecret (smallRandom b) 0 pub priv = (some (secret, ok), pos') :=
  sharedSecret_of_random pub priv (generateRandomInt_small_p hb (by simp))

/-- What two key pairs make of each other's public keys. -/
theorem IsKeyPair.secret_eq {pubA privA pubB privB secretA secretB : List UInt8} {a b : ℕ}
    {okA okB : Bool} {randomA randomB : ℕ → UInt8} {posA posB qA qB : ℕ}
    (hA : IsKeyPair pubA privA a) (hB : IsKeyPair pubB privB b)
    (hsecretA : sharedSecret randomA posA pubB privA = (some (secretA, okA), qA))
    (hsecretB : sharedSecret randomB posB pubA privB = (some (secretB, okB), qB))
    (hxA : beNat (pubA.take 32) ≠ 0) (hxB : beNat (pubB.take 32) ≠ 0) : secretA = secretB := by
  obtain ⟨-, x, y, hns, hpointA, heqA⟩ := sharedSecret_point hB.pub_bytes
    (generator_nsmul_order b) hA.priv_eq hA.low hA.high hxB hsecretA
  obtain ⟨-, x', y', hns', hpointB, heqB⟩ := sharedSecret_point hA.pub_bytes
    (generator_nsmul_order a) hB.priv_eq hB.low hB.high hxA hsecretB
  rw [smul_comm, hpointB, WeierstrassCurve.Affine.Point.some.injEq] at hpointA
  rw [heqA, heqB, hpointA.1]

/-- One side has a secret exactly if there is a number to blind the product with and the
other side's public key is not on the second axis. -/
theorem IsKeyPair.secret_iff {pubA privA pubB privB : List UInt8} {a b : ℕ}
    (hA : IsKeyPair pubA privA a) (hB : IsKeyPair pubB privB b) (random : ℕ → UInt8)
    (pos : ℕ) :
    (∃ secret, (sharedSecret random pos pubB privA).1 = some (secret, true)) ↔
      (generateRandomInt random secp256r1.p 8 64 pos).1.isSome = true ∧
        beNat (pubB.take 32) ≠ 0 := by
  rw [← sharedSecret_isSome_iff pubB privA]
  rcases hcall : sharedSecret random pos pubB privA with ⟨_ | ⟨secret, ok⟩, pos'⟩
  · simp
  · have hok := sharedSecret_ok_iff hB.pub_bytes (generator_nsmul_order b) hA.priv_eq hA.low
      hA.high hcall
    simp [hok]

/-- Both sides derive one secret.  A side has none exactly for want of a number to blind the
product with, or for a public key whose first coordinate is zero. -/
theorem sharedSecret_agree {randomA randomB : ℕ → UInt8} {posA posB qA qB : ℕ}
    {pubA privA pubB privB : List UInt8}
    (hA : makeKey randomA 64 posA = (some (pubA, privA), qA))
    (hB : makeKey randomB 64 posB = (some (pubB, privB), qB))
    (randomA' randomB' : ℕ → UInt8) (posA' posB' : ℕ) :
    ((∃ secret, (sharedSecret randomA' posA' pubB privA).1 = some (secret, true)) ↔
        (generateRandomInt randomA' secp256r1.p 8 64 posA').1.isSome = true ∧
          beNat (pubB.take 32) ≠ 0) ∧
      ((∃ secret, (sharedSecret randomB' posB' pubA privB).1 = some (secret, true)) ↔
        (generateRandomInt randomB' secp256r1.p 8 64 posB').1.isSome = true ∧
          beNat (pubA.take 32) ≠ 0) ∧
      ∀ secretA secretB, (sharedSecret randomA' posA' pubB privA).1 = some (secretA, true) →
        (sharedSecret randomB' posB' pubA privB).1 = some (secretB, true) →
          secretA = secretB := by
  obtain ⟨a, hkeyA⟩ := makeKey_pair hA
  obtain ⟨b, hkeyB⟩ := makeKey_pair hB
  have hiffA := hkeyA.secret_iff hkeyB randomA' posA'
  have hiffB := hkeyB.secret_iff hkeyA randomB' posB'
  refine ⟨hiffA, hiffB, fun secretA secretB hsecretA hsecretB => ?_⟩
  exact hkeyA.secret_eq hkeyB (Prod.ext hsecretA rfl) (Prod.ext hsecretB rfl)
    (hiffB.1 ⟨secretB, hsecretB⟩).2 (hiffA.1 ⟨secretA, hsecretA⟩).2

/-- The keys 2 and 3.  Both sides find a number to blind with, then one finds zeros only. -/
theorem sharedSecret_agree_small : ∃ pubA privA pubB privB q₁ q₂,
    makeKey (smallRandom 2) 64 0 = (some (pubA, privA), q₁) ∧
      makeKey (smallRandom 3) 64 0 = (some (pubB, privB), q₂) ∧
      ((∃ secret, (sharedSecret (smallRandom 2) 64 pubB privA).1 = some (secret, true)) ↔
        beNat (pubB.take 32) ≠ 0) ∧
      (∀ secretA secretB, (sharedSecret (smallRandom 2) 64 pubB privA).1 = some (secretA, true) →
        (sharedSecret (smallRandom 3) 64 pubA privB).1 = some (secretB, true) →
          secretA = secretB) ∧
      ¬ ∃ secret, (sharedSecret (fun _ => 0) 0 pubB privA).1 = some (secret, true) := by
  obtain ⟨pointA, q₁, -, hA⟩ := makeKey_small (.inl rfl)
  obtain ⟨pointB, q₂, -, hB⟩ := makeKey_small (.inr rfl)
  obtain ⟨hiff, -, hagree⟩ := sharedSecret_agree hA hB (smallRandom 2) (smallRandom 3) 64 64
  obtain ⟨hzeros, -⟩ := sharedSecret_agree hA hB (fun _ => 0) (fun _ => 0) 0 0
  rw [and_iff_right (generateRandomInt_small_p (.inl rfl) (by simp))] at hiff
  refine ⟨_, _, _, _, _, _, hA, hB, hiff, hagree, fun h => absurd (hzeros.1 h).1 ?_⟩
  decide

end

end UnsoloKey.UEcc
