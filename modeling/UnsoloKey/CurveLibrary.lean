import UnsoloKey.EccSign
import UnsoloKey.PinLockout
import Mathlib.Tactic

/-!
# The device with its elliptic curve library

What the device takes from `uECC_make_key`, `uECC_shared_secret` and `uECC_sign` is what
these functions compute, each with random bytes of its own.
-/

namespace UnsoloKey

open UEcc CoZ P256

theorem pointBytes_unique {bs bs' : List UInt8} {P : curve.Point} (h : PointBytes bs P)
    (h' : PointBytes bs' P) : bs = bs' := by
  obtain ⟨x, y, hns, hP, hbs⟩ := h
  obtain ⟨x', y', hns', hP', hbs'⟩ := h'
  have hsame := WeierstrassCurve.Affine.Point.some.inj (hP.symm.trans hP')
  rw [hbs, hbs', hsame.1, hsame.2]

theorem pointBytes_inj {bs : List UInt8} {P Q : curve.Point} (h : PointBytes bs P)
    (h' : PointBytes bs Q) : P = Q := by
  obtain ⟨x, y, hns, hP, hbs⟩ := h
  obtain ⟨x', y', hns', hQ, hbs'⟩ := h'
  rw [hbs] at hbs'
  have hval : ∀ {u v : Fp}, beBytes 32 u.val = beBytes 32 v.val → u = v := fun {u v} heq => by
    have hnat := congrArg beNat heq
    rw [beNat_beBytes, beNat_beBytes, Nat.mod_eq_of_lt ((ZMod.val_lt u).trans p256_lt),
      Nat.mod_eq_of_lt ((ZMod.val_lt v).trans p256_lt)] at hnat
    exact ZMod.val_injective p256 hnat
  obtain ⟨hx, hy⟩ := List.append_inj hbs' (by rw [beBytes_length, beBytes_length])
  obtain rfl := hval hx
  obtain rfl := hval hy
  rw [hP, hQ]

/-- The calls of a command return what the library leaves. -/
structure Env.CallsUEcc (env : Env) : Prop where
  makeKey : ∃ random pos pos',
    UEcc.makeKey random 64 pos = (some (env.makeKey.1.val, env.makeKey.2.val), pos')
  sharedSecret : ∀ (pub : Bytes 64) (priv : Bytes 32), ∃ random pos ok pos',
    UEcc.sharedSecret random pos pub.val priv.val =
      (some ((env.sharedSecret pub priv).val, ok), pos')
  sign : ∀ priv digest : Bytes 32, ∃ random pos pos',
    UEcc.sign random priv.val digest.val 64 pos = (some (env.sign priv digest).val, pos')

section

variable {env env' : Env}

theorem Env.CallsUEcc.keyPair (h : env.CallsUEcc) :
    ∃ d, IsKeyPair env.makeKey.1.val env.makeKey.2.val d := by
  obtain ⟨random, pos, pos', hkey⟩ := h.makeKey
  exact makeKey_pair hkey

/-- The two numbers of a signature are accepted under the public key, unless the first
one is not reduced or the second one is zero. -/
def AcceptedUnder (pub digest : List UInt8) (r s : ℕ) : Prop :=
  ∃ Q, PointBytes pub Q ∧ (EcdsaVerifies Q digest r s ↔ r < n256 ∧ s ≠ 0)

theorem Env.CallsUEcc.accepted (h : env.CallsUEcc) (h' : env'.CallsUEcc) (digest : Bytes 32) :
    AcceptedUnder env.makeKey.1.val digest.val
      (beNat ((env'.sign env.makeKey.2 digest).val.take 32))
      (beNat ((env'.sign env.makeKey.2 digest).val.drop 32)) := by
  obtain ⟨d, hd⟩ := h.keyPair
  obtain ⟨random, pos, pos', hsign⟩ := h'.sign env.makeKey.2 digest
  obtain ⟨k, hk⟩ := sign_spec hd.priv_eq (lt_of_le_of_lt hd.high (by decide)) hsign
  exact ⟨_, hd.pub_bytes, hk.verifies_iff⟩

end

/-! ## A generator whose numbers are small -/

/-- The double of the generator. -/
def doubleX : List UInt8 :=
  [0x7C, 0xF2, 0x7B, 0x18, 0x8D, 0x03, 0x4F, 0x7E, 0x8A, 0x52, 0x38, 0x03, 0x04, 0xB5, 0x1A,
    0xC3, 0xC0, 0x89, 0x69, 0xE2, 0x77, 0xF2, 0x1B, 0x35, 0xA6, 0x0B, 0x48, 0xFC, 0x47, 0x66,
    0x99, 0x78]

def doubleY : List UInt8 :=
  [0x07, 0x77, 0x55, 0x10, 0xDB, 0x8E, 0xD0, 0x40, 0x29, 0x3D, 0x9A, 0xC6, 0x9F, 0x74, 0x30,
    0xDB, 0xBA, 0x7D, 0xAD, 0xE6, 0x3C, 0xE9, 0x82, 0x29, 0x9E, 0x04, 0xB7, 0x9D, 0x22, 0x78,
    0x73, 0xD1]

def doubleKey : Bytes 64 := Bytes.fill 0 64 (doubleX ++ doubleY)

/-- The calls are those of the library with this generator. -/
def libraryEnv : Env :=
  { hostEnv with
    makeKey := (doubleKey, Bytes.fill 0 32 (beBytes 32 2))
    sharedSecret := fun pub priv =>
      Bytes.fill 0 32
        (((UEcc.sharedSecret (smallRandom 2) 0 pub.val priv.val).1.map Prod.fst).getD [])
    sign := fun priv digest =>
      Bytes.fill 0 64 ((UEcc.sign (smallRandom 2) priv.val digest.val 64 0).1.getD []) }

theorem double_bytes : PointBytes doubleKey.val (2 • generator) := by
  have hy : (gy : Fp) ≠ 0 := natCast_ne_zero (by decide) (by decide)
  obtain ⟨hz, h', hdouble⟩ := double_represents (h := generator_nonsingular) two_mul_half a₄_eq hy
    one_ne_zero rfl
  have hne := pow_ne_zero 2 (hz.trans_ne (mul_ne_zero hy (pow_ne_zero 4 one_ne_zero)))
  have hne' := pow_ne_zero 3 (hz.trans_ne (mul_ne_zero hy (pow_ne_zero 4 one_ne_zero)))
  refine ⟨_, _, h', hdouble, ?_⟩
  rw [(div_eq_iff hne).2 (show _ = (beNat doubleX : Fp) * _ by decide +kernel),
    (div_eq_iff hne').2 (show _ = (beNat doubleY : Fp) * _ by decide +kernel)]
  decide +kernel

section

variable {random : ℕ → UInt8} {pos pos' tries : ℕ} {priv hash sig pub secret : List UInt8}
  {k : Vli} {ok : Bool}

theorem sharedSecret_length (h : UEcc.sharedSecret random pos pub priv =
    (some (secret, ok), pos')) : secret.length = 32 := by
  unfold UEcc.sharedSecret at h
  dsimp only at h
  split at h
  · exact absurd (Prod.mk.inj h).1 (by simp)
  · have hsecret := Option.some.inj (Prod.mk.inj h).1
    rw [← (Prod.mk.inj hsecret).1, nativeToBytes_eq]
    exact beBytes_length 32 _

theorem signWithK_length (h : signWithK random pos priv hash k = (some sig, pos')) :
    sig.length = 64 := by
  have hnone : ∀ {pos : ℕ}, ((none : Option (List UInt8)), pos) ≠ (some sig, pos') :=
    fun heq => absurd (Prod.mk.inj heq).1 (by simp)
  unfold signWithK at h
  dsimp only at h
  split at h
  · exact absurd h hnone
  split at h
  · exact absurd h hnone
  split at h
  · exact absurd h hnone
  split at h
  · exact absurd h hnone
  split at h
  · exact absurd h hnone
  rw [← Option.some.inj (Prod.mk.inj h).1, List.length_append, nativeToBytes_eq,
    nativeToBytes_eq, beBytes_length, beBytes_length]
  rfl

theorem sign_length (h : UEcc.sign random priv hash tries pos = (some sig, pos')) :
    sig.length = 64 := by
  induction tries generalizing pos with
  | zero => exact absurd (Prod.mk.inj h).1 (by simp)
  | succ tries ih =>
      rw [UEcc.sign] at h
      split at h
      · exact absurd (Prod.mk.inj h).1 (by simp)
      · split at h
        · next hsign =>
            rw [(Prod.mk.inj h).1] at hsign
            exact signWithK_length hsign
        · exact ih h

end

theorem callsUEcc_libraryEnv : libraryEnv.CallsUEcc := by
  have hpriv : (Bytes.fill 0 32 (beBytes 32 2)).val = beBytes 32 2 :=
    Bytes.fill_val (beBytes_length 32 2)
  have hsmall : (2 : UInt8) = 2 ∨ (2 : UInt8) = 3 := .inl rfl
  constructor
  · obtain ⟨point, pos', hcompute, hmake⟩ := makeKey_small hsmall
    have htwo : vliNat (smallWords 2) = 2 := by decide
    obtain ⟨-, -, hpoint⟩ := computePublicKey_some rfl (by decide) (by rw [htwo]; decide) hcompute
    rw [htwo] at hpoint
    refine ⟨smallRandom 2, 0, pos', ?_⟩
    rw [hmake, pointBytes_unique hpoint.bytes double_bytes, nativeToBytes_eq, htwo]
    exact congrArg (fun priv => (some (doubleKey.val, priv), pos')) hpriv.symm
  · intro pub priv
    obtain ⟨secret, ok, pos', hsecret⟩ := sharedSecret_small hsmall pub.val priv.val
    refine ⟨smallRandom 2, 0, ok, pos', ?_⟩
    have henv : libraryEnv.sharedSecret pub priv = Bytes.fill 0 32 secret := by
      simp only [libraryEnv, hsecret]
      rfl
    rw [hsecret, henv, Bytes.fill_val (sharedSecret_length hsecret)]
  · intro priv digest
    obtain ⟨sig, hsign⟩ := sign_small priv.val digest.val priv.length_val
    refine ⟨smallRandom 2, 0, 96, ?_⟩
    have henv : libraryEnv.sign priv digest = Bytes.fill 0 64 sig := by
      simp only [libraryEnv, hsign]
      rfl
    rw [hsign, henv, Bytes.fill_val (sign_length hsign)]

end UnsoloKey
