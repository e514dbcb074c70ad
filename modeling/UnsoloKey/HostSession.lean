import UnsoloKey.CipherInverse
import UnsoloKey.PinTransitions
import Mathlib.Tactic

/-!
# The host's side of a PIN protocol

The host and the device derive their keys from one x-coordinate.  What the host
encrypts the device decrypts, and the other way round, and both compute the same HMAC.
The host is that of validate_full.py.
-/

namespace UnsoloKey

open Rd

structure HostSession where
  protocol : ℕ
  hmac : Bytes 32
  aes : Bytes 32

def hkdfCtap2 (z : Bytes 32) : Bytes 32 × Bytes 32 :=
  let hkdf := fun info : List UInt8 =>
    hmacSha256 (hmacSha256 (Bytes.zero 32).val z.val).val (info ++ [0x01])
  (hkdf (ascii "CTAP2 HMAC key"), hkdf (ascii "CTAP2 AES key"))

/-- `pin_session`, from the x-coordinate. -/
def hostSession (protocol : ℕ) (z : Bytes 32) : HostSession :=
  if protocol = 2 then ⟨protocol, (hkdfCtap2 z).1, (hkdfCtap2 z).2⟩
  else ⟨protocol, sha256 z.val, sha256 z.val⟩

namespace HostSession

/-- AES-256-CBC of whole blocks; under protocol 2 the initialization vector is put in
front, under protocol 1 it is zero. -/
def encrypt (h : HostSession) (iv : Aes.Block) (data : List UInt8) : List UInt8 :=
  if h.protocol = 2 then iv.val ++ (aesEncrypt h.aes iv (data.length / 16) data).val
  else (aesEncrypt h.aes (Bytes.zero 16) (data.length / 16) data).val

def decrypt (h : HostSession) (enc : List UInt8) : List UInt8 :=
  if h.protocol = 2 then
    (aesDecrypt h.aes (Bytes.fill 0 16 (enc.take 16)) ((enc.length - 16) / 16)
      (enc.drop 16)).val
  else (aesDecrypt h.aes (Bytes.zero 16) (enc.length / 16) enc).val

/-- A pinUvAuthParam under the session key. -/
def authenticate (h : HostSession) (msg : List UInt8) : List UInt8 :=
  (hmacSha256 h.hmac.val msg).val.take (if h.protocol = 2 then 32 else 16)

end HostSession

def pad64 (pin : List UInt8) : List UInt8 := pin ++ List.replicate (64 - pin.length) 0

/-- What both sides keep of a PIN. -/
def pinHashOf (pin : List UInt8) : Bytes 16 := Bytes.fill 0 16 ((sha256 pin).val.take 16)

/-! ## The two sides agree -/

/-- The device has derived the keys of the host. -/
structure PinSession.SharedWith (s : PinSession) (h : HostSession) : Prop where
  protocol : s.activePinProtocol = h.protocol
  known : h.protocol = 1 ∨ h.protocol = 2
  aes : s.pinSharedSecret = h.aes
  hmac : s.mac = fun msg => hmacSha256 h.hmac.val msg

theorem hkdf_same (z : Bytes 32) : hkdfSha256Ctap2 z = hkdfCtap2 z := rfl

theorem agree_sharedWith {s : PinSession} {p : ℕ} (hactive : s.activePinProtocol = p)
    (hknown : p = 1 ∨ p = 2) (z : Bytes 32) : (s.agree z).SharedWith (hostSession p z) := by
  subst hactive
  unfold PinSession.agree hostSession
  by_cases htwo : s.activePinProtocol = 2
  · rw [if_pos htwo, if_pos htwo]
    refine ⟨rfl, hknown, by rw [hkdf_same], ?_⟩
    funext msg
    simp only [PinSession.mac, htwo, if_true, hkdf_same]
  · rw [if_neg htwo, if_neg htwo]
    refine ⟨rfl, hknown, rfl, ?_⟩
    funext msg
    simp only [PinSession.mac, htwo, if_false]

section

variable {s : PinSession} {h : HostSession} {iv : Aes.Block} {data : List UInt8} {n : ℕ}

/-- The device reads what the host has encrypted. -/
theorem PinSession.SharedWith.decrypt_encrypt (hshared : s.SharedWith h)
    (hlen : data.length = 16 * n) : (s.decrypt n (h.encrypt iv data)).val = data := by
  have hblocks : data.length / 16 = n := by omega
  unfold PinSession.decrypt HostSession.encrypt
  rw [hshared.protocol, hshared.aes, hblocks]
  split_ifs with htwo
  · have hiv : iv.val.length = 16 := Bytes.length_val iv
    have hfill : Bytes.fill 0 16 iv.val = iv := Subtype.ext (Bytes.fill_val hiv)
    rw [List.take_left' hiv, List.drop_left' hiv, hfill, aesDecrypt_aesEncrypt h.aes iv n hlen]
  · exact aesDecrypt_aesEncrypt h.aes (Bytes.zero 16) n hlen

theorem HostSession.encrypt_length (hlen : data.length = 16 * n) :
    (h.encrypt iv data).length = 16 * n + if h.protocol = 2 then 16 else 0 := by
  have hblocks : data.length / 16 = n := by omega
  unfold HostSession.encrypt
  rw [hblocks]
  split_ifs
  · rw [List.length_append, Bytes.length_val, Bytes.length_val, Nat.add_comm]
  · rw [Bytes.length_val, Nat.add_zero]

theorem HostSession.decrypt_encrypt (hlen : data.length = 16 * n) :
    h.decrypt (h.encrypt iv data) = data := by
  have hblocks : data.length / 16 = n := by omega
  unfold HostSession.decrypt HostSession.encrypt
  rw [hblocks]
  by_cases htwo : h.protocol = 2
  · have hiv : iv.val.length = 16 := Bytes.length_val iv
    have hfill : Bytes.fill 0 16 iv.val = iv := Subtype.ext (Bytes.fill_val hiv)
    have hlength : (iv.val ++ (aesEncrypt h.aes iv n data).val).length = 16 + 16 * n := by
      rw [List.length_append, Bytes.length_val, Bytes.length_val]
    rw [if_pos htwo, if_pos htwo, hlength, List.take_left' hiv, List.drop_left' hiv, hfill,
      Nat.add_sub_cancel_left, Nat.mul_div_cancel_left n (by decide),
      aesDecrypt_aesEncrypt h.aes iv n hlen]
  · rw [if_neg htwo, if_neg htwo, Bytes.length_val, Nat.mul_div_cancel_left n (by decide),
      aesDecrypt_aesEncrypt h.aes (Bytes.zero 16) n hlen]

theorem PinSession.SharedWith.authLen (hshared : s.SharedWith h) :
    s.expectedAuthLen = if h.protocol = 2 then 32 else 16 := by
  unfold PinSession.expectedAuthLen
  rw [hshared.protocol]

theorem PinSession.SharedWith.authenticate_eq (hshared : s.SharedWith h) (msg : List UInt8) :
    h.authenticate msg = (s.mac msg).val.take s.expectedAuthLen := by
  rw [hshared.authLen, hshared.hmac]
  rfl

end

/-! ## The PIN in its block -/

theorem pad64_length {pin : List UInt8} (hpin : pin.length ≤ 64) : (pad64 pin).length = 64 := by
  rw [pad64, List.length_append, List.length_replicate]
  omega

/-- The zeros at the end are removed, and those inside the PIN are not. -/
theorem strip_pad64 {pin : List UInt8} (hlast : pin.getLast? ≠ some 0) :
    ((pad64 pin).reverse.dropWhile (· = 0)).reverse = pin := by
  rw [pad64, List.reverse_append, List.reverse_replicate, List.dropWhile_append_of_pos]
  · rw [List.reverse_eq_iff]
    cases hrev : pin.reverse with
    | nil => rfl
    | cons b rest =>
        have hb : b ≠ 0 := by
          intro hzero
          apply hlast
          rw [← List.head?_reverse, hrev, hzero]
          rfl
        rw [List.dropWhile_cons_of_neg (by simpa using hb)]
  · intro b hb
    simpa using (List.mem_replicate.1 hb).2

theorem newPinHash_encrypt {s : PinSession} {h : HostSession} (hshared : s.SharedWith h)
    {pin : List UInt8} (hshort : 4 ≤ pin.length) (hlong : pin.length ≤ 64)
    (hlast : pin.getLast? ≠ some 0) (iv : Aes.Block) :
    s.newPinHash (h.encrypt iv (pad64 pin)) = .ok (pinHashOf pin) := by
  have hplain : (s.decrypt 4 (h.encrypt iv (pad64 pin))).val = pad64 pin :=
    hshared.decrypt_encrypt (pad64_length hlong)
  unfold PinSession.newPinHash
  dsimp only
  rw [hplain, strip_pad64 hlast, if_neg (by omega)]
  rfl

end UnsoloKey
