import UnsoloKey.CborEncode
import UnsoloKey.PasskeyStore
import UnsoloKey.PinPage
import UnsoloKey.Sha256
import Mathlib.Tactic

/-!
# The device around a command

A command sees the flash, the globals of pin.c and fido2.c, and its request.
What it cannot determine itself comes from its environment: how the touch wait
ends, random bytes, and the results of the elliptic curve library.  Its outcome
is the response, the new globals and the flash steps it has issued; two further
fields record which guess was compared with the stored PIN hash and under which
token a pinUvAuthParam has verified.
-/

namespace UnsoloKey

/-- The globals of pin.c. -/
structure PinSession where
  pinSharedSecret : Bytes 32
  hmacKey : Bytes 32
  activePinProtocol : ℕ
  gPinDebug : Bytes 32
  pinToken : Bytes 32
  pinTokenLen : ℕ
  hasPinToken : Bool
  ecdhPrivateKey : Bytes 32
  ecdhPublicKey : Bytes 64
  ecdhKeyValid : Bool

/-- The globals of fido2.c. -/
structure CtapSession where
  gCurrentCid : ℕ
  gEnumRpIdx : ℕ
  gEnumCredIdx : ℕ
  gEnumRpHash : Bytes 32
  gGaRpHash : Bytes 32
  gGaCount : ℕ
  gGaIdx : ℕ
  gGaCdh : Bytes 32
  touchAdcInitDone : Bool
  touchBaseline : ℕ

structure Device where
  flash : Flash
  pin : PinSession
  ctap : CtapSession

def Bytes.zero (n : ℕ) : Bytes n := Bytes.fill 0 n []

def PinSession.powerUp : PinSession where
  pinSharedSecret := Bytes.zero 32
  hmacKey := Bytes.zero 32
  activePinProtocol := 1
  gPinDebug := Bytes.zero 32
  pinToken := Bytes.zero 32
  pinTokenLen := 0
  hasPinToken := false
  ecdhPrivateKey := Bytes.zero 32
  ecdhPublicKey := Bytes.zero 64
  ecdhKeyValid := false

def CtapSession.powerUp : CtapSession where
  gCurrentCid := 0
  gEnumRpIdx := 0
  gEnumCredIdx := 0
  gEnumRpHash := Bytes.zero 32
  gGaRpHash := Bytes.zero 32
  gGaCount := 0
  gGaIdx := 0
  gGaCdh := Bytes.zero 32
  touchAdcInitDone := false
  touchBaseline := 0

def Device.powerUp (mem : Mem) : Device where
  flash := ⟨mem, false, false⟩
  pin := PinSession.powerUp
  ctap := CtapSession.powerUp

/-- How `fido2_wait_for_user_presence` ends. -/
inductive Presence where
  | confirmed
  | cancelled
  | timedOut
  deriving DecidableEq

def Presence.status : Presence → UInt8
  | .confirmed => 0x00
  | .cancelled => 0x2D
  | .timedOut => 0x2F

/-- What a command meets from outside.  `makeKey` is what `uECC_make_key`
leaves in the public and the private key; `strayItem` is the pointer which a
call of `get_cbor_map_item` without a `return` happens to leave. -/
structure Env where
  presence : Presence
  baseline : ℕ
  touchValue : ℕ
  sysTick : ℕ
  random : ℕ → UInt8
  makeKey : Bytes 64 × Bytes 32
  sharedSecret : Bytes 64 → Bytes 32 → Bytes 32
  sign : Bytes 32 → Bytes 32 → Bytes 64
  strayItem : Option ℕ

/-- `n` calls of the generator after `start` earlier ones. -/
def Env.rng (env : Env) (start n : ℕ) : Bytes n :=
  ⟨(List.range n).map fun i => env.random (start + i), by simp⟩

/-- The pointer and length which the caller of `get_cbor_map_item` sees; the
length is zero unless the key was found. -/
def ItemResult.pointer (env : Env) : ItemResult → Option (ℕ × ℕ)
  | .null => none
  | .item ptr len => some (ptr, len)
  | .fallsOff => env.strayItem.map fun ptr => (ptr, 0)

structure Outcome where
  resp : List UInt8
  pin : PinSession
  ctap : CtapSession
  ops : List FlashOp
  guess : Option (Bytes 16)
  verified : Option (List UInt8)

/-- Respond and change nothing. -/
def Device.reply (d : Device) (resp : List UInt8) : Outcome where
  resp := resp
  pin := d.pin
  ctap := d.ctap
  ops := []
  guess := none
  verified := none

/-- Respond after a pinUvAuthParam check, with flash steps issued. -/
def Device.replyUnder (d : Device) (verified : Option (List UInt8))
    (ops : List FlashOp) (resp : List UInt8) : Outcome where
  resp := resp
  pin := d.pin
  ctap := d.ctap
  ops := ops
  guess := none
  verified := verified

/-- Respond after the comparison of a guess, with flash steps issued. -/
def Device.replyGuess (d : Device) (guess : Option (Bytes 16))
    (ops : List FlashOp) (resp : List UInt8) : Outcome where
  resp := resp
  pin := d.pin
  ctap := d.ctap
  ops := ops
  guess := guess
  verified := none

def okResponse (e : CborEncoder) : List UInt8 := 0x00 :: e.buffer

def respCapacity : ℕ := 1024

def Outcome.status (o : Outcome) : Option UInt8 := o.resp.head?

section

variable (d : Device) (status : UInt8) (rest : List UInt8) (ops : List FlashOp)

@[simp] theorem reply_status :
    (d.reply (status :: rest)).status = some status := rfl

@[simp] theorem replyUnder_status (verified : Option (List UInt8)) :
    (d.replyUnder verified ops (status :: rest)).status = some status := rfl

@[simp] theorem replyGuess_status (guess : Option (Bytes 16)) :
    (d.replyGuess guess ops (status :: rest)).status = some status := rfl

end

end UnsoloKey
