import UnsoloKey.Device
import UnsoloKey.Aes
import Mathlib.Tactic

/-!
# authenticatorClientPIN

`process_client_pin` of pin.c.  The checks which setPIN and changePIN make
before they touch the stored PIN are functions of their own, `setPinChecks` and
`changePinChecks`: an error is the status byte of the response.
-/

namespace UnsoloKey

open Rd

/-- The two keys of protocol 2, for HMAC and for AES. -/
def hkdfSha256Ctap2 (ikm : Bytes 32) : Bytes 32 × Bytes 32 :=
  let prk := hmacSha256 (List.replicate 32 0) ikm.val
  (hmacSha256 prk.val (ascii "CTAP2 HMAC key" ++ [0x01]),
    hmacSha256 prk.val (ascii "CTAP2 AES key" ++ [0x01]))

namespace PinSession

/-- The session keys from the shared x-coordinate. -/
def agree (s : PinSession) (sharedSecretX : Bytes 32) : PinSession :=
  if s.activePinProtocol = 2 then
    { s with
      hmacKey := (hkdfSha256Ctap2 sharedSecretX).1
      pinSharedSecret := (hkdfSha256Ctap2 sharedSecretX).2 }
  else
    { s with
      pinSharedSecret := sha256 sharedSecretX.val
      hmacKey := sha256 sharedSecretX.val }

def expectedAuthLen (s : PinSession) : ℕ :=
  if s.activePinProtocol = 2 then 32 else 16

def mac (s : PinSession) (msg : List UInt8) : Bytes 32 :=
  if s.activePinProtocol = 2 then hmacSha256 s.hmacKey.val msg
  else hmacSha256 s.pinSharedSecret.val msg

/-- Decrypt `n` blocks; protocol 2 puts the initialization vector in front. -/
def decrypt (s : PinSession) (n : ℕ) (enc : List UInt8) : Bytes (16 * n) :=
  if s.activePinProtocol = 2 then
    aesDecrypt s.pinSharedSecret (Bytes.fill 0 16 (enc.take 16)) n (enc.drop 16)
  else aesDecrypt s.pinSharedSecret (Bytes.zero 16) n enc

/-- The hash of the PIN in `newPinEnc`, or the policy violation. -/
def newPinHash (s : PinSession) (newPinEnc : List UInt8) :
    Except UInt8 (Bytes 16) :=
  let newPin := (s.decrypt 4 newPinEnc).val
  let pin := (newPin.reverse.dropWhile (· = 0)).reverse
  if pin.length < 4 then .error 0x37
  else .ok (Bytes.fill 0 16 ((sha256 pin).val.take 16))

end PinSession

/-- One coordinate of the host's key, right-aligned. -/
def coordinate (v : MapValue) : Rd (Bytes 32) := do
  if v.len = 33 then
    return Bytes.fill 0 32 (← bytes (v.ptr + 1) 32)
  else if v.len = 32 then
    return Bytes.fill 0 32 (← bytes v.ptr 32)
  else
    return Bytes.fill 0 32 (0 :: (← bytes v.ptr 31))

def badCoordinate (v : MapValue) : Bool := v.len < 31 ∨ v.len > 33

/-- The host's public key from the keyAgreement parameter. -/
def hostPublicKey (env : Env) (req reqLen : ℕ) :
    Rd (Except UInt8 (Bytes 64)) := do
  match (← getCborMapItem req reqLen 0x03).pointer env with
  | none => return .error 0x01
  | some (ka, kaLen) =>
      match ← getCborMapNegValue ka kaLen 2,
          ← getCborMapNegValue ka kaLen 3 with
      | some x, some y =>
          if badCoordinate x ∨ badCoordinate y then return .error 0x91
          let xs ← coordinate x
          let ys ← coordinate y
          return .ok ⟨xs.val ++ ys.val, by simp⟩
      | _, _ => return .error 0x91

/-! ## setPIN and changePIN -/

/-- setPIN up to the point where the PIN is saved. -/
def setPinChecks (flash : Mem) (s : PinSession) (req reqLen : ℕ) :
    Rd (Except UInt8 (Bytes 16)) := do
  let pinAuth ← getCborMapString req reqLen 0x04
  let newPinEnc ← getCborMapString req reqLen 0x05
  match pinAuth with
  | none => return .error 0x30
  | some (pinAuth, pinAuthLen) =>
      if (pinLoad flash).isSome then return .error 0x33
      match newPinEnc with
      | none => return .error 0x01
      | some (newPinEnc, newPinEncLen) =>
          if s.activePinProtocol = 1 ∧ newPinEncLen ≠ 64 then
            return .error 0x01
          if s.activePinProtocol = 2 ∧ newPinEncLen ≠ 80 then
            return .error 0x01
          if pinAuthLen ≠ s.expectedAuthLen then return .error 0x01
          let enc ← bytes newPinEnc newPinEncLen
          let auth ← bytes pinAuth s.expectedAuthLen
          if (s.mac enc).val.take s.expectedAuthLen ≠ auth then
            return .error 0x33
          return s.newPinHash enc

def setPin (d : Device) (req reqLen : ℕ) : Rd Outcome := do
  match ← setPinChecks d.flash.mem d.pin req reqLen with
  | .error status => return d.reply [status]
  | .ok pinHash => return d.replyGuess none (pinSaveOps pinHash) [0x00]

/-- changePIN up to the comparison of the old PIN: the encrypted new PIN, and
the old PIN's hash as the host claims it. -/
def changePinChecks (s : PinSession) (req reqLen : ℕ) :
    Rd (Except UInt8 (List UInt8 × Bytes 16)) := do
  let pinAuth ← getCborMapString req reqLen 0x04
  let newPinEnc ← getCborMapString req reqLen 0x05
  let pinHashEnc ← getCborMapString req reqLen 0x06
  match pinAuth, newPinEnc, pinHashEnc with
  | some (pinAuth, pinAuthLen), some (newPinEnc, newPinEncLen),
      some (pinHashEnc, pinHashEncLen) =>
      if pinAuthLen ≠ s.expectedAuthLen then return .error 0x01
      if s.activePinProtocol = 1 ∧
          (newPinEncLen ≠ 64 ∨ pinHashEncLen ≠ 16) then
        return .error 0x01
      if s.activePinProtocol = 2 ∧
          (newPinEncLen ≠ 80 ∨ pinHashEncLen ≠ 32) then
        return .error 0x01
      let newPin ← bytes newPinEnc newPinEncLen
      let pinHash ← bytes pinHashEnc pinHashEncLen
      let auth ← bytes pinAuth s.expectedAuthLen
      if (s.mac (newPin ++ pinHash)).val.take s.expectedAuthLen ≠ auth then
        return .error 0x33
      return .ok (newPin, s.decrypt 1 pinHash)
  | _, _, _ => return .error 0x01

/-- The comparison of the old PIN and what follows from it. -/
def changePinOutcome (d : Device) (newPinEnc : List UInt8)
    (currentHash : Bytes 16) : Outcome :=
  match pinLoad d.flash.mem with
  | none => d.replyGuess none (pinDecrementRetriesOps d.flash.mem) [0x31]
  | some p =>
      if currentHash ≠ p.pinHash then
        d.replyGuess (some currentHash) (pinDecrementRetriesOps d.flash.mem)
          [0x31]
      else
        match d.pin.newPinHash newPinEnc with
        | .error status => d.replyGuess (some currentHash) [] [status]
        | .ok pinHash =>
            d.replyGuess (some currentHash) (pinSaveOps pinHash) [0x00]

def changePin (d : Device) (req reqLen : ℕ) : Rd Outcome := do
  match ← changePinChecks d.pin req reqLen with
  | .error status => return d.reply [status]
  | .ok (newPinEnc, currentHash) =>
      return changePinOutcome d newPinEnc currentHash

/-! ## getPinToken -/

/-- The claimed PIN hash of a token request. -/
def tokenGuess (s : PinSession) (req reqLen : ℕ) :
    Rd (Except UInt8 (Bytes 16)) := do
  match ← getCborMapString req reqLen 0x06 with
  | none => return .error 0x93
  | some (pinHashEnc, pinHashEncLen) =>
      if s.activePinProtocol = 1 ∧ pinHashEncLen < 16 then return .error 0x93
      if s.activePinProtocol = 2 ∧ pinHashEncLen < 32 then return .error 0x93
      let enc ← bytes pinHashEnc (if s.activePinProtocol = 2 then 32 else 16)
      return .ok (s.decrypt 1 enc)

/-- The session after a token has been issued. -/
def PinSession.issueToken (s : PinSession) (env : Env) (subCmd : ℕ) :
    PinSession :=
  { s with
    pinToken := env.rng 0 32
    hasPinToken := true
    pinTokenLen := if subCmd = 0x05 ∧ s.activePinProtocol ≠ 2 then 16 else 32 }

def PinSession.tokenEnc (s : PinSession) (env : Env) (subCmd : ℕ) :
    List UInt8 :=
  if s.activePinProtocol = 2 then
    (env.rng 32 16).val ++
      (aesEncrypt s.pinSharedSecret (env.rng 32 16) 2 s.pinToken.val).val
  else if subCmd = 0x05 then
    (aesEncrypt s.pinSharedSecret (Bytes.zero 16) 1 s.pinToken.val).val
  else (aesEncrypt s.pinSharedSecret (Bytes.zero 16) 2 s.pinToken.val).val

def tokenResponse (tokenEnc : List UInt8) : List UInt8 :=
  okResponse ((((CborEncoder.init respCapacity).encodeMap 1).encodeUint 2
    ).encodeByteString tokenEnc)

/-- The comparison of the PIN and what follows from it. -/
def pinTokenOutcome (env : Env) (d : Device) (subCmd : ℕ)
    (currentHash : Bytes 16) : Outcome :=
  match pinLoad d.flash.mem with
  | none => d.reply [0x35]
  | some p =>
      if p.retries = 0 then d.reply [0x32]
      else if p.pinHash ≠ currentHash then
        let s := { d.pin with
          gPinDebug := ⟨p.pinHash.val ++ currentHash.val, by simp⟩ }
        { d with pin := s }.replyGuess (some currentHash)
          (pinDecrementRetriesOps d.flash.mem) [0x31]
      else
        let s := d.pin.issueToken env subCmd
        { d with pin := s }.replyGuess (some currentHash)
          (pinResetRetriesOps d.flash.mem)
          (tokenResponse (s.tokenEnc env subCmd))

def getPinToken (env : Env) (d : Device) (req reqLen subCmd : ℕ) :
    Rd Outcome := do
  match ← tokenGuess d.pin req reqLen with
  | .error status => return d.reply [status]
  | .ok currentHash => return pinTokenOutcome env d subCmd currentHash

/-! ## The subcommands -/

def getPinRetries (d : Device) : Outcome :=
  match pinLoad d.flash.mem with
  | none => d.reply [0x35]
  | some p =>
      d.reply (okResponse ((((CborEncoder.init respCapacity).encodeMap 1
        ).encodeUint 3).encodeUint p.retries.toNat))

def keyAgreementResponse (pub : Bytes 64) : List UInt8 :=
  let e := ((CborEncoder.init respCapacity).encodeMap 1).encodeUint 1
  let e := e.encodeMap 5
  let e := (e.encodeUint 1).encodeUint 2
  let e := (e.encodeUint 3).encodeInt (-25)
  let e := (e.encodeInt (-1)).encodeUint 1
  let e := (e.encodeInt (-2)).encodeByteString (pub.val.take 32)
  let e := (e.encodeInt (-3)).encodeByteString (pub.val.drop 32)
  okResponse e

def getKeyAgreement (env : Env) (d : Device) : Outcome :=
  let s := { d.pin with
    ecdhPublicKey := env.makeKey.1
    ecdhPrivateKey := env.makeKey.2
    ecdhKeyValid := true
    hasPinToken := false }
  { d with pin := s }.reply (keyAgreementResponse env.makeKey.1)

/-- `process_client_pin` up to the subcommands which need the session keys: an
outcome, or the subcommand with the keys agreed on. -/
def clientPinFront (env : Env) (d : Device) (req reqLen : ℕ) :
    Rd (Except Outcome (ℕ × Device)) := do
  if reqLen < 1 then return .error (d.reply [])
  match ← getCborMapInt req reqLen 0x02 with
  | none => return .error (d.reply [0x01])
  | some subCmd =>
      let proto ← getCborMapInt req reqLen 0x01
      let d := { d with pin := { d.pin with
        activePinProtocol := proto.getD d.pin.activePinProtocol } }
      if subCmd ≠ 0x01 ∧ d.pin.activePinProtocol ≠ 1 ∧
          d.pin.activePinProtocol ≠ 2 then
        return .error (d.reply [0x2B])
      else if subCmd = 0x01 then return .error (getPinRetries d)
      else if subCmd = 0x02 then return .error (getKeyAgreement env d)
      else if subCmd = 0x03 ∨ subCmd = 0x04 ∨ subCmd = 0x05 ∨ subCmd = 0x09 then
        if ¬ d.pin.ecdhKeyValid then return .error (d.reply [0x01])
        match ← hostPublicKey env req reqLen with
        | .error status => return .error (d.reply [status])
        | .ok hostPub =>
            let shared := env.sharedSecret hostPub d.pin.ecdhPrivateKey
            return .ok (subCmd, { d with pin := d.pin.agree shared })
      else return .error (d.reply [0x01])

def processClientPin (env : Env) (d : Device) (req reqLen : ℕ) :
    Rd Outcome := do
  match ← clientPinFront env d req reqLen with
  | .error o => return o
  | .ok (subCmd, d) =>
      if subCmd = 0x03 then setPin d req reqLen
      else if subCmd = 0x04 then changePin d req reqLen
      else getPinToken env d req reqLen subCmd

end UnsoloKey
