import UnsoloKey.ClientPin
import UnsoloKey.Trace
import Mathlib.Tactic

/-!
# The CTAP2 commands

`fido2_process_cbor` and the commands of fido2.c.  The request starts at
address 0 of the request memory with its command byte; the parameter map is the
`reqLen - 1` bytes after it.
-/

namespace UnsoloKey

open Rd

def aaguid : List UInt8 :=
  [0x11, 0x22, 0x33, 0x44, 0x55, 0x66, 0x77, 0x88, 0x99, 0xAA, 0xBB, 0xCC, 0xDD,
    0xEE, 0xFF, 0x00]

/-! ## Signatures -/

/-- Leading zero bytes which a positive number does not need are dropped. -/
def derStrip : List UInt8 → List UInt8
  | b :: c :: rest =>
      if b = 0 ∧ c &&& 0x80 = 0 then derStrip (c :: rest) else b :: c :: rest
  | bs => bs

/-- One number of the signature: tag, length, padding and bytes. -/
def derInteger (raw : List UInt8) : List UInt8 :=
  let r := derStrip raw
  let pad : List UInt8 := if r.headD 0 &&& 0x80 ≠ 0 then [0x00] else []
  0x02 :: UInt8.ofNat (r.length + pad.length) :: (pad ++ r)

def ecdsaSigToDer (sigRaw : Bytes 64) : List UInt8 :=
  let r := derInteger (sigRaw.val.take 32)
  let s := derInteger (sigRaw.val.drop 32)
  0x30 :: UInt8.ofNat (r.length + s.length) :: (r ++ s)

/-! ## authenticatorGetInfo -/

def getInfoResponse (pinSet : Bool) : List UInt8 :=
  let e := (CborEncoder.init respCapacity).encodeMap 10
  let e := (e.encodeUint 1).encodeArray 2
  let e := (e.encodeTextString "FIDO_2_0").encodeTextString "FIDO_2_1"
  let e := (e.encodeUint 3).encodeByteString aaguid
  let e := (e.encodeUint 4).encodeMap 6
  let e := (e.encodeTextString "rk").encodeBool true
  let e := (e.encodeTextString "up").encodeBool true
  let e := (e.encodeTextString "clientPin").encodeBool pinSet
  let e := (e.encodeTextString "pinUvAuthToken").encodeBool true
  let e := (e.encodeTextString "credMgmt").encodeBool true
  let e := (e.encodeTextString "makeCredUvNotRqd").encodeBool true
  let e := (e.encodeUint 5).encodeUint 1024
  let e := (((e.encodeUint 6).encodeArray 2).encodeUint 1).encodeUint 2
  let e := (e.encodeUint 7).encodeUint passkeyNumSlots
  let e := (e.encodeUint 8).encodeUint 32
  let e := ((e.encodeUint 9).encodeArray 1).encodeTextString "usb"
  let e := ((e.encodeUint 10).encodeArray 1).encodeMap 2
  let e := (e.encodeTextString "type").encodeTextString "public-key"
  let e := (e.encodeTextString "alg").encodeInt (-7)
  let e := (e.encodeUint 15).encodeUint 4
  okResponse e

/-! ## Checks shared by MakeCredential and GetAssertion -/

/-- Whether `find_cbor_string` finds the key with the one-byte value `val`. -/
def hasOption (ptr len : ℕ) (key : String) (val : UInt8) : Rd Bool := do
  match ← findCborString ptr len (ascii key) with
  | some (p, 1) => return (← byte p) = val
  | _ => return false

/-- `search_len`, a `uint16_t` difference. -/
def searchLen (reqLen ptr : ℕ) : ℕ := u16 (reqLen + 65536 - u16 ptr)

/-- The HMAC key: the token, with the length kept beside it. -/
def PinSession.tokenKey (s : PinSession) : List UInt8 :=
  s.pinToken.val.take (if s.pinTokenLen > 0 then s.pinTokenLen
    else if s.activePinProtocol = 2 then 32 else 16)

/-- The pinUvAuthParam check over the clientDataHash. -/
def pinAuthValid (s : PinSession) (cdh : Option (ℕ × ℕ))
    (pinAuth pinAuthLen : ℕ) : Rd Bool := do
  match cdh with
  | none => return false
  | some (cdh, cdhLen) =>
      if ¬ (s.hasPinToken ∧ cdhLen ≥ 32) then return false
      let mac := hmacSha256 s.tokenKey (← bytes cdh 32)
      if s.activePinProtocol = 2 ∧ pinAuthLen = 32 then
        return mac.val = (← bytes pinAuth 32)
      else if s.activePinProtocol = 1 ∧ pinAuthLen = 16 then
        return mac.val.take 16 = (← bytes pinAuth 16)
      else return false

/-- `rpIdHash`: zero for a missing or empty rp.id. -/
def rpIdHashOf (rpId : Option (ℕ × ℕ)) : Rd (Bytes 32) := do
  match rpId with
  | none => return Bytes.zero 32
  | some (ptr, len) =>
      if len = 0 then return Bytes.zero 32
      return sha256 (← bytes ptr len)

/-- The globals after a touch wait. -/
def CtapSession.waited (c : CtapSession) (env : Env) : CtapSession :=
  { c with touchAdcInitDone := true, touchBaseline := env.baseline }

/-- `authData` up to the attested credential data; the counter is zero. -/
def authDataHeader (rpIdHash : Bytes 32) (flags : UInt8) : List UInt8 :=
  rpIdHash.val ++ [flags, 0, 0, 0, 0]

/-! ## authenticatorMakeCredential -/

/-- The options check of MakeCredential without a pinUvAuthParam; a status byte
ends the command. -/
def optionsRefused (pinSet : Bool) (options reqLen : ℕ) :
    Rd (Option UInt8) := do
  let len := searchLen reqLen options
  let uv ← hasOption options len "uv" 0xF5
  let rk ← hasOption options len "rk" 0xF5
  if uv then return some (if pinSet then 0x36 else 0x35)
  if rk ∧ pinSet then return some 0x36
  return none

/-- The excludeList scan: every position of the array is taken for a credential
id. -/
def excluded (flash : Mem) (rpIdHash : Bytes 32) : ℕ → ℕ → Rd Bool
  | 0, _ => return false
  | left + 1, ptr => do
      let id ← bytes ptr 32
      match passkeyFindByCredId flash (Bytes.fill 0 32 id) with
      | some i =>
          if (flash.slotKey i).rpIdHash = rpIdHash then return true
          excluded flash rpIdHash left (ptr + 1)
      | none => excluded flash rpIdHash left (ptr + 1)

def excludeListHit (flash : Mem) (rpIdHash : Bytes 32)
    (item : Option (ℕ × ℕ)) : Rd Bool := do
  match item with
  | none => return false
  | some (ptr, len) =>
      if len > 32 then excluded flash rpIdHash (len - 31) ptr
      else return false

/-- user.id and user.name; displayName stands in for a missing name. -/
def userStrings (item : Option (ℕ × ℕ)) :
    Rd (Option (ℕ × ℕ) × Option (ℕ × ℕ)) := do
  match item with
  | none => return (none, none)
  | some (ptr, len) =>
      let userId ← cborMapGetString ptr len (ascii "id")
      match ← cborMapGetString ptr len (ascii "name") with
      | some name => return (userId, some name)
      | none =>
          return (userId, ← cborMapGetString ptr len (ascii "displayName"))

/-- The COSE key inside the attested credential data. -/
def coseKey (pub : Bytes 64) : List UInt8 :=
  let e := (CborEncoder.init 77).encodeMap 5
  let e := (e.encodeUint 1).encodeUint 2
  let e := (e.encodeUint 3).encodeHead 1 6
  let e := (e.encodeHead 1 0).encodeUint 1
  let e := (e.encodeHead 1 1).encodeByteString (pub.val.take 32)
  let e := (e.encodeHead 1 2).encodeByteString (pub.val.drop 32)
  e.buffer

def mcAuthData (rpIdHash : Bytes 32) (flags : UInt8) (credentialId : Bytes 32)
    (pub : Bytes 64) : List UInt8 :=
  authDataHeader rpIdHash flags ++ aaguid ++ [0, 32] ++ credentialId.val ++
    coseKey pub

def mcResponse (authData derSig : List UInt8) : List UInt8 :=
  let e := (CborEncoder.init respCapacity).encodeMap 3
  let e := (e.encodeUint 1).encodeTextString "packed"
  let e := (e.encodeUint 2).encodeByteString authData
  let e := (e.encodeUint 3).encodeMap 2
  let e := (e.encodeTextString "alg").encodeInt (-7)
  let e := (e.encodeTextString "sig").encodeByteString derSig
  okResponse e

def rpIdOf (item : Option (ℕ × ℕ)) : Rd (Option (ℕ × ℕ)) :=
  match item with
  | none => pure none
  | some (ptr, len) => cborMapGetString ptr len (ascii "id")

/-- The call of `passkey_save`; a missing string is a null pointer with length
zero, and the lengths are passed as bytes. -/
def saveCredential (env : Env) (flash : Mem) (rpIdHash : Bytes 32)
    (rpId userId userName : Option (ℕ × ℕ)) : Rd (ℤ × List FlashOp) :=
  passkeySave flash rpIdHash
    (rpId.getD (0, 0)).1 (UInt8.ofNat (rpId.getD (0, 0)).2)
    (userId.getD (0, 0)).1 (UInt8.ofNat (userId.getD (0, 0)).2)
    (userName.getD (0, 0)).1 (UInt8.ofNat (userName.getD (0, 0)).2)
    (env.rng 0 32) env.makeKey.2

/-- The clientDataHash under the attestation signature. -/
def attestedCdh (cdh : Option (ℕ × ℕ)) : Rd (List UInt8) :=
  match cdh with
  | none => pure []
  | some (ptr, _) => bytes ptr 32

/-- `uECC_sign` over the hash of `authData` and the clientDataHash. -/
def signature (env : Env) (privateKey : Bytes 32)
    (authData cdh : List UInt8) : Bytes 64 :=
  env.sign privateKey
    (sha256Final (sha256Update (sha256Update sha256Init authData) cdh))

/-- The response of a registration. -/
def attestation (env : Env) (rpIdHash : Bytes 32) (verified : Bool)
    (cdh : List UInt8) : List UInt8 :=
  let flags : UInt8 := if verified then 0x41 ||| 0x04 else 0x41
  let authData := mcAuthData rpIdHash (flags ||| 0x40) (env.rng 0 32)
    env.makeKey.1
  mcResponse authData
    (ecdsaSigToDer (signature env env.makeKey.2 authData cdh))

/-- The part of MakeCredential after the touch. -/
def registerCredential (env : Env) (d : Device) (reqLen : ℕ)
    (cdh : Option (ℕ × ℕ)) (verified : Option (List UInt8)) : Rd Outcome := do
  let rpItem ← getCborMapItem 1 (reqLen - 1) 0x02
  let rpId ← rpIdOf (rpItem.pointer env)
  let rpIdHash ← rpIdHashOf rpId
  let exItem ← getCborMapItem 1 (reqLen - 1) 0x05
  let hit ← excludeListHit d.flash.mem rpIdHash (exItem.pointer env)
  if hit then return d.replyUnder verified [] [0x2C]
  else
    let userItem ← getCborMapItem 1 (reqLen - 1) 0x03
    let user ← userStrings (userItem.pointer env)
    let saved ← saveCredential env d.flash.mem rpIdHash rpId user.1 user.2
    if saved.1 ≠ 0 then return d.replyUnder verified saved.2 [0x28]
    else
      let cdhBytes ← attestedCdh cdh
      return d.replyUnder verified saved.2
        (attestation env rpIdHash verified.isSome cdhBytes)

def Device.waited (d : Device) (env : Env) : Device :=
  { d with ctap := d.ctap.waited env }

/-- The part of MakeCredential from the touch wait on. -/
def waitAndRegister (env : Env) (d : Device) (reqLen : ℕ)
    (cdh : Option (ℕ × ℕ)) (verified : Option (List UInt8)) : Rd Outcome := do
  if env.presence.status ≠ 0x00 then
    return (d.waited env).replyUnder verified [] [env.presence.status]
  else registerCredential env (d.waited env) reqLen cdh verified

def makeCredential (env : Env) (d : Device) (reqLen : ℕ) : Rd Outcome := do
  let cdh ← getCborMapString 1 (reqLen - 1) 0x01
  let pinAuth ← getCborMapString 1 (reqLen - 1) 0x08
  let pinSet := (pinLoad d.flash.mem).isSome
  match pinAuth with
  | some (pinAuth, pinAuthLen) =>
      if pinAuthLen = 0 then return d.reply [if pinSet then 0x33 else 0x35]
      else
        let _ ← getCborMapValue 1 (reqLen - 1) 0x07
        let valid ← pinAuthValid d.pin cdh pinAuth pinAuthLen
        if ¬ valid then return d.reply [0x33]
        else waitAndRegister env d reqLen cdh (some d.pin.tokenKey)
  | none =>
      match ← getCborMapValue 1 (reqLen - 1) 0x07 with
      | none => waitAndRegister env d reqLen cdh none
      | some options =>
          match ← optionsRefused pinSet options.ptr reqLen with
          | some status => return d.reply [status]
          | none => waitAndRegister env d reqLen cdh none

/-! ## authenticatorGetAssertion and GetNextAssertion -/

/-- The user of an assertion, if the slot has a user id. -/
def encodeGaUser (flash : Mem) (i : Slot) (e : CborEncoder) : CborEncoder :=
  let rk := flash.slotKey i
  if rk.userIdLen > 0 then
    let e := (e.encodeUint 4).encodeMap (if rk.userNameLen > 0 then 2 else 1)
    let e := (e.encodeTextString "id").encodeByteString
      (flash.slice (slotAddr i + 37) rk.userIdLen.toNat)
    if rk.userNameLen > 0 then
      (e.encodeTextString "name").encodeTextStringLen
        (flash.slice (slotAddr i + 166) rk.userNameLen.toNat)
    else e
  else e

/-- The number of credentials, if there are more than one. -/
def encodeGaTotal (total : ℕ) (e : CborEncoder) : CborEncoder :=
  if total > 1 then (e.encodeUint 6).encodeUint total else e

/-- `ga_build_response` for the credential in slot `i`. -/
def gaBuildResponse (env : Env) (flash : Mem) (i : Slot) (authData37 : List UInt8)
    (cdh32 : Bytes 32) (total : ℕ) : List UInt8 :=
  let rk := flash.slotKey i
  let der := ecdsaSigToDer (signature env rk.privateKey authData37 cdh32.val)
  let mapN := 3 + (if rk.userIdLen > 0 then 1 else 0) +
    (if total > 1 then 1 else 0)
  let e := (CborEncoder.init respCapacity).encodeMap mapN
  let e := (e.encodeUint 1).encodeMap 2
  let e := (e.encodeTextString "id").encodeByteString rk.credentialId.val
  let e := (e.encodeTextString "type").encodeTextString "public-key"
  let e := (e.encodeUint 2).encodeByteString authData37
  let e := (e.encodeUint 3).encodeByteString der
  okResponse (encodeGaTotal total (encodeGaUser flash i e))

/-- Whether the 32 bytes occur in the request from `ptr` on. -/
def occursInRequest (wanted : Bytes 32) : ℕ → ℕ → Rd Bool
  | 0, _ => return false
  | left + 1, ptr => do
      if (← bytes ptr 32) = wanted.val then return true
      occursInRequest wanted left (ptr + 1)

/-- The first credential of the relying party whose id is somewhere in the
request. -/
def findListed (flash : Mem) (rpIdHash : Bytes 32) (reqLen : ℕ) :
    List Slot → Rd (Option Slot)
  | [] => return none
  | i :: rest => do
      if isOfRp flash rpIdHash i then
        let hit ← occursInRequest (flash.slotKey i).credentialId (reqLen - 31) 0
        if hit then return some i
        findListed flash rpIdHash reqLen rest
      else findListed flash rpIdHash reqLen rest

/-- The clientDataHash which GetNextAssertion will sign. -/
def storedCdh (cdh : Option (ℕ × ℕ)) : Rd (Bytes 32) := do
  match cdh with
  | none => return Bytes.zero 32
  | some (ptr, len) =>
      if len ≥ 32 then return Bytes.fill 0 32 (← bytes ptr 32)
      return Bytes.zero 32

/-- The clientDataHash which GetAssertion signs. -/
def signedCdh (cdh : Option (ℕ × ℕ)) : Rd (Bytes 32) := do
  match cdh with
  | none => return Bytes.zero 32
  | some (ptr, len) =>
      if len = 32 then return Bytes.fill 0 32 (← bytes ptr 32)
      return Bytes.zero 32

/-- The credential selection: the slot with the number of credentials, and the
globals of the walk. -/
def selectCredential (d : Device) (reqLen : ℕ) (rpIdHash : Bytes 32)
    (cdh : Option (ℕ × ℕ)) (allowList : Option MapValue) :
    Rd (Option (Slot × ℕ) × CtapSession) := do
  let bare : Bool := match allowList with
    | none => true
    | some v => v.type = 0x80 ∧ v.len = 0
  if bare then
    let count := passkeyCountForRp d.flash.mem rpIdHash
    match passkeyGetByRpIndex d.flash.mem rpIdHash 0 with
    | none => return (none, d.ctap)
    | some i =>
        if count = 0 then return (none, d.ctap)
        let gGaCdh ← storedCdh cdh
        return (some (i, count), { d.ctap with
          gGaRpHash := rpIdHash
          gGaCount := count
          gGaIdx := 0
          gGaCdh := gGaCdh })
  else
    let found ← findListed d.flash.mem rpIdHash reqLen slots
    return (found.map fun i => (i, 1), { d.ctap with gGaCount := 0 })

/-- `"uv": true`, which is looked for only without a pinUvAuthParam. -/
def uvRequested (hasPinAuth : Bool) (ptr len : ℕ) : Rd Bool :=
  if hasPinAuth then pure false else hasOption ptr len "uv" 0xF5

/-- The options of GetAssertion: a status byte ends the command, otherwise
whether a touch is required. -/
def assertionOptions (pinSet hasPinAuth : Bool) (options : Option MapValue)
    (reqLen : ℕ) : Rd (Except UInt8 Bool) := do
  match options with
  | none => return .ok true
  | some v =>
      let len := searchLen reqLen v.ptr
      let uv ← uvRequested hasPinAuth v.ptr len
      if uv then return .error (if pinSet then 0x36 else 0x35)
      let preflight ← hasOption v.ptr len "up" 0xF4
      return .ok (!preflight)

/-- The flags of an assertion. -/
def gaFlags (upRequired verified : Bool) : UInt8 :=
  (if upRequired then 0x01 else 0x00) ||| (if verified then 0x04 else 0x00)

/-- The part of GetAssertion after the pinUvAuthParam. -/
def assertCredential (env : Env) (d : Device) (reqLen : ℕ) (rpIdHash : Bytes 32)
    (cdh : Option (ℕ × ℕ)) (i : Slot) (total : ℕ)
    (verified : Option (List UInt8)) (hasPinAuth : Bool) : Rd Outcome := do
  let options ← getCborMapValue 1 (reqLen - 1) 0x05
  let decision ← assertionOptions (pinLoad d.flash.mem).isSome hasPinAuth
    options reqLen
  match decision with
  | .error status => return d.replyUnder verified [] [status]
  | .ok upRequired =>
      let d := if upRequired then d.waited env else d
      if upRequired ∧ env.presence.status ≠ 0x00 then
        return d.replyUnder verified [] [env.presence.status]
      else
        let cdhBuf ← signedCdh cdh
        return d.replyUnder verified [] (gaBuildResponse env d.flash.mem i
          (authDataHeader rpIdHash (gaFlags upRequired verified.isSome))
          cdhBuf total)

/-- GetAssertion for the selected credential. -/
def assertSelected (env : Env) (d : Device) (reqLen : ℕ) (rpIdHash : Bytes 32)
    (cdh : Option (ℕ × ℕ)) (selected : Option (Slot × ℕ)) : Rd Outcome := do
  match selected with
  | none => return d.reply [0x2E]
  | some (i, total) =>
      match ← getCborMapString 1 (reqLen - 1) 0x06 with
      | none => assertCredential env d reqLen rpIdHash cdh i total none false
      | some (pinAuth, pinAuthLen) =>
          let valid ← pinAuthValid d.pin cdh pinAuth pinAuthLen
          if ¬ valid then return d.reply [0x33]
          else
            assertCredential env d reqLen rpIdHash cdh i total
              (some d.pin.tokenKey) true

def getAssertion (env : Env) (d : Device) (reqLen : ℕ) : Rd Outcome := do
  let rpId ← getCborMapValue 1 (reqLen - 1) 0x01
  let cdh ← getCborMapString 1 (reqLen - 1) 0x02
  let allowList ← getCborMapValue 1 (reqLen - 1) 0x03
  let rpIdHash ← rpIdHashOf (rpId.map fun v => (v.ptr, v.len))
  let selection ← selectCredential d reqLen rpIdHash cdh allowList
  assertSelected env { d with ctap := selection.2 } reqLen rpIdHash cdh
    selection.1

def getNextAssertion (env : Env) (d : Device) : Outcome :=
  if d.ctap.gGaCount = 0 ∨ d.ctap.gGaIdx + 1 ≥ d.ctap.gGaCount then
    d.reply [0x2E]
  else
    let d := { d with ctap := { d.ctap with gGaIdx := d.ctap.gGaIdx + 1 } }
    match passkeyGetByRpIndex d.flash.mem d.ctap.gGaRpHash d.ctap.gGaIdx with
    | none => d.reply [0x2E]
    | some i =>
        let d := d.waited env
        if env.presence.status ≠ 0x00 then d.reply [env.presence.status]
        else
          d.reply (gaBuildResponse env d.flash.mem i
            (authDataHeader d.ctap.gGaRpHash 0x01) d.ctap.gGaCdh
            d.ctap.gGaCount)

/-! ## authenticatorCredentialManagement -/

/-- What the pinUvAuthParam of CredentialManagement authenticates. -/
def cmMessage (env : Env) (reqLen subCmd : ℕ) : Rd (List UInt8) := do
  let sub : List UInt8 := [UInt8.ofNat subCmd]
  if subCmd = 0x04 ∨ subCmd = 0x05 ∨ subCmd = 0x06 then
    match (← getCborMapItem 1 (reqLen - 1) 0x02).pointer env with
    | none => return sub
    | some (item, itemLen) =>
        if itemLen > 0 ∧ itemLen ≤ 1024 then
          return sub ++ (← bytes item itemLen)
        else return sub
  else return sub

/-- The HMAC key of CredentialManagement. -/
def PinSession.cmKey (s : PinSession) : List UInt8 :=
  s.pinToken.val.take (if s.pinTokenLen > 0 then s.pinTokenLen else 32)

/-- The pinUvAuthParam check of CredentialManagement. -/
def cmAuthorized (env : Env) (s : PinSession) (reqLen subCmd : ℕ) :
    Rd Bool := do
  let proto := (← getCborMapInt 1 (reqLen - 1) 0x03).getD s.activePinProtocol
  let msg ← cmMessage env reqLen subCmd
  let pinAuth ← getCborMapString 1 (reqLen - 1) 0x04
  let expected := if proto = 2 then 32 else 16
  match pinAuth with
  | none => return false
  | some (pinAuth, pinAuthLen) =>
      if ¬ s.hasPinToken ∨ pinAuthLen ≠ expected then return false
      return (hmacSha256 s.cmKey msg).val.take expected =
        (← bytes pinAuth expected)

def getCredsMetadata (d : Device) : List UInt8 :=
  let e := (CborEncoder.init respCapacity).encodeMap 2
  let e := (e.encodeUint 1).encodeUint (passkeyCountAll d.flash.mem)
  let e := (e.encodeUint 2).encodeUint passkeyNumSlots
  okResponse e

/-- The rp.id to show for a relying party: that of its first credential. -/
def rpDisplay (flash : Mem) (rpIdHash : Bytes 32) : List UInt8 :=
  match passkeyGetByRpIndex flash rpIdHash 0 with
  | none => ascii "Passkey RP"
  | some i =>
      if (flash.slotKey i).rpIdLen > 0 then
        flash.slice (slotAddr i + 199) (flash.slotKey i).rpIdLen.toNat
      else ascii "Passkey RP"

def enumerateRps (d : Device) (subCmd : ℕ) : Outcome :=
  let idx := if subCmd = 0x02 then 0 else (d.ctap.gEnumRpIdx + 1) % 2 ^ 32
  let d := { d with ctap := { d.ctap with gEnumRpIdx := idx } }
  let total := passkeyCountUniqueRps d.flash.mem
  if total = 0 ∨ idx ≥ total then d.reply [0x2E]
  else
    let rpHash :=
      (passkeyGetUniqueRpHash d.flash.mem idx).getD d.ctap.gEnumRpHash
    let d := { d with ctap := { d.ctap with gEnumRpHash := rpHash } }
    let display := rpDisplay d.flash.mem rpHash
    let e := (CborEncoder.init respCapacity).encodeMap
      (if subCmd = 0x02 then 3 else 2)
    let e := (e.encodeUint 1).encodeMap 2
    let e := (e.encodeTextString "id").encodeTextStringLen display
    let e := (e.encodeTextString "name").encodeTextStringLen display
    let e := (e.encodeUint 2).encodeByteString rpHash.val
    let e := if subCmd = 0x02 then (e.encodeUint 3).encodeUint total else e
    d.reply (okResponse e)

/-- The rpIDHash parameter of enumerateCredentialsBegin, if it is there. -/
def enumRpHashParam (env : Env) (reqLen : ℕ) : Rd (Option (Bytes 32)) := do
  match (← getCborMapItem 1 (reqLen - 1) 0x02).pointer env with
  | none => return none
  | some (pm, pmLen) =>
      match ← getCborMapString pm pmLen 0x01 with
      | none => return none
      | some (rph, rphLen) =>
          if rphLen ≥ 32 then return some (Bytes.fill 0 32 (← bytes rph 32))
          return none

def credentialResponse (d : Device) (subCmd total : ℕ) (i : Slot) :
    List UInt8 :=
  let k := d.flash.mem.slotKey i
  let name := if k.userNameLen > 0 then
      d.flash.mem.slice (slotAddr i + 166) k.userNameLen.toNat
    else ascii "Passkey Account"
  let e := (CborEncoder.init respCapacity).encodeMap
    (if subCmd = 0x04 then 3 else 2)
  let e := (e.encodeUint 1).encodeMap 2
  let e := (e.encodeTextString "id").encodeByteString
    (d.flash.mem.slice (slotAddr i + 37) k.userIdLen.toNat)
  let e := (e.encodeTextString "name").encodeTextStringLen name
  let e := (e.encodeUint 2).encodeMap 2
  let e := (e.encodeTextString "id").encodeByteString k.credentialId.val
  let e := (e.encodeTextString "type").encodeTextString "public-key"
  let e := if subCmd = 0x04 then (e.encodeUint 3).encodeUint total else e
  okResponse e

/-- The listing step of enumerateCredentials. -/
def listCredential (d : Device) (subCmd : ℕ) : Outcome :=
  let total := passkeyCountForRp d.flash.mem d.ctap.gEnumRpHash
  match passkeyGetByRpIndex d.flash.mem d.ctap.gEnumRpHash d.ctap.gEnumCredIdx with
  | none => d.reply [0x2E]
  | some i =>
      if total = 0 ∨ d.ctap.gEnumCredIdx ≥ total then d.reply [0x2E]
      else d.reply (credentialResponse d subCmd total i)

def enumerateCredentials (env : Env) (d : Device) (reqLen subCmd : ℕ) :
    Rd Outcome := do
  if subCmd = 0x04 then
    let param ← enumRpHashParam env reqLen
    let ctap := { d.ctap with
      gEnumRpHash := param.getD d.ctap.gEnumRpHash
      gEnumCredIdx := 0 }
    return listCredential { d with ctap := ctap } subCmd
  else
    let ctap := { d.ctap with
      gEnumCredIdx := (d.ctap.gEnumCredIdx + 1) % 2 ^ 32 }
    return listCredential { d with ctap := ctap } subCmd

/-- The credential id of deleteCredential: the value of key 1 of the map at key
2 of the parameters. -/
def deleteTarget (env : Env) (reqLen : ℕ) : Rd (Option (ℕ × ℕ)) := do
  match (← getCborMapItem 1 (reqLen - 1) 0x02).pointer env with
  | none => return none
  | some (pm, pmLen) =>
      match (← getCborMapItem pm pmLen 0x02).pointer env with
      | none => return none
      | some (cm, cmLen) => getCborMapString cm cmLen 0x01

def deleteCredential (env : Env) (d : Device) (reqLen : ℕ) : Rd Outcome := do
  match ← deleteTarget env reqLen with
  | none => return d.reply [0x2E]
  | some (target, targetLen) =>
      if targetLen < 32 then return d.reply [0x2E]
      else
        let id ← bytes target 32
        let deleted := passkeyDeleteByCredId d.flash.mem (Bytes.fill 0 32 id)
        return d.replyUnder none deleted.2
          [if deleted.1 ≠ 0 then 0x2E else 0x00]

/-- The subcommands after the pinUvAuthParam check. -/
def cmDispatch (env : Env) (d : Device) (reqLen subCmd : ℕ) : Rd Outcome := do
  let _ ← getCborMapValue 1 (reqLen - 1) 0x02
  if subCmd = 0x01 then return d.reply (getCredsMetadata d)
  else if subCmd = 0x02 ∨ subCmd = 0x03 then return enumerateRps d subCmd
  else if subCmd = 0x04 ∨ subCmd = 0x05 then
    enumerateCredentials env d reqLen subCmd
  else if subCmd = 0x06 then deleteCredential env d reqLen
  else return d.reply [0x01]

def credentialManagement (env : Env) (d : Device) (reqLen : ℕ) :
    Rd Outcome := do
  let subCmd := u8 ((← getCborMapInt 1 (reqLen - 1) 0x01).getD 0)
  if (pinLoad d.flash.mem).isSome then
    let authorized ← cmAuthorized env d.pin reqLen subCmd
    if ¬ authorized then return d.reply [0x33]
    else
      let o ← cmDispatch env d reqLen subCmd
      return { o with verified := some d.pin.cmKey }
  else cmDispatch env d reqLen subCmd

/-! ## authenticatorReset and the touch debug command -/

/-- Ten seconds of the 48 MHz tick counter. -/
def resetWindow : ℕ := 48000000 * 10

def authenticatorReset (env : Env) (d : Device) : Outcome :=
  if env.sysTick > resetWindow then d.reply [0x30]
  else
    let d := d.waited env
    if env.presence.status ≠ 0x00 then d.reply [env.presence.status]
    else d.replyUnder none flashFactoryReset [0x00]

def be32List (n : ℕ) : List UInt8 :=
  [UInt8.ofNat (n / 16777216), UInt8.ofNat (n / 65536), UInt8.ofNat (n / 256),
    UInt8.ofNat n]

def touchDebug (env : Env) (d : Device) : Outcome :=
  let d := if d.ctap.touchAdcInitDone then d else d.waited env
  d.reply (0x00 :: (be32List env.touchValue ++ be32List d.ctap.touchBaseline))

/-! ## The dispatcher -/

def Device.onChannel (d : Device) (cid : ℕ) : Device :=
  { d with ctap := { d.ctap with gCurrentCid := cid } }

def processCommand (env : Env) (d : Device) (reqLen : ℕ) (cmd : UInt8) :
    Rd Outcome := do
  if cmd = 0x04 then
    return d.reply (getInfoResponse (pinLoad d.flash.mem).isSome)
  else if cmd = 0x01 then makeCredential env d reqLen
  else if cmd = 0x02 then getAssertion env d reqLen
  else if cmd = 0x08 then return getNextAssertion env d
  else if cmd = 0x06 then processClientPin env d 1 (reqLen - 1)
  else if cmd = 0x0A then credentialManagement env d reqLen
  else if cmd = 0x07 then return authenticatorReset env d
  else if cmd = 0x55 then return touchDebug env d
  else return d.reply [0x01]

def fido2ProcessCbor (env : Env) (d : Device) (reqLen cid : ℕ) : Rd Outcome := do
  if reqLen = 0 then return d.reply [0x01]
  else processCommand env (d.onChannel cid) reqLen (← byte 0)

/-- One CBOR request, with what its command meets. -/
structure Command where
  req : Mem
  reqLen : ℕ
  cid : ℕ
  env : Env

/-- What the device answers, if the command returns. -/
def Device.outcome (d : Device) (c : Command) : Option Outcome :=
  (fido2ProcessCbor c.env d c.reqLen c.cid).run c.req

def Device.after (d : Device) (o : Outcome) : Device where
  flash := d.flash.run o.ops
  pin := o.pin
  ctap := o.ctap

def Device.step (d : Device) (c : Command) : Option Device :=
  (d.outcome c).map d.after

end UnsoloKey
