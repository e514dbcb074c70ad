import UnsoloKey.Reader
import Mathlib.Tactic

/-!
# The CBOR scanner of fido2.c

Requests are never decoded into a tree.  Every command walks the raw request
with `skip_cbor_item` and a handful of map accessors, all of which work on a
pointer and a 16-bit remaining length.  Pointers are addresses in the request
memory; a returned pointer is the address of the payload or of the item.

`skip_cbor_item` calls itself on the items of arrays and maps, and nothing in
its text bounds the nesting, so it is modelled with an explicit recursion
depth.  `skipCborItem` supplies a depth which suffices whenever any depth does.
-/

namespace UnsoloKey

open Rd

/-- The value kept by a `uint16_t`. -/
def u16 (n : ℕ) : ℕ := n % 65536

/-- The value kept by a `uint8_t`. -/
def u8 (n : ℕ) : ℕ := n % 256

/-- The bytes of a C string literal. -/
def ascii (s : String) : List UInt8 :=
  s.toList.map fun c => UInt8.ofNat c.toNat

def majorBits (b : UInt8) : UInt8 := b &&& 0xE0

def infoBits (b : UInt8) : ℕ := (b &&& 0x1F).toNat

theorem bits_of_initial (major : Fin 8) (info : Fin 32) :
    majorBits (UInt8.ofNat (32 * major + info)) = UInt8.ofNat (32 * major) ∧
      infoBits (UInt8.ofNat (32 * major + info)) = info := by
  revert major info
  decide +kernel

/-- The declared count and the length of the head at `data`, whose additional
information is `vlen`. -/
def headCount (data vlen : ℕ) : Rd (ℕ × ℕ) := do
  if vlen = 24 then
    let c ← byte (data + 1)
    return (c.toNat, 2)
  else if vlen = 25 then
    let hi ← byte (data + 1)
    let lo ← byte (data + 2)
    return (hi.toNat * 256 + lo.toNat, 3)
  else
    return (vlen, 1)

/-! ## skip_cbor_item -/

/-- The item loop of the array and map branches. -/
def skipItems (skip : ℕ → ℕ → Rd ℕ) (data len : ℕ) : ℕ → ℕ → Rd ℕ
  | 0, offset => return offset
  | count + 1, offset => do
      if offset ≥ len then return offset
      let item ← skip (data + offset) (len - offset)
      skipItems skip data len count (u16 (offset + item))

/-- `skip_cbor_item` with at most `depth` nested calls. -/
def skipCborItemDepth : ℕ → ℕ → ℕ → Rd ℕ
  | 0, _, _ => .diverge
  | depth + 1, data, len => do
      if len = 0 then return 0
      let b ← byte data
      let (count, headerLen) ← headCount data (infoBits b)
      if majorBits b = 0x00 ∨ majorBits b = 0x20 ∨ majorBits b = 0xE0 then
        return headerLen
      else if majorBits b = 0x40 ∨ majorBits b = 0x60 then
        return u16 (headerLen + count)
      else if majorBits b = 0x80 then
        skipItems (skipCborItemDepth depth) data len count headerLen
      else if majorBits b = 0xA0 then
        skipItems (skipCborItemDepth depth) data len (count * 2) headerLen
      else
        return headerLen

/-- `skip_cbor_item`: a call on `len` bytes that returns at all nests at most
`len + 1` deep. -/
def skipCborItem (data len : ℕ) : Rd ℕ :=
  skipCborItemDepth (len + 1) data len

/-! ## Accessors with integer keys -/

/-- The entry loop which the integer-key accessors share.  The walk stands at
`offset`, on a key; `found` looks at the value of the first key accepted by
`isKey`. -/
def walkEntries {α : Type} (isKey : ℕ → Rd Bool) (found : ℕ → ℕ → Rd α)
    (missing : α) (data len : ℕ) : ℕ → ℕ → Rd α
  | 0, _ => return missing
  | count + 1, offset => do
      if offset ≥ len then return missing
      let hit ← isKey (data + offset)
      let key ← skipCborItem (data + offset) (len - offset)
      let offset := u16 (offset + key)
      if offset ≥ len then return missing
      if hit then
        found (data + offset) (len - offset)
      else
        let value ← skipCborItem (data + offset) (len - offset)
        walkEntries isKey found missing data len count (u16 (offset + value))

/-- The accessors give up with `notMap` on anything but a map. -/
def walkMap {α : Type} (isKey : ℕ → Rd Bool) (found : ℕ → ℕ → Rd α)
    (notMap missing : α) (data len : ℕ) : Rd α := do
  if len = 0 then return notMap
  let b ← byte data
  if majorBits b ≠ 0xA0 then return notMap
  let (count, offset) ← headCount data (infoBits b)
  walkEntries isKey found missing data len count offset

/-- The key test of `get_cbor_map_value`, `get_cbor_map_int` and
`get_cbor_map_item`.  A key with a two-byte argument never matches a key other
than zero. -/
def isUintKey (key at_ : ℕ) : Rd Bool := do
  let b ← byte at_
  if majorBits b ≠ 0x00 then return false
  if infoBits b = 24 then
    let k ← byte (at_ + 1)
    return k.toNat = key
  else if infoBits b = 25 then
    return key = 0
  else
    return infoBits b = key

/-- The key test of `get_cbor_map_neg_value`.  For zero `neg_val - 1` is negative, and no
byte is equal to it. -/
def isNegKey (negVal at_ : ℕ) : Rd Bool := do
  let b ← byte at_
  return majorBits b = 0x20 ∧ 0 < negVal ∧ b.toNat = 0x20 ||| (negVal - 1)

/-- A value as `get_cbor_map_value` reports it: the address after its head,
the count in its head, and its major type bits. -/
structure MapValue where
  ptr : ℕ
  len : ℕ
  type : UInt8
  deriving DecidableEq

/-- The head of the value at `at_`, split into payload address and length. -/
def valuePayload (at_ : ℕ) (_remaining : ℕ) : Rd (Option MapValue) := do
  let header ← byte at_
  let (count, headerLen) ← headCount at_ (infoBits header)
  return some ⟨at_ + headerLen, count, majorBits header⟩

/-- `get_cbor_map_value`; `none` is the null pointer. -/
def getCborMapValue (data len key : ℕ) : Rd (Option MapValue) :=
  walkMap (isUintKey key) valuePayload none none data len

/-- The value branch of `get_cbor_map_int`. -/
def valueInt (at_ : ℕ) (_remaining : ℕ) : Rd (Option ℕ) := do
  let header ← byte at_
  if majorBits header ≠ 0x00 then return none
  if infoBits header ≤ 25 then
    let (value, _) ← headCount at_ (infoBits header)
    return some value
  else
    return none

/-- `get_cbor_map_int`; `none` is `false`, with the output left alone. -/
def getCborMapInt (data len key : ℕ) : Rd (Option ℕ) :=
  walkMap (isUintKey key) valueInt none none data len

/-- What a call of `get_cbor_map_item` gives its caller.  The function has no
`return` after its loop, so a call which does not find the key ends without a
value (`fallsOff`). -/
inductive ItemResult where
  | null
  | item (ptr len : ℕ)
  | fallsOff
  deriving DecidableEq

def getCborMapItem (data len key : ℕ) : Rd ItemResult :=
  walkMap (isUintKey key)
    (fun at_ remaining => return .item at_ (← skipCborItem at_ remaining))
    .null .fallsOff data len

/-- `get_cbor_map_string`: the value must be a byte or text string. -/
def getCborMapString (data len key : ℕ) : Rd (Option (ℕ × ℕ)) := do
  match ← getCborMapValue data len key with
  | none => return none
  | some v =>
      if v.type ≠ 0x40 ∧ v.type ≠ 0x60 then return none
      return some (v.ptr, v.len)

def getCborMapNegValue (data len negVal : ℕ) : Rd (Option MapValue) :=
  walkMap (isNegKey negVal) valuePayload none none data len

/-! ## Accessors with text keys -/

/-- Whether the item at `kp` is the text string `key`; lengths are kept in a
`uint8_t`. -/
def isTextKey (key : List UInt8) (kp : ℕ) : Rd Bool := do
  let b ← byte kp
  if majorBits b ≠ 0x60 then return false
  let (count, headerLen) ← headCount kp (infoBits b)
  if u8 count ≠ key.length then return false
  let text ← bytes (kp + headerLen) key.length
  return text = key

/-- The payload of the string at `val`; its length is kept in a `uint8_t`. -/
def stringPayload (val : ℕ) : Rd (Option (ℕ × ℕ)) := do
  let vh ← byte val
  if majorBits vh = 0x40 ∨ majorBits vh = 0x60 then
    let (count, headerLen) ← headCount val (infoBits vh)
    return some (val + headerLen, u8 count)
  else
    return none

/-- The entry loop of `cbor_map_get_string`. -/
def getStringEntries (key : List UInt8) (data len : ℕ) :
    ℕ → ℕ → Rd (Option (ℕ × ℕ))
  | 0, _ => return none
  | count + 1, offset => do
      if offset + 1 ≥ len then return none
      let keyLen ← skipCborItem (data + offset) (len - offset)
      if keyLen = 0 then return none
      let hit ← isTextKey key (data + offset)
      if hit then
        if data + offset + keyLen ≥ data + len then return none
        stringPayload (data + offset + keyLen)
      else
        let offset := u16 (offset + keyLen)
        if offset ≥ len then return none
        let value ← skipCborItem (data + offset) (len - offset)
        getStringEntries key data len count (u16 (offset + value))

def cborMapGetString (data len : ℕ) (key : List UInt8) :
    Rd (Option (ℕ × ℕ)) := do
  if len = 0 then return none
  let b ← byte data
  if majorBits b ≠ 0xA0 then return none
  let (count, offset) ← headCount data (infoBits b)
  getStringEntries key data len count offset

/-- What `find_cbor_string` makes of the byte after a matching key: a string
payload, a boolean, or nothing. -/
def findCborValue (data len valIdx : ℕ) : Rd (Option (ℕ × ℕ)) := do
  if valIdx ≥ len then return none
  let header ← byte (data + valIdx)
  if majorBits header = 0x40 ∨ majorBits header = 0x60 then
    if infoBits header = 24 then
      let n ← byte (data + valIdx + 1)
      return some (data + valIdx + 2, n.toNat)
    else
      return some (data + valIdx + 1, infoBits header)
  else if header = 0xF4 ∨ header = 0xF5 then
    return some (data + valIdx, 1)
  else
    return none

/-- The scan of `find_cbor_string` from position `i`. -/
def findCborFrom (key : List UInt8) (data len : ℕ) :
    ℕ → ℕ → Rd (Option (ℕ × ℕ))
  | 0, _ => return none
  | left + 1, i => do
      let b ← byte (data + i)
      if b.toNat ≠ 0x60 ||| key.length then
        findCborFrom key data len left (i + 1)
      else
        let text ← bytes (data + i + 1) key.length
        if text ≠ key then
          findCborFrom key data len left (i + 1)
        else
          match ← findCborValue data len (u16 (i + 1 + key.length)) with
          | some found => return some found
          | none => findCborFrom key data len left (i + 1)

/-- `find_cbor_string`: a search for the bytes of a text key, wherever they
are. -/
def findCborString (data len : ℕ) (key : List UInt8) :
    Rd (Option (ℕ × ℕ)) := do
  if len ≤ key.length then return none
  findCborFrom key data len (len - key.length) 0

end UnsoloKey
