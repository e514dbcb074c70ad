import UnsoloKey.CborScan
import UnsoloKey.CborItem
import Mathlib.Tactic

/-!
# The CBOR encoder of cbor.c

An encoder appends to a buffer of fixed capacity and silently leaves out
whatever does not fit.  As long as everything fits, the buffer is the
concatenation of canonical heads and payloads.
-/

namespace UnsoloKey

/-- `buffer` holds the bytes encoded so far. -/
structure CborEncoder where
  buffer : List UInt8
  capacity : ℕ

namespace CborEncoder

def init (capacity : ℕ) : CborEncoder := ⟨[], capacity⟩

def append (e : CborEncoder) (bytes : List UInt8) : CborEncoder :=
  { e with buffer := e.buffer ++ bytes }

/-- Append the bytes if there is room for all of them. -/
def put (e : CborEncoder) (bytes : List UInt8) : CborEncoder :=
  if e.buffer.length + bytes.length > e.capacity then e else e.append bytes

def encodeHead (e : CborEncoder) (majorType : UInt8) (val : ℕ) : CborEncoder :=
  if e.buffer.length ≥ e.capacity then e
  else if val < 24 then e.append [(majorType <<< 5) ||| UInt8.ofNat val]
  else if val ≤ 0xFF then
    e.put [(majorType <<< 5) ||| 24, UInt8.ofNat val]
  else if val ≤ 0xFFFF then
    e.put [(majorType <<< 5) ||| 25, UInt8.ofNat (val / 256), UInt8.ofNat val]
  else
    e.put [(majorType <<< 5) ||| 26, UInt8.ofNat (val / 16777216),
      UInt8.ofNat (val / 65536), UInt8.ofNat (val / 256), UInt8.ofNat val]

def encodeUint (e : CborEncoder) (value : ℕ) : CborEncoder :=
  e.encodeHead 0 value

def encodeInt (e : CborEncoder) (value : ℤ) : CborEncoder :=
  if value ≥ 0 then e.encodeHead 0 value.toNat
  else e.encodeHead 1 (-1 - value).toNat

def encodeBool (e : CborEncoder) (value : Bool) : CborEncoder :=
  if e.buffer.length ≥ e.capacity then e
  else e.append [if value then 0xF5 else 0xF4]

def encodeTextStringLen (e : CborEncoder) (str : List UInt8) : CborEncoder :=
  (e.encodeHead 3 str.length).put str

def encodeTextString (e : CborEncoder) (str : String) : CborEncoder :=
  e.encodeTextStringLen (ascii str)

def encodeByteString (e : CborEncoder) (data : List UInt8) : CborEncoder :=
  (e.encodeHead 2 data.length).put data

def encodeMap (e : CborEncoder) (numPairs : ℕ) : CborEncoder :=
  e.encodeHead 5 numPairs

def encodeArray (e : CborEncoder) (numElements : ℕ) : CborEncoder :=
  e.encodeHead 4 numElements

/-! ## Encoding items -/

/-- What the encoder holds after the bytes have been appended to `e`. -/
def Holds (e : CborEncoder) (capacity : ℕ) (bytes : List UInt8) : Prop :=
  e.capacity = capacity ∧ (bytes.length ≤ capacity → e.buffer = bytes)

theorem holds_init (capacity : ℕ) : (init capacity).Holds capacity [] :=
  ⟨rfl, fun _ => rfl⟩

variable {e : CborEncoder} {capacity : ℕ} {written : List UInt8}

theorem Holds.put (h : e.Holds capacity written) (more : List UInt8) :
    (e.put more).Holds capacity (written ++ more) := by
  unfold CborEncoder.put
  split_ifs with hfull
  · refine ⟨h.1, fun hfits => ?_⟩
    rw [List.length_append] at hfits
    rw [h.2 (by omega), h.1] at hfull
    omega
  · refine ⟨h.1, fun hfits => ?_⟩
    rw [List.length_append] at hfits
    rw [append, h.2 (by omega)]

theorem shift_or (majorType : Fin 8) (info : Fin 32) :
    (UInt8.ofNat majorType.val <<< 5) ||| UInt8.ofNat info.val =
      UInt8.ofNat (32 * majorType.val + info.val) := by
  revert majorType info
  decide +kernel

theorem encodeHead_eq (e : CborEncoder) (major : ℕ) (hmajor : major < 8)
    (val : ℕ) :
    e.encodeHead (UInt8.ofNat major) val = e.put (Cbor.head major val) := by
  have hshift : ∀ info < 32, (UInt8.ofNat major <<< 5) ||| UInt8.ofNat info =
      UInt8.ofNat (32 * major + info) := fun info hinfo =>
    shift_or ⟨major, hmajor⟩ ⟨info, hinfo⟩
  have h24 := hshift 24 (by omega)
  have h25 := hshift 25 (by omega)
  have h26 := hshift 26 (by omega)
  change (UInt8.ofNat major <<< 5) ||| 24 = _ at h24
  change (UInt8.ofNat major <<< 5) ||| 25 = _ at h25
  change (UInt8.ofNat major <<< 5) ||| 26 = _ at h26
  unfold encodeHead Cbor.head
  by_cases hfull : e.buffer.length ≥ e.capacity
  · rw [if_pos hfull]
    have hnone : ∀ bs : List UInt8, 0 < bs.length → e.put bs = e := by
      intro bs hbs
      rw [CborEncoder.put, if_pos (by omega)]
    split_ifs <;> exact (hnone _ (by simp)).symm
  · rw [if_neg hfull]
    split_ifs with h1 h2 h3
    · rw [hshift val (by omega), CborEncoder.put, if_neg]
      simp only [List.length_singleton]
      omega
    · rw [h24]
    · rw [h25]
    · rw [h26]

theorem Holds.uint (h : e.Holds capacity written) (n : ℕ) :
    (e.encodeUint n).Holds capacity (written ++ (Cbor.Item.uint n).encode) := by
  have hhead := e.encodeHead_eq 0 (by omega) n
  change (e.encodeHead 0 n).Holds _ _
  change e.encodeHead 0 n = _ at hhead
  rw [hhead]
  exact h.put _

theorem Holds.head (h : e.Holds capacity written) (major : ℕ) (hmajor : major < 8)
    (n : ℕ) : (e.encodeHead (UInt8.ofNat major) n).Holds capacity
      (written ++ Cbor.head major n) := by
  rw [e.encodeHead_eq major hmajor]
  exact h.put _

theorem Holds.bytes (h : e.Holds capacity written) (data : List UInt8) :
    (e.encodeByteString data).Holds capacity
      (written ++ (Cbor.Item.bytes data).encode) := by
  rw [Cbor.Item.encode, ← List.append_assoc]
  exact (h.head 2 (by omega) data.length).put data

theorem Holds.text (h : e.Holds capacity written) (str : List UInt8) :
    (e.encodeTextStringLen str).Holds capacity
      (written ++ (Cbor.Item.text str).encode) := by
  rw [Cbor.Item.encode, ← List.append_assoc]
  exact (h.head 3 (by omega) str.length).put str

theorem Holds.bool (h : e.Holds capacity written) (value : Bool) :
    (e.encodeBool value).Holds capacity
      (written ++ (Cbor.Item.bool value).encode) := by
  have hput : e.encodeBool value = e.put (Cbor.Item.bool value).encode := by
    unfold encodeBool CborEncoder.put
    simp only [Cbor.Item.encode, List.length_singleton, ge_iff_le, gt_iff_lt,
      Nat.lt_succ_iff]
  rw [hput]
  exact h.put _

theorem Holds.map (h : e.Holds capacity written) (n : ℕ) :
    (e.encodeMap n).Holds capacity (written ++ Cbor.head 5 n) :=
  h.head 5 (by omega) n

theorem Holds.nint (h : e.Holds capacity written) (n : ℕ) :
    (e.encodeHead 1 n).Holds capacity (written ++ (Cbor.Item.nint n).encode) :=
  h.head 1 (by omega) n

theorem Holds.str (h : e.Holds capacity written) (s : String) :
    (e.encodeTextString s).Holds capacity
      (written ++ (Cbor.Item.text (ascii s)).encode) :=
  h.text (ascii s)

theorem Holds.buffer_eq (h : e.Holds capacity written) {x : Cbor.Item}
    (hx : written = x.encode) (hfits : x.encode.length ≤ capacity) :
    e.buffer = x.encode := by
  subst hx
  exact h.2 hfits

end CborEncoder

end UnsoloKey
