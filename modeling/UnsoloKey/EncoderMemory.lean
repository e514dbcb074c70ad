import UnsoloKey.CborEncode
import Mathlib.Tactic

/-!
# The encoder in memory

The encoder of cbor.c writes through a pointer into a buffer of its caller.  Every call
appends a complete item or leaves the encoder as it is, with one exception: the head and
the payload of a string are tested against the capacity one after the other, and a
string may leave its head behind alone.
-/

namespace UnsoloKey

namespace Mem

theorem write_nil (m : Mem) (p : ℕ) : m.write p [] = m := by
  funext a
  rw [write, if_neg (by simp)]

theorem write_append (m : Mem) (p : ℕ) (xs ys : List UInt8) :
    (m.write p xs).write (p + xs.length) ys = m.write p (xs ++ ys) := by
  funext a
  simp only [write, List.length_append]
  by_cases hlater : p + xs.length ≤ a ∧ a < p + xs.length + ys.length
  · rw [if_pos hlater, if_pos (by omega), List.getD_eq_getElem?_getD,
      List.getD_eq_getElem?_getD, List.getElem?_append_right (by omega), Nat.sub_sub]
  · rw [if_neg hlater]
    by_cases hhere : p ≤ a ∧ a < p + xs.length
    · rw [if_pos hhere, if_pos (by omega), List.getD_eq_getElem?_getD,
        List.getD_eq_getElem?_getD, List.getElem?_append_left (by omega)]
    · rw [if_neg hhere, if_neg (by omega)]

end Mem

/-- `CborEncoder`.  Lengths are lengths of objects in memory, so their sums do not wrap. -/
structure CborBuffer where
  buffer : Mem
  length : ℕ
  capacity : ℕ

namespace CborBuffer

/-- `encoder->buffer[encoder->length++] = b`. -/
def store (e : CborBuffer) (b : UInt8) : CborBuffer :=
  { e with buffer := e.buffer.write e.length [b], length := e.length + 1 }

/-- A `memcpy` behind the encoded bytes, and the step over it. -/
def copy (e : CborBuffer) (bs : List UInt8) : CborBuffer :=
  { e with buffer := e.buffer.write e.length bs, length := e.length + bs.length }

def encodeHead (e : CborBuffer) (majorType : UInt8) (val : ℕ) : CborBuffer :=
  if e.length ≥ e.capacity then e
  else if val < 24 then e.store ((majorType <<< 5) ||| UInt8.ofNat val)
  else if val ≤ 0xFF then
    if e.length + 2 > e.capacity then e
    else
      let e := e.store ((majorType <<< 5) ||| 24)
      e.store (UInt8.ofNat val)
  else if val ≤ 0xFFFF then
    if e.length + 3 > e.capacity then e
    else
      let e := e.store ((majorType <<< 5) ||| 25)
      let e := e.store (UInt8.ofNat (val >>> 8))
      e.store (UInt8.ofNat val)
  else
    if e.length + 5 > e.capacity then e
    else
      let e := e.store ((majorType <<< 5) ||| 26)
      let e := e.store (UInt8.ofNat (val >>> 24))
      let e := e.store (UInt8.ofNat (val >>> 16))
      let e := e.store (UInt8.ofNat (val >>> 8))
      e.store (UInt8.ofNat val)

def encodeUint (e : CborBuffer) (value : UInt32) : CborBuffer :=
  e.encodeHead 0 value.toNat

def encodeInt (e : CborBuffer) (value : Int32) : CborBuffer :=
  if value.toInt ≥ 0 then e.encodeHead 0 value.toInt.toNat
  else e.encodeHead 1 (-1 - value.toInt).toNat

def encodeBool (e : CborBuffer) (value : UInt8) : CborBuffer :=
  if e.length ≥ e.capacity then e
  else e.store (if value ≠ 0 then 0xF5 else 0xF4)

def encodeTextStringLen (e : CborBuffer) (str : List UInt8) : CborBuffer :=
  let e := e.encodeHead 3 str.length
  if e.length + str.length > e.capacity then e else e.copy str

/-- `str` without the zero byte at its end. -/
def encodeTextString (e : CborBuffer) (str : List UInt8) : CborBuffer :=
  e.encodeTextStringLen str

def encodeByteString (e : CborBuffer) (data : List UInt8) : CborBuffer :=
  let e := e.encodeHead 2 data.length
  if e.length + data.length > e.capacity then e else e.copy data

def encodeMap (e : CborBuffer) (numPairs : UInt32) : CborBuffer :=
  e.encodeHead 5 numPairs.toNat

def encodeArray (e : CborBuffer) (numElements : UInt32) : CborBuffer :=
  e.encodeHead 4 numElements.toNat

/-- The bytes encoded so far. -/
def view (e : CborBuffer) : CborEncoder := ⟨e.buffer.slice 0 e.length, e.capacity⟩

/-! ## One test, one copy -/

/-- Copy the bytes if there is room for all of them. -/
def put (e : CborBuffer) (bs : List UInt8) : CborBuffer :=
  if e.length + bs.length > e.capacity then e else e.copy bs

variable {e e' e'' : CborBuffer} {bs xs ys : List UInt8}

theorem store_eq (b : UInt8) : e.store b = e.copy [b] := rfl

theorem copy_copy : (e.copy xs).copy ys = e.copy (xs ++ ys) := by
  simp only [copy, Mem.write_append, List.length_append, Nat.add_assoc]

theorem put_nil : e.put [] = e := by
  rw [put]
  split_ifs
  · rfl
  · rw [copy, Mem.write_nil]
    rfl

theorem encodeHead_eq (e : CborBuffer) (major : ℕ) (hmajor : major < 8) (val : ℕ) :
    e.encodeHead (UInt8.ofNat major) val = e.put (Cbor.head major val) := by
  have hshift : ∀ info < 32, (UInt8.ofNat major <<< 5) ||| UInt8.ofNat info =
      UInt8.ofNat (32 * major + info) := fun info hinfo =>
    CborEncoder.shift_or ⟨major, hmajor⟩ ⟨info, hinfo⟩
  have h24 := hshift 24 (by omega)
  have h25 := hshift 25 (by omega)
  have h26 := hshift 26 (by omega)
  change (UInt8.ofNat major <<< 5) ||| 24 = _ at h24
  change (UInt8.ofNat major <<< 5) ||| 25 = _ at h25
  change (UInt8.ofNat major <<< 5) ||| 26 = _ at h26
  unfold encodeHead Cbor.head
  by_cases hfull : e.length ≥ e.capacity
  · have hnone : ∀ bs : List UInt8, 0 < bs.length → e.put bs = e := by
      intro bs hbs
      rw [put, if_pos (by omega)]
    rw [if_pos hfull]
    split_ifs <;> exact (hnone _ (by simp)).symm
  · rw [if_neg hfull]
    by_cases h1 : val < 24
    · rw [if_pos h1, if_pos h1, hshift val (by omega), put, if_neg]
      · rfl
      · rw [List.length_singleton]
        omega
    rw [if_neg h1, if_neg h1]
    by_cases h2 : val ≤ 0xFF
    · rw [if_pos h2, if_pos h2, h24]
      simp only [store_eq, copy_copy]
      rfl
    rw [if_neg h2, if_neg h2]
    by_cases h3 : val ≤ 0xFFFF
    · rw [if_pos h3, if_pos h3, h25]
      simp only [store_eq, copy_copy, Nat.shiftRight_eq_div_pow]
      rfl
    · rw [if_neg h3, if_neg h3, h26]
      simp only [store_eq, copy_copy, Nat.shiftRight_eq_div_pow]
      rfl

theorem encodeBool_eq (e : CborBuffer) (value : UInt8) :
    e.encodeBool value = e.put [if value ≠ 0 then 0xF5 else 0xF4] := by
  rw [encodeBool, put, List.length_singleton]
  simp only [ge_iff_le, gt_iff_lt, Nat.lt_succ_iff]
  rfl

theorem shift_mod (majorType : UInt8) :
    majorType <<< 5 = UInt8.ofNat (majorType.toNat % 8) <<< 5 := by
  apply UInt8.toNat.inj
  rw [UInt8.toNat_shiftLeft, UInt8.toNat_shiftLeft, UInt8.toNat_ofNat',
    Nat.shiftLeft_eq, Nat.shiftLeft_eq]
  change majorType.toNat * 32 % 256 = majorType.toNat % 8 % 256 * 32 % 256
  omega

/-- Only the low three bits of the major type are used. -/
theorem encodeHead_mod (e : CborBuffer) (majorType : UInt8) (val : ℕ) :
    e.encodeHead majorType val = e.encodeHead (UInt8.ofNat (majorType.toNat % 8)) val := by
  unfold encodeHead
  rw [← shift_mod]

/-! ## The bytes appended -/

/-- `e'` is `e` with the bytes appended, and no other byte of memory has changed. -/
structure Appended (e e' : CborBuffer) (bs : List UInt8) : Prop where
  length : e'.length = e.length + bs.length
  capacity : e'.capacity = e.capacity
  below : ∀ a < e.length, e'.buffer a = e.buffer a
  bytes : e'.buffer.Holds e.length bs
  above : ∀ a, e.length + bs.length ≤ a → e'.buffer a = e.buffer a

theorem appended_copy (e : CborBuffer) (bs : List UInt8) : Appended e (e.copy bs) bs where
  length := rfl
  capacity := rfl
  below a ha := if_neg (by omega)
  bytes := e.buffer.holds_write e.length bs
  above a ha := if_neg (by omega)

theorem put_of_fits (h : e.length + bs.length ≤ e.capacity) : e.put bs = e.copy bs :=
  if_neg (by omega)

theorem put_of_full (h : e.capacity < e.length + bs.length) : e.put bs = e :=
  if_pos h

theorem put_length_le (h : e.length ≤ e.capacity) : (e.put bs).length ≤ (e.put bs).capacity := by
  by_cases hfits : e.length + bs.length ≤ e.capacity
  · rw [put_of_fits hfits]
    exact hfits
  · rw [put_of_full (by omega)]
    exact h

theorem put_below {a : ℕ} (ha : a < e.length) : (e.put bs).buffer a = e.buffer a := by
  rw [put]
  split_ifs
  · rfl
  · exact (appended_copy e bs).below a ha

theorem put_beyond {a : ℕ} (ha : e.capacity ≤ a) : (e.put bs).buffer a = e.buffer a := by
  by_cases hfits : e.length + bs.length ≤ e.capacity
  · rw [put_of_fits hfits]
    exact (appended_copy e bs).above a (by omega)
  · rw [put_of_full (by omega)]

theorem put_length_ge : e.length ≤ (e.put bs).length := by
  rw [put]
  split_ifs
  · exact le_rfl
  · exact Nat.le_add_right _ _

@[simp] theorem put_capacity : (e.put bs).capacity = e.capacity := by
  rw [put]
  split_ifs <;> rfl

end CborBuffer

/-! ## The calls -/

/-- A call of the encoder with its arguments. -/
inductive EncodeCall where
  | head (majorType : UInt8) (val : UInt32)
  | uint (value : UInt32)
  | int (value : Int32)
  | bool (value : UInt8)
  | textString (str : List UInt8)
  | textStringLen (str : List UInt8)
  | byteString (data : List UInt8)
  | map (numPairs : UInt32)
  | array (numElements : UInt32)

namespace EncodeCall

def run : EncodeCall → CborBuffer → CborBuffer
  | head majorType val, e => e.encodeHead majorType val.toNat
  | uint value, e => e.encodeUint value
  | int value, e => e.encodeInt value
  | bool value, e => e.encodeBool value
  | textString str, e => e.encodeTextString str
  | textStringLen str, e => e.encodeTextStringLen str
  | byteString data, e => e.encodeByteString data
  | map numPairs, e => e.encodeMap numPairs
  | array numElements, e => e.encodeArray numElements

/-- The head of the item. -/
def headBytes : EncodeCall → List UInt8
  | head majorType val => Cbor.head (majorType.toNat % 8) val.toNat
  | uint value => Cbor.head 0 value.toNat
  | int value =>
      if value.toInt ≥ 0 then Cbor.head 0 value.toInt.toNat
      else Cbor.head 1 (-1 - value.toInt).toNat
  | bool value => [if value ≠ 0 then 0xF5 else 0xF4]
  | textString str => Cbor.head 3 str.length
  | textStringLen str => Cbor.head 3 str.length
  | byteString data => Cbor.head 2 data.length
  | map numPairs => Cbor.head 5 numPairs.toNat
  | array numElements => Cbor.head 4 numElements.toNat

/-- The bytes of a string. -/
def payload : EncodeCall → List UInt8
  | textString str => str
  | textStringLen str => str
  | byteString data => data
  | _ => []

variable {c : EncodeCall} {e : CborBuffer}

/-- Head and payload are appended one after the other, each if it fits. -/
theorem run_eq (c : EncodeCall) (e : CborBuffer) :
    c.run e = (e.put c.headBytes).put c.payload := by
  have hhead : ∀ major < 8, ∀ val,
      e.encodeHead (UInt8.ofNat major) val = (e.put (Cbor.head major val)).put [] :=
    fun major hmajor val => by rw [CborBuffer.encodeHead_eq e major hmajor, CborBuffer.put_nil]
  have hstring : ∀ major < 8, ∀ bs : List UInt8,
      (e.encodeHead (UInt8.ofNat major) bs.length).put bs =
        (e.put (Cbor.head major bs.length)).put bs :=
    fun major hmajor bs => by rw [CborBuffer.encodeHead_eq e major hmajor]
  cases c with
  | head majorType val =>
      rw [run, CborBuffer.encodeHead_mod]
      exact hhead _ (Nat.mod_lt _ (by omega)) _
  | uint value => exact hhead 0 (by omega) _
  | int value =>
      rw [run, CborBuffer.encodeInt, headBytes]
      split_ifs
      · exact hhead 0 (by omega) _
      · exact hhead 1 (by omega) _
  | bool value =>
      change e.encodeBool value = (e.put (bool value).headBytes).put []
      rw [CborBuffer.put_nil, CborBuffer.encodeBool_eq, headBytes]
  | textString str => exact hstring 3 (by omega) str
  | textStringLen str => exact hstring 3 (by omega) str
  | byteString data => exact hstring 2 (by omega) data
  | map numPairs => exact hhead 5 (by omega) _
  | array numElements => exact hhead 4 (by omega) _

theorem head_length_le (major n : ℕ) :
    (Cbor.head major n).length = 1 ∨ (Cbor.head major n).length ≤ n := by
  unfold Cbor.head
  split_ifs with h1 h2 h3
  · exact .inl rfl
  · right
    change 2 ≤ n
    omega
  · right
    change 3 ≤ n
    omega
  · right
    change 5 ≤ n
    omega

/-- No payload is shorter than its head, a head of one byte apart. -/
theorem headBytes_length_le (hpayload : c.payload ≠ []) :
    c.headBytes.length = 1 ∨ c.headBytes.length ≤ c.payload.length := by
  cases c with
  | textString str => exact head_length_le 3 str.length
  | textStringLen str => exact head_length_le 3 str.length
  | byteString data => exact head_length_le 2 data.length
  | head _ _ | uint _ | int _ | bool _ | map _ | array _ => exact absurd rfl hpayload

theorem headBytes_length_pos (c : EncodeCall) : 0 < c.headBytes.length := by
  cases c with
  | int value =>
      rw [headBytes]
      split_ifs
      · exact Cbor.head_length_pos _ _
      · exact Cbor.head_length_pos _ _
  | bool value => exact Nat.one_pos
  | head _ _ | uint _ | textString _ | textStringLen _ | byteString _ | map _ | array _ =>
      exact Cbor.head_length_pos _ _

/-- The complete item is in the buffer, or the encoder is as before. -/
structure AllOrNothing (c : EncodeCall) (e : CborBuffer) : Prop where
  within : (c.run e).length ≤ (c.run e).capacity
  below : ∀ a < e.length, (c.run e).buffer a = e.buffer a
  beyond : ∀ a, e.capacity ≤ a → (c.run e).buffer a = e.buffer a
  complete : CborBuffer.Appended e (c.run e) (c.headBytes ++ c.payload) ∨ c.run e = e

theorem run_within (h : e.length ≤ e.capacity) : (c.run e).length ≤ (c.run e).capacity := by
  rw [run_eq]
  exact CborBuffer.put_length_le (CborBuffer.put_length_le h)

theorem run_below {a : ℕ} (ha : a < e.length) : (c.run e).buffer a = e.buffer a := by
  rw [run_eq, CborBuffer.put_below (lt_of_lt_of_le ha CborBuffer.put_length_ge),
    CborBuffer.put_below ha]

theorem run_beyond {a : ℕ} (ha : e.capacity ≤ a) : (c.run e).buffer a = e.buffer a := by
  rw [run_eq, CborBuffer.put_beyond (by rwa [CborBuffer.put_capacity]),
    CborBuffer.put_beyond ha]

/-- The item fits as a whole. -/
theorem run_of_fits (h : e.length + (c.headBytes ++ c.payload).length ≤ e.capacity) :
    c.run e = e.copy (c.headBytes ++ c.payload) := by
  rw [List.length_append] at h
  have hhead : e.put c.headBytes = e.copy c.headBytes := CborBuffer.put_of_fits (by omega)
  rw [run_eq, hhead, CborBuffer.put_of_fits, CborBuffer.copy_copy]
  change e.length + c.headBytes.length + c.payload.length ≤ e.capacity
  omega

/-- Not even the head fits. -/
theorem run_of_full (h : e.capacity < e.length + c.headBytes.length) : c.run e = e := by
  rw [run_eq, CborBuffer.put_of_full h]
  by_cases hpayload : c.payload = []
  · rw [hpayload, CborBuffer.put_nil]
  · have hshort := headBytes_length_le hpayload
    have hpos := List.length_pos_iff.2 hpayload
    exact CborBuffer.put_of_full (by omega)

/-- The head fits, and the payload does not fit behind it. -/
theorem run_of_head (h : e.length + c.headBytes.length ≤ e.capacity)
    (hfull : e.capacity < e.length + (c.headBytes ++ c.payload).length) :
    c.run e = e.copy c.headBytes := by
  rw [List.length_append] at hfull
  have hhead : e.put c.headBytes = e.copy c.headBytes := CborBuffer.put_of_fits h
  rw [run_eq, hhead, CborBuffer.put_of_full]
  change e.capacity < e.length + c.headBytes.length + c.payload.length
  omega

/-- Only a string whose head fits and whose payload does not leaves something behind. -/
theorem allOrNothing_iff (c : EncodeCall) (e : CborBuffer) (h : e.length ≤ e.capacity) :
    c.AllOrNothing e ↔ c.payload = [] ∨
      e.length + (c.headBytes ++ c.payload).length ≤ e.capacity ∨
        e.capacity < e.length + c.headBytes.length := by
  have hitem : c.AllOrNothing e ↔
      (CborBuffer.Appended e (c.run e) (c.headBytes ++ c.payload) ∨ c.run e = e) :=
    ⟨AllOrNothing.complete, fun hcomplete =>
      ⟨run_within h, fun _ => run_below, fun _ => run_beyond, hcomplete⟩⟩
  rw [hitem]
  by_cases hfits : e.length + (c.headBytes ++ c.payload).length ≤ e.capacity
  · rw [run_of_fits hfits]
    exact iff_of_true (.inl (CborBuffer.appended_copy e _)) (.inr (.inl hfits))
  by_cases hfull : e.capacity < e.length + c.headBytes.length
  · exact iff_of_true (.inr (run_of_full hfull)) (.inr (.inr hfull))
  have hpayload : c.payload ≠ [] := by
    intro hnil
    rw [hnil, List.append_nil] at hfits
    omega
  refine iff_of_false ?_ (by tauto)
  rw [run_of_head (by omega) (by omega)]
  have hpos := c.headBytes_length_pos
  have hlength : (e.copy c.headBytes).length = e.length + c.headBytes.length := rfl
  rintro (happended | hsame)
  · have hall := happended.length
    have hpos := List.length_pos_iff.2 hpayload
    rw [hlength, List.length_append] at hall
    omega
  · rw [hsame] at hlength
    omega

/-- A string of two bytes, with room for all three bytes or for none. -/
theorem allOrNothing_twoBytes :
    (byteString [1, 2]).AllOrNothing ⟨fun _ => 0, 5, 8⟩ ∧
      (byteString [1, 2]).AllOrNothing ⟨fun _ => 0, 8, 8⟩ :=
  ⟨(allOrNothing_iff _ ⟨fun _ => 0, 5, 8⟩ (by decide)).2 (by decide),
    (allOrNothing_iff _ ⟨fun _ => 0, 8, 8⟩ (by decide)).2 (by decide)⟩

/-- With room for one byte, the head is left behind. -/
theorem string_leaves_head :
    let e : CborBuffer := ⟨fun _ => 0, 7, 8⟩
    let e' := (byteString [1, 2]).run e
    e.length ≤ e.capacity ∧ e'.length = 8 ∧ e'.buffer 7 = 0x42 ∧
      ¬ (byteString [1, 2]).AllOrNothing e := by
  refine ⟨by decide, by decide, by decide, ?_⟩
  rintro ⟨-, -, -, happended | hsame⟩
  · exact absurd happended.length (by decide)
  · exact absurd (congrArg CborBuffer.length hsame) (by decide)

/-! ## The encoder of lists -/

/-- The same call of the encoder which keeps the encoded bytes as a list. -/
def onList : EncodeCall → CborEncoder → CborEncoder
  | head majorType val, l => l.encodeHead majorType val.toNat
  | uint value, l => l.encodeUint value.toNat
  | int value, l => l.encodeInt value.toInt
  | bool value, l => l.encodeBool (value ≠ 0)
  | textString str, l => l.encodeTextStringLen str
  | textStringLen str, l => l.encodeTextStringLen str
  | byteString data, l => l.encodeByteString data
  | map numPairs, l => l.encodeMap numPairs.toNat
  | array numElements, l => l.encodeArray numElements.toNat

theorem view_put {bs : List UInt8} : (e.put bs).view = e.view.put bs := by
  unfold CborBuffer.view CborBuffer.put CborEncoder.put
  rw [Mem.slice_length]
  split_ifs
  · rfl
  · rw [CborEncoder.append, CborBuffer.copy, Mem.slice_write]

theorem view_encodeHead (majorType : UInt8) (val : ℕ) :
    (e.encodeHead majorType val).view = e.view.encodeHead majorType val := by
  have hmajor : majorType.toNat % 8 < 8 := Nat.mod_lt _ (by omega)
  have hmod : e.view.encodeHead majorType val =
      e.view.encodeHead (UInt8.ofNat (majorType.toNat % 8)) val := by
    unfold CborEncoder.encodeHead
    rw [← CborBuffer.shift_mod]
  rw [hmod, CborEncoder.encodeHead_eq _ _ hmajor, CborBuffer.encodeHead_mod,
    CborBuffer.encodeHead_eq _ _ hmajor, view_put]

/-- What the two encoders hold after a call is the same. -/
theorem view_run (c : EncodeCall) (e : CborBuffer) : (c.run e).view = c.onList e.view := by
  cases c with
  | head majorType val => exact view_encodeHead majorType _
  | uint value => exact view_encodeHead 0 _
  | int value =>
      rw [run, onList, CborBuffer.encodeInt, CborEncoder.encodeInt]
      split_ifs
      · exact view_encodeHead 0 _
      · exact view_encodeHead 1 _
  | bool value =>
      rw [run, onList, CborBuffer.encodeBool_eq, view_put, CborEncoder.encodeBool,
        CborEncoder.put, List.length_singleton]
      simp only [ge_iff_le, gt_iff_lt, Nat.lt_succ_iff, decide_eq_true_eq]
  | textString str => exact (view_put).trans (by rw [view_encodeHead]; rfl)
  | textStringLen str => exact (view_put).trans (by rw [view_encodeHead]; rfl)
  | byteString data => exact (view_put).trans (by rw [view_encodeHead]; rfl)
  | map numPairs => exact view_encodeHead 5 _
  | array numElements => exact view_encodeHead 4 _

end EncodeCall

end UnsoloKey
