import UnsoloKey.EncoderMemory
import UnsoloKey.ItemWire
import Mathlib.Tactic

/-!
# Encoding and reading back

A value of the protocol is encoded by one call for each of its heads.  With room for all
of its bytes, the calls append the shortest encoding of the value, and whoever reads the
buffer from the old length on finds this value and the new length.
-/

namespace UnsoloKey

open Cbor

namespace Cbor

mutual

/-- What can be passed to the encoder: `cbor_encode_int` takes an `int32_t`, and every
other number is a `uint32_t` or a length. -/
def Item.Encodable : Item → Prop
  | .uint n => n < 2 ^ 32
  | .nint n => n < 2 ^ 31
  | .bytes bs => bs.length < 2 ^ 32
  | .text bs => bs.length < 2 ^ 32
  | .array items => items.length < 2 ^ 32 ∧ EncodableItems items
  | .map entries => entries.length < 2 ^ 32 ∧ EncodableEntries entries
  | .bool _ => True

def EncodableItems : List Item → Prop
  | [] => True
  | x :: rest => x.Encodable ∧ EncodableItems rest

def EncodableEntries : List (Item × Item) → Prop
  | [] => True
  | (k, v) :: rest => k.Encodable ∧ v.Encodable ∧ EncodableEntries rest

end

mutual

theorem Item.valid (x : Item) (hx : x.Encodable) : x.Valid := by
  cases x with
  | uint n => exact hx
  | nint n =>
      have hn : n < 2 ^ 31 := hx
      change n < 2 ^ 32
      omega
  | bytes bs => exact hx
  | text bs => exact hx
  | array items => exact ⟨hx.1, encodableItems_valid items hx.2⟩
  | map entries => exact ⟨hx.1, encodableEntries_valid entries hx.2⟩
  | bool b => exact trivial

theorem encodableItems_valid (items : List Item) (hitems : EncodableItems items) :
    ValidItems items := by
  cases items with
  | nil => exact trivial
  | cons x rest => exact ⟨x.valid hitems.1, encodableItems_valid rest hitems.2⟩

theorem encodableEntries_valid (entries : List (Item × Item))
    (hentries : EncodableEntries entries) : ValidEntries entries := by
  match entries with
  | [] => exact trivial
  | (k, v) :: rest =>
      exact ⟨k.valid hentries.1, v.valid hentries.2.1, encodableEntries_valid rest hentries.2.2⟩

end

mutual

/-- The calls which encode the item, in their order. -/
def Item.calls : Item → List EncodeCall
  | .uint n => [.uint (UInt32.ofNat n)]
  | .nint n => [.int (Int32.ofInt (-1 - n))]
  | .bytes bs => [.byteString bs]
  | .text bs => [.textStringLen bs]
  | .array items => .array (UInt32.ofNat items.length) :: itemsCalls items
  | .map entries => .map (UInt32.ofNat entries.length) :: entriesCalls entries
  | .bool b => [.bool (if b then 1 else 0)]

def itemsCalls : List Item → List EncodeCall
  | [] => []
  | x :: rest => x.calls ++ itemsCalls rest

def entriesCalls : List (Item × Item) → List EncodeCall
  | [] => []
  | (k, v) :: rest => k.calls ++ v.calls ++ entriesCalls rest

end

/-- The calls which write a head of one major type.  `cbor_encode_int` writes both signs, and
`cbor_encode_head` every type. -/
inductive HeadCall : ℕ → ℕ → EncodeCall → Prop
  | head {major n : ℕ} (hmajor : major < 8) :
      HeadCall major n (.head (UInt8.ofNat major) (UInt32.ofNat n))
  | uint {n : ℕ} : HeadCall 0 n (.uint (UInt32.ofNat n))
  | nonneg {n : ℕ} (hn : n < 2 ^ 31) : HeadCall 0 n (.int (Int32.ofInt n))
  | negative {n : ℕ} (hn : n < 2 ^ 31) : HeadCall 1 n (.int (Int32.ofInt (-1 - n)))
  | array {n : ℕ} : HeadCall 4 n (.array (UInt32.ofNat n))
  | map {n : ℕ} : HeadCall 5 n (.map (UInt32.ofNat n))
  | bool {value : UInt8} : HeadCall 7 (if value ≠ 0 then 21 else 20) (.bool value)

/-- The calls which write a text.  `cbor_encode_text_string` stops at the first zero byte. -/
inductive TextCall (bs : List UInt8) : EncodeCall → Prop
  | len : TextCall bs (.textStringLen bs)
  | terminated (hbs : 0 ∉ bs) : TextCall bs (.textString bs)

mutual

/-- The calls emit the item, whichever call is chosen for each of its heads. -/
inductive Item.EmittedBy : Item → List EncodeCall → Prop
  | uint {n : ℕ} {c : EncodeCall} (h : HeadCall 0 n c) : Item.EmittedBy (.uint n) [c]
  | nint {n : ℕ} {c : EncodeCall} (h : HeadCall 1 n c) : Item.EmittedBy (.nint n) [c]
  | bytes (bs : List UInt8) : Item.EmittedBy (.bytes bs) [.byteString bs]
  | text {bs : List UInt8} {c : EncodeCall} (h : TextCall bs c) : Item.EmittedBy (.text bs) [c]
  | array {items : List Item} {c : EncodeCall} {calls : List EncodeCall}
      (h : HeadCall 4 items.length c) (hitems : ItemsEmittedBy items calls) :
      Item.EmittedBy (.array items) (c :: calls)
  | map {entries : List (Item × Item)} {c : EncodeCall} {calls : List EncodeCall}
      (h : HeadCall 5 entries.length c) (hentries : EntriesEmittedBy entries calls) :
      Item.EmittedBy (.map entries) (c :: calls)
  | bool {b : Bool} {c : EncodeCall} (h : HeadCall 7 (if b then 21 else 20) c) :
      Item.EmittedBy (.bool b) [c]

inductive ItemsEmittedBy : List Item → List EncodeCall → Prop
  | nil : ItemsEmittedBy [] []
  | cons {x : Item} {rest : List Item} {calls calls' : List EncodeCall} (h : x.EmittedBy calls)
      (hrest : ItemsEmittedBy rest calls') : ItemsEmittedBy (x :: rest) (calls ++ calls')

inductive EntriesEmittedBy : List (Item × Item) → List EncodeCall → Prop
  | nil : EntriesEmittedBy [] []
  | cons {k v : Item} {rest : List (Item × Item)} {calls calls' calls'' : List EncodeCall}
      (hk : k.EmittedBy calls) (hv : v.EmittedBy calls') (hrest : EntriesEmittedBy rest calls'') :
      EntriesEmittedBy ((k, v) :: rest) (calls ++ calls' ++ calls'')

end

mutual

theorem Item.emittedBy_calls (x : Item) (hx : x.Encodable) : x.EmittedBy x.calls := by
  cases x with
  | uint n => exact .uint .uint
  | nint n => exact .nint (.negative hx)
  | bytes bs => exact .bytes bs
  | text bs => exact .text .len
  | array items => exact .array .array (itemsEmittedBy_calls items hx.2)
  | map entries => exact .map .map (entriesEmittedBy_calls entries hx.2)
  | bool b =>
      cases b with
      | false => exact .bool (@HeadCall.bool 0)
      | true => exact .bool (@HeadCall.bool 1)

theorem itemsEmittedBy_calls (items : List Item) (hitems : EncodableItems items) :
    ItemsEmittedBy items (itemsCalls items) := by
  cases items with
  | nil => exact .nil
  | cons x rest => exact .cons (x.emittedBy_calls hitems.1) (itemsEmittedBy_calls rest hitems.2)

theorem entriesEmittedBy_calls (entries : List (Item × Item))
    (hentries : EncodableEntries entries) : EntriesEmittedBy entries (entriesCalls entries) := by
  match entries with
  | [] => exact .nil
  | (k, v) :: rest =>
      exact .cons (k.emittedBy_calls hentries.1) (v.emittedBy_calls hentries.2.1)
        (entriesEmittedBy_calls rest hentries.2.2)

end

end Cbor

/-! ## Runs of calls -/

def EncodeCall.runAll (calls : List EncodeCall) (e : CborBuffer) : CborBuffer :=
  calls.foldl (fun e c => c.run e) e

/-- Wherever the bytes fit, the calls append them. -/
def Emits (calls : List EncodeCall) (bs : List UInt8) : Prop :=
  ∀ e : CborBuffer, e.length + bs.length ≤ e.capacity → EncodeCall.runAll calls e = e.copy bs

variable {calls calls' : List EncodeCall} {bs bs' : List UInt8}

theorem emits_nil : Emits [] [] := by
  intro e h
  rw [← CborBuffer.put_of_fits h, CborBuffer.put_nil]
  rfl

theorem emits_append (h : Emits calls bs) (h' : Emits calls' bs') :
    Emits (calls ++ calls') (bs ++ bs') := by
  intro e hroom
  rw [List.length_append] at hroom
  have hfirst := h e (by omega)
  have hsecond := h' (e.copy bs) (by
    change e.length + bs.length + bs'.length ≤ e.capacity
    omega)
  unfold EncodeCall.runAll at hfirst hsecond ⊢
  rw [List.foldl_append, hfirst, hsecond, CborBuffer.copy_copy]

theorem emits_call (c : EncodeCall) : Emits [c] (c.headBytes ++ c.payload) :=
  fun _ hroom => EncodeCall.run_of_fits hroom

/-- The argument of the head is `-1 - value` for a negative value, which `int32_t` holds for
the least value too. -/
theorem Cbor.HeadCall.headBytes {major n : ℕ} {c : EncodeCall} (h : HeadCall major n c)
    (hn : n < 2 ^ 32) : c.headBytes = Cbor.head major n ∧ c.payload = [] := by
  have hcount : (UInt32.ofNat n).toNat = n := UInt32.toNat_ofNat_of_lt' hn
  refine ⟨?_, by cases h <;> rfl⟩
  cases h with
  | head hmajor =>
      rw [EncodeCall.headBytes, hcount, UInt8.toNat_ofNat', Nat.mod_mod_of_dvd _ (by decide),
        Nat.mod_eq_of_lt hmajor]
  | uint => rw [EncodeCall.headBytes, hcount]
  | nonneg hsmall =>
      have hvalue : (Int32.ofInt n).toInt = n := Int32.toInt_ofInt_of_le (by omega) (by omega)
      rw [EncodeCall.headBytes, hvalue, if_pos (by omega), Int.toNat_natCast]
  | negative hsmall =>
      have hvalue : (Int32.ofInt (-1 - n)).toInt = -1 - n :=
        Int32.toInt_ofInt_of_le (by omega) (by omega)
      rw [EncodeCall.headBytes, hvalue, if_neg (by omega)]
      congr 1
      omega
  | array => rw [EncodeCall.headBytes, hcount]
  | map => rw [EncodeCall.headBytes, hcount]
  | bool =>
      rw [EncodeCall.headBytes]
      split_ifs
      · rfl
      · rfl

theorem Cbor.HeadCall.emits {major n : ℕ} {c : EncodeCall} (h : HeadCall major n c)
    (hn : n < 2 ^ 32) : Emits [c] (Cbor.head major n) := by
  have hcall := emits_call c
  rwa [(h.headBytes hn).2, List.append_nil, (h.headBytes hn).1] at hcall

theorem Cbor.TextCall.emits {c : EncodeCall} (h : TextCall bs c) :
    Emits [c] (head 3 bs.length ++ bs) := by
  cases h with
  | len => exact emits_call (.textStringLen bs)
  | terminated hbs => exact emits_call (.textString bs)

mutual

theorem Cbor.Item.EmittedBy.emits (x : Item) (hx : x.Encodable) {calls : List EncodeCall}
    (h : x.EmittedBy calls) : Emits calls x.encode := by
  cases h with
  | uint hhead => exact hhead.emits hx
  | @nint n c hhead =>
      have hn : n < 2 ^ 31 := hx
      exact hhead.emits (by omega)
  | bytes bs => exact emits_call (.byteString bs)
  | text htext => exact htext.emits
  | @array items c calls hhead hitems =>
      exact emits_append (hhead.emits hx.1) (itemsEmittedBy_emits items hx.2 hitems)
  | @map entries c calls hhead hentries =>
      exact emits_append (hhead.emits hx.1) (entriesEmittedBy_emits entries hx.2 hentries)
  | @bool b c hhead =>
      cases b with
      | false => exact hhead.emits (by decide)
      | true => exact hhead.emits (by decide)

theorem itemsEmittedBy_emits (items : List Item) (hitems : EncodableItems items)
    {calls : List EncodeCall} (h : ItemsEmittedBy items calls) :
    Emits calls (encodeItems items) := by
  cases h with
  | nil => exact emits_nil
  | @cons x rest calls calls' hx hrest =>
      exact emits_append (hx.emits x hitems.1)
        (itemsEmittedBy_emits rest hitems.2 hrest)

theorem entriesEmittedBy_emits (entries : List (Item × Item)) (hentries : EncodableEntries entries)
    {calls : List EncodeCall} (h : EntriesEmittedBy entries calls) :
    Emits calls (encodeEntries entries) := by
  cases h with
  | nil => exact emits_nil
  | @cons k v rest calls calls' calls'' hk hv hrest =>
      exact emits_append (emits_append (hk.emits k hentries.1)
        (hv.emits v hentries.2.1))
        (entriesEmittedBy_emits rest hentries.2.2 hrest)

end

/-! ## Reading back -/

/-- The bytes between the two lengths. -/
def CborBuffer.since (old e : CborBuffer) : List UInt8 :=
  e.buffer.slice old.length (e.length - old.length)

theorem CborBuffer.Appended.since_eq {e e' : CborBuffer} (h : Appended e e' bs) :
    since e e' = bs :=
  h.bytes.slice_eq (by rw [h.length, Nat.add_sub_cancel_left])

/-- A value is written in its shortest form, whichever calls emit it, and read back from
exactly the bytes by which the encoder has grown. -/
theorem calls_roundTrip (x : Item) (hx : x.Encodable) :
    x.EmittedBy x.calls ∧ ∀ calls, x.EmittedBy calls → ∀ e : CborBuffer,
      e.length + x.encode.length ≤ e.capacity →
      let e' := EncodeCall.runAll calls e
      CborBuffer.Appended e e' x.wire.encode ∧ x.wire.WellFormed ∧ x.wire.Shortest ∧
        ∀ rest depth, x.depth ≤ depth →
          decodeItem depth (e.since e' ++ rest) = some (x, rest) ∧
            ∀ (y : Wire) (rest' : List UInt8), y.WellFormed →
              y.encode ++ rest' = e.since e' ++ rest → y = x.wire ∧ rest' = rest := by
  refine ⟨x.emittedBy_calls hx, ?_⟩
  intro calls hcalls e hroom e'
  have hvalid := x.valid hx
  have he' : e' = e.copy x.encode := hcalls.emits x hx e hroom
  have happended : CborBuffer.Appended e e' x.wire.encode := by
    rw [he', x.encode_wire hvalid]
    exact CborBuffer.appended_copy e x.encode
  refine ⟨happended, Item.wire_wellFormed hvalid, Item.wire_shortest hvalid, ?_⟩
  intro rest depth hdepth
  rw [happended.since_eq]
  constructor
  · rw [x.encode_wire hvalid]
    exact decodeItem_encode x hvalid hdepth rest
  · intro y rest' hy hbytes
    exact y.encode_inj hy (Item.wire_wellFormed hvalid) hbytes

/-- The numbers 255 and `-2 ^ 31` and a letter in an array, in a buffer with no byte to
spare. -/
theorem calls_roundTrip_leastInteger :
    (EncodeCall.runAll
        [.head 4 3, .int 255, .int (Int32.ofInt (-1 - (2 ^ 31 - 1 : ℕ))), .textString [0x61]]
        ⟨fun _ => 0, 3, 13⟩).buffer.Holds 3
      [0x83, 0x18, 0xFF, 0x3A, 0x7F, 0xFF, 0xFF, 0xFF, 0x61, 0x61] :=
  ((calls_roundTrip (.array [.uint 255, .nint (2 ^ 31 - 1), .text [0x61]])
    ⟨by decide, show 255 < 2 ^ 32 by decide, show 2 ^ 31 - 1 < 2 ^ 31 by decide,
      show 1 < 2 ^ 32 by decide, trivial⟩).2 _
    (.array (.head (by decide)) (.cons (.uint (.nonneg (by decide)))
      (.cons (.nint (.negative (by decide))) (.cons (.text (.terminated (by decide))) .nil))))
    ⟨fun _ => 0, 3, 13⟩ (by decide)).1.bytes

end UnsoloKey
