import Mathlib.Tactic

/-!
# Canonical CBOR

The data model of the CBOR subset used by authenticators: integers, strings,
arrays, maps and booleans, each encoded with the shortest head.  Decoding is
given by a recursion depth; `decodeItem_encode` is the round trip, for every
depth which suffices for the item.
-/

namespace UnsoloKey.Cbor

/-- `nint n` stands for the integer `-1 - n`. -/
inductive Item where
  | uint (n : ℕ)
  | nint (n : ℕ)
  | bytes (bs : List UInt8)
  | text (bs : List UInt8)
  | array (items : List Item)
  | map (entries : List (Item × Item))
  | bool (b : Bool)

abbrev Entry := Item × Item

/-- The shortest head of major type `major` with argument `n`. -/
def head (major n : ℕ) : List UInt8 :=
  if n < 24 then [UInt8.ofNat (32 * major + n)]
  else if n ≤ 0xFF then [UInt8.ofNat (32 * major + 24), UInt8.ofNat n]
  else if n ≤ 0xFFFF then
    [UInt8.ofNat (32 * major + 25), UInt8.ofNat (n / 256), UInt8.ofNat n]
  else
    [UInt8.ofNat (32 * major + 26), UInt8.ofNat (n / 16777216),
      UInt8.ofNat (n / 65536), UInt8.ofNat (n / 256), UInt8.ofNat n]

theorem head_length_pos (major n : ℕ) : 0 < (head major n).length := by
  unfold head
  split_ifs <;> simp

mutual

def Item.encode : Item → List UInt8
  | .uint n => head 0 n
  | .nint n => head 1 n
  | .bytes bs => head 2 bs.length ++ bs
  | .text bs => head 3 bs.length ++ bs
  | .array items => head 4 items.length ++ encodeItems items
  | .map entries => head 5 entries.length ++ encodeEntries entries
  | .bool b => [if b then 0xF5 else 0xF4]

def encodeItems : List Item → List UInt8
  | [] => []
  | x :: rest => x.encode ++ encodeItems rest

def encodeEntries : List (Item × Item) → List UInt8
  | [] => []
  | (k, v) :: rest => k.encode ++ v.encode ++ encodeEntries rest

end

theorem encodeEntries_append (before after : List Entry) :
    encodeEntries (before ++ after) =
      encodeEntries before ++ encodeEntries after := by
  induction before with
  | nil => rfl
  | cons e before ih => simp [encodeEntries, ih]

mutual

def Item.depth : Item → ℕ
  | .array items => depthItems items + 1
  | .map entries => depthEntries entries + 1
  | _ => 1

def depthItems : List Item → ℕ
  | [] => 0
  | x :: rest => max x.depth (depthItems rest)

def depthEntries : List (Item × Item) → ℕ
  | [] => 0
  | (k, v) :: rest => max (max k.depth v.depth) (depthEntries rest)

end

theorem Item.encode_length_pos (x : Item) : 0 < x.encode.length := by
  cases x with
  | uint n => exact head_length_pos 0 n
  | nint n => exact head_length_pos 1 n
  | bool b => simp [Item.encode]
  | bytes bs =>
      have hpos := head_length_pos 2 bs.length
      simp only [Item.encode, List.length_append]
      omega
  | text bs =>
      have hpos := head_length_pos 3 bs.length
      simp only [Item.encode, List.length_append]
      omega
  | array items =>
      have hpos := head_length_pos 4 items.length
      simp only [Item.encode, List.length_append]
      omega
  | map entries =>
      have hpos := head_length_pos 5 entries.length
      simp only [Item.encode, List.length_append]
      omega

mutual

theorem Item.depth_le (x : Item) : x.depth ≤ x.encode.length := by
  cases x with
  | uint n => exact head_length_pos 0 n
  | nint n => exact head_length_pos 1 n
  | bool b => simp [Item.depth, Item.encode]
  | bytes bs => exact (Item.bytes bs).encode_length_pos
  | text bs => exact (Item.text bs).encode_length_pos
  | array items =>
      have hhead := head_length_pos 4 items.length
      have hitems := depthItems_le items
      simp only [Item.depth, Item.encode, List.length_append]
      omega
  | map entries =>
      have hhead := head_length_pos 5 entries.length
      have hentries := depthEntries_le entries
      simp only [Item.depth, Item.encode, List.length_append]
      omega

theorem depthItems_le (items : List Item) :
    depthItems items ≤ (encodeItems items).length := by
  cases items with
  | nil => exact Nat.zero_le _
  | cons x rest =>
      have hx := x.depth_le
      have hrest := depthItems_le rest
      simp only [depthItems, encodeItems, List.length_append]
      omega

theorem depthEntries_le (entries : List (Item × Item)) :
    depthEntries entries ≤ (encodeEntries entries).length := by
  match entries with
  | [] => exact Nat.zero_le _
  | (k, v) :: rest =>
      have hk := k.depth_le
      have hv := v.depth_le
      have hrest := depthEntries_le rest
      simp only [depthEntries, encodeEntries, List.length_append]
      omega

end

theorem head_length_le (major n : ℕ) : (head major n).length ≤ 5 := by
  unfold head
  split_ifs <;> simp

mutual

/-- Room enough for the item, with five bytes for every head. -/
def Item.room : Item → ℕ
  | .bytes bs => 5 + bs.length
  | .text bs => 5 + bs.length
  | .array items => 5 + roomItems items
  | .map entries => 5 + roomEntries entries
  | _ => 5

def roomItems : List Item → ℕ
  | [] => 0
  | x :: rest => x.room + roomItems rest

def roomEntries : List (Item × Item) → ℕ
  | [] => 0
  | (k, v) :: rest => k.room + v.room + roomEntries rest

end

mutual

theorem Item.encode_length_le (x : Item) : x.encode.length ≤ x.room := by
  cases x with
  | uint n => exact head_length_le 0 n
  | nint n => exact head_length_le 1 n
  | bool b => simp [Item.encode, Item.room]
  | bytes bs =>
      have hhead := head_length_le 2 bs.length
      simp only [Item.encode, Item.room, List.length_append]
      omega
  | text bs =>
      have hhead := head_length_le 3 bs.length
      simp only [Item.encode, Item.room, List.length_append]
      omega
  | array items =>
      have hhead := head_length_le 4 items.length
      have hitems := encodeItems_length_le items
      simp only [Item.encode, Item.room, List.length_append]
      omega
  | map entries =>
      have hhead := head_length_le 5 entries.length
      have hentries := encodeEntries_length_le entries
      simp only [Item.encode, Item.room, List.length_append]
      omega

theorem encodeItems_length_le (items : List Item) :
    (encodeItems items).length ≤ roomItems items := by
  cases items with
  | nil => exact le_rfl
  | cons x rest =>
      have hx := x.encode_length_le
      have hrest := encodeItems_length_le rest
      simp only [encodeItems, roomItems, List.length_append]
      omega

theorem encodeEntries_length_le (entries : List (Item × Item)) :
    (encodeEntries entries).length ≤ roomEntries entries := by
  match entries with
  | [] => exact le_rfl
  | (k, v) :: rest =>
      have hk := k.encode_length_le
      have hv := v.encode_length_le
      have hrest := encodeEntries_length_le rest
      simp only [encodeEntries, roomEntries, List.length_append]
      omega

end

/-! ## Decoding -/

/-- The major type and the argument of a head, with the bytes after it. -/
def decodeHead : List UInt8 → Option (ℕ × ℕ × List UInt8)
  | [] => none
  | b :: rest =>
      let major := b.toNat / 32
      let info := b.toNat % 32
      if info < 24 then some (major, info, rest)
      else match info, rest with
        | 24, c :: rest => some (major, c.toNat, rest)
        | 25, hi :: lo :: rest => some (major, 256 * hi.toNat + lo.toNat, rest)
        | 26, b3 :: b2 :: b1 :: b0 :: rest =>
            some (major, 16777216 * b3.toNat + 65536 * b2.toNat +
              256 * b1.toNat + b0.toNat, rest)
        | _, _ => none

def decodeItems (dec : List UInt8 → Option (Item × List UInt8)) :
    ℕ → List UInt8 → Option (List Item × List UInt8)
  | 0, bs => some ([], bs)
  | n + 1, bs => do
      let (x, bs) ← dec bs
      let (items, bs) ← decodeItems dec n bs
      some (x :: items, bs)

def decodeEntries (dec : List UInt8 → Option (Item × List UInt8)) :
    ℕ → List UInt8 → Option (List Entry × List UInt8)
  | 0, bs => some ([], bs)
  | n + 1, bs => do
      let (k, bs) ← dec bs
      let (v, bs) ← dec bs
      let (entries, bs) ← decodeEntries dec n bs
      some ((k, v) :: entries, bs)

/-- The item at the front, nested at most `depth` deep, and what follows it. -/
def decodeItem : ℕ → List UInt8 → Option (Item × List UInt8)
  | 0, _ => none
  | depth + 1, bs => do
      let (major, n, rest) ← decodeHead bs
      match major with
      | 0 => some (.uint n, rest)
      | 1 => some (.nint n, rest)
      | 2 =>
          if n ≤ rest.length then some (.bytes (rest.take n), rest.drop n)
          else none
      | 3 =>
          if n ≤ rest.length then some (.text (rest.take n), rest.drop n)
          else none
      | 4 =>
          (decodeItems (decodeItem depth) n rest).map fun (items, rest) =>
            (.array items, rest)
      | 5 =>
          (decodeEntries (decodeItem depth) n rest).map fun (entries, rest) =>
            (.map entries, rest)
      | 7 =>
          if n = 20 then some (.bool false, rest)
          else if n = 21 then some (.bool true, rest)
          else none
      | _ => none

/-- The item which the bytes encode, if they encode exactly one. -/
def decode (bs : List UInt8) : Option Item :=
  match decodeItem bs.length bs with
  | some (x, []) => some x
  | _ => none

mutual

/-- Every argument fits a head. -/
def Item.Valid : Item → Prop
  | .uint n => n < 2 ^ 32
  | .nint n => n < 2 ^ 32
  | .bytes bs => bs.length < 2 ^ 32
  | .text bs => bs.length < 2 ^ 32
  | .array items => items.length < 2 ^ 32 ∧ ValidItems items
  | .map entries => entries.length < 2 ^ 32 ∧ ValidEntries entries
  | .bool _ => True

def ValidItems : List Item → Prop
  | [] => True
  | x :: rest => x.Valid ∧ ValidItems rest

def ValidEntries : List (Item × Item) → Prop
  | [] => True
  | (k, v) :: rest => k.Valid ∧ v.Valid ∧ ValidEntries rest

end

theorem decodeHead_head {major n : ℕ} (hmajor : major < 8) (hn : n < 2 ^ 32)
    (rest : List UInt8) :
    decodeHead (head major n ++ rest) = some (major, n, rest) := by
  have hinfo : ∀ info < 32, (32 * major + info) % 256 % 32 = info := by omega
  unfold head
  split_ifs with h1 h2 h3
  · simp [decodeHead, hinfo n (by omega), h1]
    omega
  · simp [decodeHead, hinfo 24 (by omega)]
    omega
  · simp [decodeHead, hinfo 25 (by omega)]
    omega
  · simp [decodeHead, hinfo 26 (by omega)]
    omega

mutual

theorem decodeItem_encode (x : Item) (hx : x.Valid) {depth : ℕ}
    (hdepth : x.depth ≤ depth) (rest : List UInt8) :
    decodeItem depth (x.encode ++ rest) = some (x, rest) := by
  have hpos : 0 < x.depth := by cases x <;> simp [Item.depth]
  cases depth with
  | zero => omega
  | succ depth =>
      cases x with
      | uint n => simp [decodeItem, Item.encode, decodeHead_head _ hx]
      | nint n => simp [decodeItem, Item.encode, decodeHead_head _ hx]
      | bytes bs =>
          simp [decodeItem, Item.encode, List.append_assoc,
            decodeHead_head _ hx]
      | text bs =>
          simp [decodeItem, Item.encode, List.append_assoc,
            decodeHead_head _ hx]
      | array items =>
          have hdeep : depthItems items ≤ depth := by
            simp only [Item.depth] at hdepth
            omega
          have hitems := decodeItems_encode items hx.2 hdeep rest
          simp [decodeItem, Item.encode, List.append_assoc,
            decodeHead_head _ hx.1, hitems]
      | map entries =>
          have hdeep : depthEntries entries ≤ depth := by
            simp only [Item.depth] at hdepth
            omega
          have hentries := decodeEntries_encode entries hx.2 hdeep rest
          simp [decodeItem, Item.encode, List.append_assoc,
            decodeHead_head _ hx.1, hentries]
      | bool b => cases b <;> rfl

theorem decodeItems_encode (items : List Item) (hitems : ValidItems items)
    {depth : ℕ} (hdepth : depthItems items ≤ depth) (rest : List UInt8) :
    decodeItems (decodeItem depth) items.length (encodeItems items ++ rest) =
      some (items, rest) := by
  cases items with
  | nil => rfl
  | cons x items =>
      simp only [depthItems] at hdepth
      have hhere : x.depth ≤ depth := by omega
      have hlater : depthItems items ≤ depth := by omega
      have hx := decodeItem_encode x hitems.1 hhere (encodeItems items ++ rest)
      have hrest := decodeItems_encode items hitems.2 hlater rest
      simp [decodeItems, encodeItems, List.append_assoc, hx, hrest]

theorem decodeEntries_encode (entries : List (Item × Item))
    (hentries : ValidEntries entries) {depth : ℕ}
    (hdepth : depthEntries entries ≤ depth) (rest : List UInt8) :
    decodeEntries (decodeItem depth) entries.length
      (encodeEntries entries ++ rest) = some (entries, rest) := by
  match entries with
  | [] => rfl
  | (k, v) :: entries =>
      simp only [depthEntries] at hdepth
      have hkey : k.depth ≤ depth := by omega
      have hvalue : v.depth ≤ depth := by omega
      have hlater : depthEntries entries ≤ depth := by omega
      have hk := decodeItem_encode k hentries.1 hkey
        (v.encode ++ (encodeEntries entries ++ rest))
      have hv := decodeItem_encode v hentries.2.1 hvalue
        (encodeEntries entries ++ rest)
      have hrest := decodeEntries_encode entries hentries.2.2 hlater rest
      simp [decodeEntries, encodeEntries, List.append_assoc, hk, hv, hrest]

end

theorem decode_encode (x : Item) (hx : x.Valid) : decode x.encode = some x := by
  have h := decodeItem_encode x hx x.depth_le []
  rw [List.append_nil] at h
  simp [decode, h]

end UnsoloKey.Cbor
