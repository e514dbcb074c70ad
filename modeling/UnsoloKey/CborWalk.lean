import UnsoloKey.CborScan
import UnsoloKey.CborItem
import Mathlib.Tactic

/-!
# The scanner on canonical requests

Where the memory holds the encoding of an item whose arguments fit 16 bits,
`skip_cbor_item` finds its end, and the map accessors find the entry which the
map has under their key.
-/

namespace UnsoloKey

open Rd Cbor

mutual

/-- Every argument fits the 16 bits which the scanner reads. -/
def Scannable : Item → Prop
  | .uint n => n < 65536
  | .nint n => n < 65536
  | .bytes bs => bs.length < 65536
  | .text bs => bs.length < 65536
  | .array items => items.length < 65536 ∧ ScannableItems items
  | .map entries => entries.length < 65536 ∧ ScannableEntries entries
  | .bool _ => True

def ScannableItems : List Item → Prop
  | [] => True
  | x :: rest => Scannable x ∧ ScannableItems rest

def ScannableEntries : List (Item × Item) → Prop
  | [] => True
  | (k, v) :: rest => Scannable k ∧ Scannable v ∧ ScannableEntries rest

end

/-! ## Heads -/

variable {m : Mem} {p len : ℕ}

/-- What the scanner reads of a head. -/
structure HeadAt (m : Mem) (p major n : ℕ) : Prop where
  bits : majorBits (m p) = UInt8.ofNat (32 * major)
  count : (headCount p (infoBits (m p))).run m = some (n, (head major n).length)

theorem headAt_of_holds {major n : ℕ} (hmajor : major < 8) (hn : n < 65536)
    (h : m.Holds p (head major n)) : HeadAt m p major n := by
  have hbits : ∀ info < 32, m p = UInt8.ofNat (32 * major + info) →
      majorBits (m p) = UInt8.ofNat (32 * major) ∧ infoBits (m p) = info := by
    intro info hinfo hbyte
    rw [hbyte]
    exact bits_of_initial ⟨major, hmajor⟩ ⟨info, hinfo⟩
  unfold head at h
  split_ifs at h with h24 h255 h65535
  · rw [Mem.holds_cons] at h
    obtain ⟨hm, hi⟩ := hbits n (by omega) h.1
    refine ⟨hm, ?_⟩
    have hne : n ≠ 24 ∧ n ≠ 25 := by omega
    simp [headCount, hi, hne, head, h24]
  · simp only [Mem.holds_cons] at h
    obtain ⟨hm, hi⟩ := hbits 24 (by omega) h.1
    refine ⟨hm, ?_⟩
    simp [headCount, hi, h.2.1, head, h24, h255]
    omega
  · simp only [Mem.holds_cons] at h
    obtain ⟨hm, hi⟩ := hbits 25 (by omega) h.1
    refine ⟨hm, ?_⟩
    simp [headCount, hi, h.2.1, h.2.2.1, head, h24, h255, h65535]
    omega
  · omega

/-! ## skip_cbor_item -/

theorem skipItems_succ (skip : ℕ → ℕ → Rd ℕ) (data count offset item : ℕ)
    (hoffset : offset < len) (hitem : (skip (data + offset) (len - offset)).run m = some item) :
    (skipItems skip data len (count + 1) offset).run m =
      (skipItems skip data len count (u16 (offset + item))).run m := by
  rw [skipItems, run_ite, if_neg (by omega), run_bind, hitem]
  rfl

theorem skipDepth_run {major n depth : ℕ} (hhead : HeadAt m p major n)
    (hlen : 0 < len) :
    (skipCborItemDepth (depth + 1) p len).run m =
      let b := UInt8.ofNat (32 * major)
      let headerLen := (head major n).length
      Rd.run (if b = 0x00 ∨ b = 0x20 ∨ b = 0xE0 then pure headerLen
        else if b = 0x40 ∨ b = 0x60 then pure (u16 (headerLen + n))
        else if b = 0x80 then
          skipItems (skipCborItemDepth depth) p len n headerLen
        else if b = 0xA0 then
          skipItems (skipCborItemDepth depth) p len (n * 2) headerLen
        else pure headerLen) m := by
  rw [skipCborItemDepth, if_neg (by omega), run_bind, run_byte, Option.bind_some,
    run_bind, hhead.count, Option.bind_some, hhead.bits]

theorem u16_of_lt {n : ℕ} (h : n < 65536) : u16 n = n := Nat.mod_eq_of_lt h

theorem holds_after_entry {data offset : ℕ} {k v : Item} {rest : List Entry}
    (h : m.Holds (data + offset + (k.encode ++ v.encode).length) (encodeEntries rest)) :
    m.Holds (data + (offset + k.encode.length + v.encode.length)) (encodeEntries rest) := by
  rw [List.length_append] at h
  simpa only [Nat.add_assoc] using h

mutual

theorem skipDepth_encode (x : Item) (hx : Scannable x) {depth p len : ℕ}
    (hdepth : x.depth ≤ depth) (hm : m.Holds p x.encode)
    (hlen : x.encode.length ≤ len) (hshort : len < 65536) :
    (skipCborItemDepth depth p len).run m = some x.encode.length := by
  have hpos := x.encode_length_pos
  have hdeep : 0 < x.depth := by cases x <;> simp [Item.depth]
  have hsome : 0 < len := by omega
  obtain ⟨depth, rfl⟩ : ∃ n, depth = n + 1 := ⟨depth - 1, by omega⟩
  cases x with
  | uint n =>
      rw [skipDepth_run (headAt_of_holds (by omega) hx hm) hsome]
      rfl
  | nint n =>
      rw [skipDepth_run (headAt_of_holds (by omega) hx hm) hsome]
      rfl
  | bool b =>
      have hinitial : (Item.bool b).encode = head 7 (if b then 21 else 20) := by
        cases b <;> rfl
      rw [hinitial] at hm ⊢
      rw [skipDepth_run (headAt_of_holds (by omega) (by split <;> omega) hm) hsome]
      rfl
  | bytes bs =>
      simp only [Item.encode, List.length_append] at hm hlen ⊢
      rw [Mem.holds_append] at hm
      rw [skipDepth_run (headAt_of_holds (by omega) hx hm.1) hsome]
      exact congrArg some (u16_of_lt (by omega))
  | text bs =>
      simp only [Item.encode, List.length_append] at hm hlen ⊢
      rw [Mem.holds_append] at hm
      rw [skipDepth_run (headAt_of_holds (by omega) hx hm.1) hsome]
      exact congrArg some (u16_of_lt (by omega))
  | array items =>
      simp only [Item.encode, Item.depth, List.length_append] at hm hlen hdepth ⊢
      rw [Mem.holds_append] at hm
      rw [skipDepth_run (headAt_of_holds (by omega) hx.1 hm.1) hsome]
      exact skipItems_encode items hx.2 (by omega) hm.2 hlen hshort
  | map entries =>
      simp only [Item.encode, Item.depth, List.length_append] at hm hlen hdepth ⊢
      rw [Mem.holds_append] at hm
      rw [skipDepth_run (headAt_of_holds (by omega) hx.1 hm.1) hsome]
      exact skipEntries_encode entries hx.2 (by omega) hm.2 hlen hshort

theorem skipItems_encode (items : List Item) (hitems : ScannableItems items)
    {depth data len offset : ℕ} (hdepth : depthItems items ≤ depth)
    (hm : m.Holds (data + offset) (encodeItems items))
    (hlen : offset + (encodeItems items).length ≤ len) (hshort : len < 65536) :
    (skipItems (skipCborItemDepth depth) data len items.length offset).run m =
      some (offset + (encodeItems items).length) := by
  cases items with
  | nil => simp [skipItems, encodeItems]
  | cons x rest =>
      have hpos := x.encode_length_pos
      simp only [depthItems] at hdepth
      simp only [encodeItems, List.length_append] at hm hlen ⊢
      rw [Mem.holds_append] at hm
      have hhere : x.depth ≤ depth := by omega
      have hlater : depthItems rest ≤ depth := by omega
      have hroom : x.encode.length ≤ len - offset := by omega
      have hx := skipDepth_encode x hitems.1 hhere hm.1 hroom (by omega)
      have hrest := skipItems_encode rest hitems.2 hlater
        (by rw [← Nat.add_assoc]; exact hm.2) (by omega) hshort
      rw [List.length_cons, skipItems_succ _ _ _ _ _ (by omega) hx,
        u16_of_lt (by omega), hrest, Nat.add_assoc]

theorem skipEntries_encode (entries : List (Item × Item))
    (hentries : ScannableEntries entries) {depth data len offset : ℕ}
    (hdepth : depthEntries entries ≤ depth)
    (hm : m.Holds (data + offset) (encodeEntries entries))
    (hlen : offset + (encodeEntries entries).length ≤ len) (hshort : len < 65536) :
    (skipItems (skipCborItemDepth depth) data len (entries.length * 2) offset).run m =
      some (offset + (encodeEntries entries).length) := by
  match entries with
  | [] => simp [skipItems, encodeEntries]
  | (k, v) :: rest =>
      have hkpos := k.encode_length_pos
      have hvpos := v.encode_length_pos
      simp only [depthEntries] at hdepth
      simp only [encodeEntries, List.length_append] at hm hlen ⊢
      rw [Mem.holds_append, Mem.holds_append] at hm
      have hkey : k.depth ≤ depth := by omega
      have hvalue : v.depth ≤ depth := by omega
      have hlater : depthEntries rest ≤ depth := by omega
      have hkroom : k.encode.length ≤ len - offset := by omega
      have hvroom : v.encode.length ≤ len - (offset + k.encode.length) := by omega
      have hafter := holds_after_entry hm.2
      have hk := skipDepth_encode k hentries.1 hkey hm.1.1 hkroom (by omega)
      have hv := skipDepth_encode v hentries.2.1 hvalue
        (p := data + (offset + k.encode.length))
        (by rw [← Nat.add_assoc]; exact hm.1.2) hvroom (by omega)
      have hrest := skipEntries_encode rest hentries.2.2 hlater hafter (by omega)
        hshort
      have hcount : ((k, v) :: rest).length * 2 = rest.length * 2 + 1 + 1 := by
        rw [List.length_cons]
        omega
      rw [hcount, skipItems_succ _ _ _ _ _ (by omega) hk, u16_of_lt (by omega),
        skipItems_succ _ _ _ _ _ (by omega) hv, u16_of_lt (by omega), hrest]
      simp only [Nat.add_assoc]

end

theorem skip_encode {x : Item} (hx : Scannable x) (hm : m.Holds p x.encode)
    (hlen : x.encode.length ≤ len) (hshort : len < 65536) :
    (skipCborItem p len).run m = some x.encode.length :=
  skipDepth_encode x hx (by have hdepth := x.depth_le; omega) hm hlen hshort

/-! ## Walking a map by integer keys -/

section

variable {α : Type} {isKey : ℕ → Rd Bool} {found : ℕ → ℕ → Rd α}
  {notMap missing : α} {data offset count : ℕ} {k v : Item}

theorem walkEntries_hit (hk : Scannable k) (hm : m.Holds (data + offset) k.encode)
    (hkey : (isKey (data + offset)).run m = some true)
    (hlen : offset + k.encode.length < len) (hshort : len < 65536) :
    (walkEntries isKey found missing data len (count + 1) offset).run m =
      (found (data + (offset + k.encode.length))
        (len - (offset + k.encode.length))).run m := by
  have hroom : k.encode.length ≤ len - offset := by omega
  have hskip := skip_encode hk hm hroom (by omega)
  rw [walkEntries, if_neg (by omega), run_bind, hkey, Option.bind_some, run_bind,
    hskip, Option.bind_some, u16_of_lt (by omega), if_neg (by omega), if_pos rfl]

theorem walkEntries_miss (hk : Scannable k) (hv : Scannable v)
    (hm : m.Holds (data + offset) (k.encode ++ v.encode))
    (hkey : (isKey (data + offset)).run m = some false)
    (hlen : offset + k.encode.length + v.encode.length ≤ len)
    (hshort : len < 65536) :
    (walkEntries isKey found missing data len (count + 1) offset).run m =
      (walkEntries isKey found missing data len count
        (offset + k.encode.length + v.encode.length)).run m := by
  have hvpos := v.encode_length_pos
  rw [Mem.holds_append] at hm
  have hkroom : k.encode.length ≤ len - offset := by omega
  have hvroom : v.encode.length ≤ len - (offset + k.encode.length) := by omega
  have hskip := skip_encode hk hm.1 hkroom (by omega)
  have hvalue := skip_encode hv (p := data + (offset + k.encode.length))
    (by rw [← Nat.add_assoc]; exact hm.2) hvroom (by omega)
  rw [walkEntries, if_neg (by omega), run_bind, hkey, Option.bind_some, run_bind,
    hskip, Option.bind_some, u16_of_lt (by omega), if_neg (by omega),
    if_neg (by simp), run_bind, hvalue, Option.bind_some, u16_of_lt (by omega)]

theorem walkEntries_append {before : List Entry} (hbefore : ScannableEntries before)
    (hm : m.Holds (data + offset) (encodeEntries before))
    (hmiss : ∀ e ∈ before, ∀ at_, m.Holds at_ e.1.encode →
      (isKey at_).run m = some false)
    (hlen : offset + (encodeEntries before).length ≤ len) (hshort : len < 65536) :
    (walkEntries isKey found missing data len (before.length + count) offset).run m =
      (walkEntries isKey found missing data len count
        (offset + (encodeEntries before).length)).run m := by
  induction before generalizing offset with
  | nil => simp [encodeEntries]
  | cons e rest ih =>
      rcases e with ⟨k, v⟩
      simp only [encodeEntries, List.length_append] at hm hlen ⊢
      rw [Mem.holds_append] at hm
      have hkey := hmiss (k, v) List.mem_cons_self (data + offset)
        (Mem.holds_append.1 hm.1).1
      have hcount : ((k, v) :: rest).length + count = rest.length + count + 1 := by
        rw [List.length_cons]
        omega
      have hafter := holds_after_entry hm.2
      have hrest := ih hbefore.2.2 hafter
        (fun e he => hmiss e (List.mem_cons_of_mem _ he)) (by omega)
      rw [hcount, walkEntries_miss hbefore.1 hbefore.2.1 hm.1 hkey (by omega)
        hshort, hrest]
      simp only [Nat.add_assoc]

theorem walkMap_run {entries : List Entry} (hcount : entries.length < 65536)
    (hm : m.Holds data (Item.map entries).encode) (hlen : 0 < len) :
    (walkMap isKey found notMap missing data len).run m =
      (walkEntries isKey found missing data len entries.length
        (head 5 entries.length).length).run m := by
  rw [Item.encode, Mem.holds_append] at hm
  have hhead := headAt_of_holds (by omega) hcount hm.1
  have hmap : ¬ (UInt8.ofNat (32 * 5) ≠ 0xA0) := by decide
  rw [walkMap, if_neg (by omega), run_bind, run_byte, Option.bind_some, hhead.bits,
    if_neg hmap, run_bind, hhead.count, Option.bind_some]

theorem walkMap_found {before after : List Entry}
    (hcount : (before ++ (k, v) :: after).length < 65536)
    (hbefore : ScannableEntries before) (hk : Scannable k)
    (hm : m.Holds data (Item.map (before ++ (k, v) :: after)).encode)
    (hlen : (Item.map (before ++ (k, v) :: after)).encode.length ≤ len)
    (hshort : len < 65536)
    (hmiss : ∀ e ∈ before, ∀ at_, m.Holds at_ e.1.encode →
      (isKey at_).run m = some false)
    (hhit : ∀ at_, m.Holds at_ k.encode → (isKey at_).run m = some true) :
    ∃ o, m.Holds (data + o) v.encode ∧ o + v.encode.length + (encodeEntries after).length =
        (Item.map (before ++ (k, v) :: after)).encode.length ∧
      (walkMap isKey found notMap missing data len).run m =
        (found (data + o) (len - o)).run m := by
  have hvpos := v.encode_length_pos
  have hpos := (Item.map (before ++ (k, v) :: after)).encode_length_pos
  have hwalk : (walkMap isKey found notMap missing data len).run m = _ :=
    walkMap_run hcount hm (by omega)
  generalize hn : (head 5 (before ++ (k, v) :: after).length).length = n at hwalk
  rw [Item.encode, encodeEntries_append, encodeEntries, Mem.holds_append,
    Mem.holds_append, Mem.holds_append, Mem.holds_append, hn] at hm
  rw [Item.encode, List.length_append, hn, encodeEntries_append, encodeEntries] at hlen ⊢
  simp only [List.length_append] at hlen ⊢
  obtain ⟨-, hfront, ⟨hkey, hvalue⟩, -⟩ := hm
  refine ⟨n + (encodeEntries before).length + k.encode.length, ?_, by omega, ?_⟩
  · simpa only [Nat.add_assoc] using hvalue
  · have hlength : (before ++ (k, v) :: after).length =
        before.length + (after.length + 1) := by simp
    rw [hwalk, hlength, walkEntries_append hbefore hfront hmiss (by omega) hshort,
      walkEntries_hit hk (by simpa only [Nat.add_assoc] using hkey)
        (hhit _ (by simpa only [Nat.add_assoc] using hkey)) (by omega) hshort]

theorem walkMap_missing {entries : List Entry} (hcount : entries.length < 65536)
    (hentries : ScannableEntries entries)
    (hm : m.Holds data (Item.map entries).encode)
    (hlen : (Item.map entries).encode.length ≤ len) (hshort : len < 65536)
    (hmiss : ∀ e ∈ entries, ∀ at_, m.Holds at_ e.1.encode →
      (isKey at_).run m = some false) :
    (walkMap isKey found notMap missing data len).run m = some missing := by
  have hpos := (Item.map entries).encode_length_pos
  rw [walkMap_run hcount hm (by omega)]
  rw [Item.encode, Mem.holds_append] at hm
  simp only [Item.encode, List.length_append] at hlen
  have hall : (walkEntries isKey found missing data len (entries.length + 0)
      (head 5 entries.length).length).run m = _ :=
    walkEntries_append hentries hm.2 hmiss hlen hshort
  rw [Nat.add_zero] at hall
  rw [hall]
  rfl

end

/-! ## Integer keys -/

theorem infoBits_of_holds {major n : ℕ} (hmajor : major < 8) (hn : n < 65536)
    (hm : m.Holds p (head major n)) :
    (n < 24 ∧ infoBits (m p) = n) ∨
      (n < 256 ∧ infoBits (m p) = 24 ∧ (m (p + 1)).toNat = n) ∨
      (256 ≤ n ∧ infoBits (m p) = 25) := by
  have hinfo : ∀ info < 32, m p = UInt8.ofNat (32 * major + info) →
      infoBits (m p) = info := by
    intro info hinfo hbyte
    rw [hbyte]
    exact (bits_of_initial ⟨major, hmajor⟩ ⟨info, hinfo⟩).2
  rw [head] at hm
  split_ifs at hm with h24 h255 h65535
  · exact .inl ⟨h24, hinfo n (by omega) (Mem.holds_cons.1 hm).1⟩
  · simp only [Mem.holds_cons] at hm
    refine .inr (.inl ⟨by omega, hinfo 24 (by omega) hm.1, ?_⟩)
    rw [hm.2.1, UInt8.toNat_ofNat']
    omega
  · exact .inr (.inr ⟨by omega, hinfo 25 (by omega) (Mem.holds_cons.1 hm).1⟩)
  · omega

theorem isUintKey_uint {key n : ℕ} (hpos : 0 < key) (hkey : key < 256)
    (hn : n < 65536) (hm : m.Holds p (Item.uint n).encode) :
    (isUintKey key p).run m = some (decide (n = key)) := by
  have hhead := headAt_of_holds (by omega) hn hm
  have hmajor : ¬ (UInt8.ofNat (32 * 0) ≠ 0x00) := by decide
  rw [isUintKey, run_bind, run_byte, Option.bind_some, hhead.bits, if_neg hmajor]
  rcases infoBits_of_holds (by omega) hn hm with
    ⟨h24, hinfo⟩ | ⟨h256, hinfo, hbyte⟩ | ⟨h256, hinfo⟩
  · have hne : n ≠ 24 ∧ n ≠ 25 := by omega
    simp [hinfo, hne]
  · simp [hinfo, hbyte]
  · have hzero : key ≠ 0 := by omega
    have hne : n ≠ key := by omega
    simp [hinfo, hzero, hne]

/-- The items which begin with another major type. -/
def majorOf : Item → ℕ
  | .uint _ => 0
  | .nint _ => 1
  | .bytes _ => 2
  | .text _ => 3
  | .array _ => 4
  | .map _ => 5
  | .bool _ => 7

theorem majorBits_of_holds {x : Item} (hx : Scannable x) {at_ : ℕ}
    (hm : m.Holds at_ x.encode) :
    majorBits (m at_) = UInt8.ofNat (32 * majorOf x) := by
  cases x with
  | uint n => exact (headAt_of_holds (by omega) hx hm).bits
  | nint n => exact (headAt_of_holds (by omega) hx hm).bits
  | bytes bs =>
      exact (headAt_of_holds (by omega) hx (Mem.holds_append.1 hm).1).bits
  | text bs =>
      exact (headAt_of_holds (by omega) hx (Mem.holds_append.1 hm).1).bits
  | array items =>
      exact (headAt_of_holds (by omega) hx.1 (Mem.holds_append.1 hm).1).bits
  | map entries =>
      exact (headAt_of_holds (by omega) hx.1 (Mem.holds_append.1 hm).1).bits
  | bool b =>
      have hbyte : m at_ = if b then 0xF5 else 0xF4 := (Mem.holds_cons.1 hm).1
      rw [hbyte]
      cases b <;> decide

theorem majorOf_lt (x : Item) : majorOf x < 8 := by
  cases x <;> simp [majorOf]

theorem majorBits_ne {x : Item} (hx : Scannable x) {at_ major : ℕ}
    (hm : m.Holds at_ x.encode) (hmajor : major < 8) (hne : majorOf x ≠ major) :
    majorBits (m at_) ≠ UInt8.ofNat (32 * major) := by
  rw [majorBits_of_holds hx hm]
  intro heq
  have hlt := majorOf_lt x
  have hnat := congrArg UInt8.toNat heq
  rw [UInt8.toNat_ofNat', UInt8.toNat_ofNat'] at hnat
  omega

theorem isUintKey_miss {key at_ : ℕ} (hpos : 0 < key) (hkey : key < 256)
    {k : Item} (hk : Scannable k) (hne : k ≠ .uint key)
    (hm : m.Holds at_ k.encode) : (isUintKey key at_).run m = some false := by
  by_cases hmajor : majorOf k = 0
  · cases k with
    | uint n =>
        rw [isUintKey_uint hpos hkey hk hm, decide_eq_false fun h => hne (by rw [h])]
    | _ => simp [majorOf] at hmajor
  · have hbits : majorBits (m at_) ≠ 0x00 :=
      majorBits_ne hk hm (by omega) hmajor
    simp [isUintKey, hbits]

section

variable {data key : ℕ} {before after entries : List Entry} {v : Item}

/-- The map has the value under the key, behind the entries `before`. -/
structure UintEntry (m : Mem) (data len key : ℕ) (before : List Entry) (v : Item)
    (after : List Entry) : Prop where
  pos : 0 < key
  short : key < 256
  count : (before ++ (.uint key, v) :: after).length < 65536
  scannable : ScannableEntries before
  other : ∀ e ∈ before, e.1 ≠ .uint key
  holds : m.Holds data (Item.map (before ++ (.uint key, v) :: after)).encode
  fits : (Item.map (before ++ (.uint key, v) :: after)).encode.length ≤ len
  len_lt : len < 65536

theorem scannable_of_mem {e : Entry} (h : ScannableEntries entries)
    (he : e ∈ entries) : Scannable e.1 ∧ Scannable e.2 := by
  induction entries with
  | nil => simp at he
  | cons e' rest ih =>
      rcases List.mem_cons.1 he with rfl | hrest
      · exact ⟨h.1, h.2.1⟩
      · exact ih h.2.2 hrest

theorem UintEntry.walk {α : Type} {found : ℕ → ℕ → Rd α} {notMap missing : α}
    (h : UintEntry m data len key before v after) :
    ∃ o, m.Holds (data + o) v.encode ∧ o + v.encode.length + (encodeEntries after).length =
        (Item.map (before ++ (.uint key, v) :: after)).encode.length ∧
      (walkMap (isUintKey key) found notMap missing data len).run m =
        (found (data + o) (len - o)).run m :=
  walkMap_found h.count h.scannable (show key < 65536 by have := h.short; omega)
    h.holds h.fits h.len_lt
    (fun e he at_ hm => isUintKey_miss h.pos h.short
      (scannable_of_mem h.scannable he).1 (h.other e he) hm)
    fun _ hm => by
      have hshort := h.short
      rw [isUintKey_uint h.pos h.short (by omega) hm, decide_eq_true rfl]

theorem walkMap_uintMissing {α : Type} {found : ℕ → ℕ → Rd α}
    {notMap missing : α} (hpos : 0 < key) (hkey : key < 256) (hcount : entries.length < 65536)
    (hentries : ScannableEntries entries) (hother : ∀ e ∈ entries, e.1 ≠ .uint key)
    (hm : m.Holds data (Item.map entries).encode)
    (hlen : (Item.map entries).encode.length ≤ len) (hshort : len < 65536) :
    (walkMap (isUintKey key) found notMap missing data len).run m =
      some missing :=
  walkMap_missing hcount hentries hm hlen hshort fun e he _ hat =>
    isUintKey_miss hpos hkey (scannable_of_mem hentries he).1 (hother e he) hat

theorem UintEntry.item (h : UintEntry m data len key before v after)
    (hv : Scannable v) :
    ∃ p, m.Holds p v.encode ∧
      (getCborMapItem data len key).run m = some (.item p v.encode.length) := by
  obtain ⟨o, hm, hend, hrun⟩ := h.walk
  have hfits := h.fits
  have hlen := h.len_lt
  refine ⟨data + o, hm, hrun.trans ?_⟩
  rw [run_bind, skip_encode hv hm (by omega) (by omega), Option.bind_some]
  rfl

theorem UintEntry.uint {n : ℕ} (hn : n < 65536)
    (h : UintEntry m data len key before (.uint n) after) :
    (getCborMapInt data len key).run m = some (some n) := by
  obtain ⟨o, hm, -, hrun⟩ := h.walk
  have hhead := headAt_of_holds (by omega) hn hm
  have hzero : ¬ (UInt8.ofNat (32 * 0) ≠ 0x00) := by decide
  refine hrun.trans ?_
  have hinfo : infoBits (m (data + o)) ≤ 25 := by
    rcases infoBits_of_holds (by omega) hn hm with h | h | h <;> omega
  rw [valueInt, run_bind, run_byte, Option.bind_some, hhead.bits, if_neg hzero,
    if_pos hinfo, run_bind, hhead.count]
  rfl

theorem valuePayload_run {major n p remaining : ℕ} (hmajor : major < 8)
    (hn : n < 65536) (hm : m.Holds p (head major n)) :
    (valuePayload p remaining).run m =
      some (some ⟨p + (head major n).length, n, UInt8.ofNat (32 * major)⟩) := by
  have hhead := headAt_of_holds hmajor hn hm
  rw [valuePayload, run_bind, run_byte, Option.bind_some, run_bind, hhead.count,
    Option.bind_some, hhead.bits]
  rfl

/-- The value reaches to where the entries behind it begin. -/
theorem UintEntry.valueEnd {major n : ℕ} {payload : List UInt8} (hmajor : major < 8)
    (hn : n < 65536) (hv : v.encode = head major n ++ payload)
    (h : UintEntry m data len key before v after) :
    ∃ p, m.Holds p payload ∧ p + payload.length + (encodeEntries after).length =
        data + (Item.map (before ++ (.uint key, v) :: after)).encode.length ∧
      (getCborMapValue data len key).run m =
        some (some ⟨p, n, UInt8.ofNat (32 * major)⟩) := by
  obtain ⟨o, hm, hend, hrun⟩ := h.walk
  rw [hv, List.length_append] at hend
  rw [hv, Mem.holds_append] at hm
  exact ⟨_, hm.2, by omega, hrun.trans (valuePayload_run hmajor hn hm.1)⟩

theorem UintEntry.value {major n : ℕ} {payload : List UInt8} (hmajor : major < 8)
    (hn : n < 65536) (hv : v.encode = head major n ++ payload)
    (h : UintEntry m data len key before v after) :
    ∃ p, m.Holds p payload ∧ (getCborMapValue data len key).run m =
      some (some ⟨p, n, UInt8.ofNat (32 * major)⟩) := by
  obtain ⟨p, hm, -, hrun⟩ := h.valueEnd hmajor hn hv
  exact ⟨p, hm, hrun⟩

theorem getCborMapString_of_value {p n : ℕ} {type : UInt8}
    (hrun : (getCborMapValue data len key).run m = some (some ⟨p, n, type⟩))
    (htype : type = 0x40 ∨ type = 0x60) :
    (getCborMapString data len key).run m = some (some (p, n)) := by
  have hstring : ¬ (type ≠ 0x40 ∧ type ≠ 0x60) := by tauto
  rw [getCborMapString, run_bind, hrun, Option.bind_some]
  simp [hstring]

theorem UintEntry.bytes {bs : List UInt8} (hbs : bs.length < 65536)
    (h : UintEntry m data len key before (.bytes bs) after) :
    ∃ p, m.Holds p bs ∧
      (getCborMapString data len key).run m = some (some (p, bs.length)) := by
  obtain ⟨p, hm, hrun⟩ := h.value (by omega) hbs rfl
  exact ⟨p, hm, getCborMapString_of_value hrun (by decide)⟩

end

/-! ## Text keys -/

section

variable {data offset count : ℕ} {key : List UInt8} {before after : List Entry}
  {k v : Item}

theorem isTextKey_text {bs : List UInt8} (hbs : bs.length < 256) {at_ : ℕ}
    (hm : m.Holds at_ (Item.text bs).encode) :
    (isTextKey key at_).run m = some (decide (bs = key)) := by
  rw [Item.encode, Mem.holds_append] at hm
  have hhead := headAt_of_holds (by omega) (by omega) hm.1
  have hmajor : ¬ (UInt8.ofNat (32 * 3) ≠ 0x60) := by decide
  have hu8 : u8 bs.length = bs.length := Nat.mod_eq_of_lt hbs
  rw [isTextKey, run_bind, run_byte, Option.bind_some, hhead.bits, if_neg hmajor,
    run_bind, hhead.count, Option.bind_some, run_ite, hu8]
  by_cases hlength : bs.length = key.length
  · have htext : m.slice (at_ + (head 3 bs.length).length) key.length = bs :=
      hm.2.slice_eq hlength.symm
    have hsame : ¬ bs.length ≠ key.length := not_not.2 hlength
    rw [if_neg hsame, run_bind, run_bytes, Option.bind_some, htext]
    rfl
  · have hne : bs ≠ key := fun h => hlength (congrArg List.length h)
    simp [hlength, hne]

theorem stringPayload_run {major n p : ℕ} (hmajor : major = 2 ∨ major = 3)
    (hn : n < 65536) (hm : m.Holds p (head major n)) :
    (stringPayload p).run m = some (some (p + (head major n).length, u8 n)) := by
  have hhead := headAt_of_holds (by omega) hn hm
  have hstring : UInt8.ofNat (32 * major) = 0x40 ∨
      UInt8.ofNat (32 * major) = 0x60 := by
    rcases hmajor with rfl | rfl <;> decide
  rw [stringPayload, run_bind, run_byte, Option.bind_some, hhead.bits,
    if_pos hstring, run_bind, hhead.count, Option.bind_some]
  rfl

/-- Keys which `cbor_map_get_string` compares in full. -/
def TextKey (k : Item) : Prop := ∃ bs : List UInt8, bs.length < 256 ∧ k = .text bs

/-- A key other than the text `key` which `cbor_map_get_string` tells from it. -/
def OtherKey (key : List UInt8) (k : Item) : Prop :=
  k ≠ .text key ∧ ∀ bs, k = .text bs → bs.length < 256

theorem TextKey.other {k : Item} (h : TextKey k) (hne : k ≠ .text key) : OtherKey key k := by
  obtain ⟨bs, hbs, rfl⟩ := h
  refine ⟨hne, fun bs' h => ?_⟩
  rw [Item.text.injEq] at h
  rwa [← h]

theorem isTextKey_miss (hk : Scannable k) (hother : OtherKey key k) {at_ : ℕ}
    (hm : m.Holds at_ k.encode) : (isTextKey key at_).run m = some false := by
  by_cases hmajor : majorOf k = 3
  · cases k with
    | text bs =>
        rw [isTextKey_text (hother.2 bs rfl) hm,
          decide_eq_false fun h => hother.1 (by rw [h])]
    | _ => simp [majorOf] at hmajor
  · have hbits : majorBits (m at_) ≠ 0x60 := majorBits_ne hk hm (by omega) hmajor
    rw [isTextKey, run_bind, run_byte, Option.bind_some, if_pos hbits, run_pure]

theorem getStringEntries_hit (hkey : key.length < 256)
    (hm : m.Holds (data + offset) ((Item.text key).encode ++ v.encode))
    (hlen : offset + (Item.text key).encode.length + v.encode.length ≤ len)
    (hshort : len < 65536) :
    (getStringEntries key data len (count + 1) offset).run m =
      (stringPayload (data + offset + (Item.text key).encode.length)).run m := by
  have hvpos := v.encode_length_pos
  have hkpos := (Item.text key).encode_length_pos
  rw [Mem.holds_append] at hm
  have hk : Scannable (.text key) := show key.length < 65536 by omega
  have hroom : (Item.text key).encode.length ≤ len - offset := by omega
  have hskip := skip_encode hk hm.1 hroom (by omega)
  have hhit : (isTextKey key (data + offset)).run m = some (decide (key = key)) :=
    isTextKey_text hkey hm.1
  rw [decide_eq_true rfl] at hhit
  rw [getStringEntries, if_neg (by omega), run_bind, hskip, Option.bind_some,
    if_neg (by omega), run_bind, hhit, Option.bind_some, if_pos rfl,
    if_neg (by omega)]

theorem getStringEntries_miss (hk : Scannable k) (hother : OtherKey key k)
    (hv : Scannable v) (hm : m.Holds (data + offset) (k.encode ++ v.encode))
    (hlen : offset + k.encode.length + v.encode.length ≤ len) (hshort : len < 65536) :
    (getStringEntries key data len (count + 1) offset).run m =
      (getStringEntries key data len count
        (offset + k.encode.length + v.encode.length)).run m := by
  have hvpos := v.encode_length_pos
  have hkpos := k.encode_length_pos
  rw [Mem.holds_append] at hm
  have hkroom : k.encode.length ≤ len - offset := by omega
  have hvroom : v.encode.length ≤ len - (offset + k.encode.length) := by omega
  have hskip := skip_encode hk hm.1 hkroom (by omega)
  have hmiss := isTextKey_miss hk hother hm.1
  have hvalue := skip_encode hv (p := data + (offset + k.encode.length))
    (by rw [← Nat.add_assoc]; exact hm.2) hvroom (by omega)
  rw [getStringEntries, if_neg (by omega), run_bind, hskip, Option.bind_some,
    if_neg (by omega), run_bind, hmiss, Option.bind_some, if_neg (by simp),
    u16_of_lt (by omega), if_neg (by omega), run_bind, hvalue, Option.bind_some,
    u16_of_lt (by omega)]

theorem getStringEntries_append (hbefore : ScannableEntries before)
    (hkeys : ∀ e ∈ before, OtherKey key e.1)
    (hm : m.Holds (data + offset) (encodeEntries before))
    (hlen : offset + (encodeEntries before).length ≤ len) (hshort : len < 65536) :
    (getStringEntries key data len (before.length + count) offset).run m =
      (getStringEntries key data len count
        (offset + (encodeEntries before).length)).run m := by
  induction before generalizing offset with
  | nil => simp [encodeEntries]
  | cons e rest ih =>
      rcases e with ⟨k, v⟩
      simp only [encodeEntries, List.length_append] at hm hlen ⊢
      rw [Mem.holds_append] at hm
      have hcount : ((k, v) :: rest).length + count = rest.length + count + 1 := by
        rw [List.length_cons]
        omega
      have hafter := holds_after_entry hm.2
      have hrest := ih hbefore.2.2
        (fun e he => hkeys e (List.mem_cons_of_mem _ he)) hafter (by omega)
      rw [hcount, getStringEntries_miss hbefore.1 (hkeys _ List.mem_cons_self)
        hbefore.2.1 hm.1 (by omega) hshort, hrest]
      simp only [Nat.add_assoc]

theorem cborMapGetString_run {entries : List Entry} (hcount : entries.length < 65536)
    (hm : m.Holds data (head 5 entries.length)) (hlen : 0 < len) :
    (cborMapGetString data len key).run m = (getStringEntries key data len entries.length
      (head 5 entries.length).length).run m := by
  have hat := headAt_of_holds (by omega) hcount hm
  have hmap : ¬ (UInt8.ofNat (32 * 5) ≠ 0xA0) := by decide
  rw [cborMapGetString, if_neg (by omega), run_bind, run_byte, Option.bind_some, hat.bits,
    if_neg hmap, run_bind, hat.count, Option.bind_some]

theorem cborMapGetString_missing {entries : List Entry} (hentries : ScannableEntries entries)
    (hcount : entries.length < 65536) (hkeys : ∀ e ∈ entries, OtherKey key e.1)
    (hm : m.Holds data (Item.map entries).encode)
    (hlen : (Item.map entries).encode.length ≤ len) (hshort : len < 65536) :
    (cborMapGetString data len key).run m = some none := by
  have hpos := (Item.map entries).encode_length_pos
  rw [Item.encode, Mem.holds_append] at hm
  rw [Item.encode, List.length_append] at hlen hpos
  have hall : (getStringEntries key data len (entries.length + 0)
      (head 5 entries.length).length).run m = _ :=
    getStringEntries_append hentries hkeys hm.2 hlen hshort
  rw [Nat.add_zero] at hall
  rw [cborMapGetString_run hcount hm.1 (by omega), hall]
  rfl

/-- The value of the first entry under the text key is looked at. -/
theorem cborMapGetString_value (hkey : key.length < 256)
    (hcount : (before ++ (.text key, v) :: after).length < 65536)
    (hbefore : ScannableEntries before) (hother : ∀ e ∈ before, OtherKey key e.1)
    (hm : m.Holds data (Item.map (before ++ (.text key, v) :: after)).encode)
    (hlen : (Item.map (before ++ (.text key, v) :: after)).encode.length ≤ len)
    (hshort : len < 65536) :
    ∃ p, m.Holds p v.encode ∧
      (cborMapGetString data len key).run m = (stringPayload p).run m := by
  have hpos := (Item.map (before ++ (.text key, v) :: after)).encode_length_pos
  rw [Item.encode, Mem.holds_append] at hm
  rw [Item.encode, List.length_append] at hlen hpos
  have hrun : (cborMapGetString data len key).run m = _ :=
    cborMapGetString_run hcount hm.1 (by omega)
  generalize (head 5 (before ++ (Item.text key, v) :: after).length).length = k
    at hrun hm hlen hpos
  rw [encodeEntries_append, encodeEntries, Mem.holds_append] at hm
  rw [encodeEntries_append, encodeEntries] at hlen
  simp only [List.length_append] at hlen
  have hlength : (before ++ (.text key, v) :: after).length =
      before.length + (after.length + 1) := by simp
  have hentry := (Mem.holds_append.1 hm.2.2).1
  have hvalue := (Mem.holds_append.1 hentry).2
  refine ⟨_, by simpa only [Nat.add_assoc] using hvalue, hrun.trans ?_⟩
  rw [hlength, getStringEntries_append hbefore hother hm.2.1 (by omega) hshort,
    getStringEntries_hit hkey (by simpa only [Nat.add_assoc] using hentry)
      (by omega) hshort]
  simp only [Nat.add_assoc]

/-- The map has the string under the text key, behind the entries `before`. -/
structure TextEntry (m : Mem) (data len : ℕ) (key : List UInt8)
    (before : List Entry) (v : Item) (after : List Entry) : Prop where
  short : key.length < 256
  count : (before ++ (.text key, v) :: after).length < 65536
  scannable : ScannableEntries before
  other : ∀ e ∈ before, TextKey e.1 ∧ e.1 ≠ .text key
  holds : m.Holds data (Item.map (before ++ (.text key, v) :: after)).encode
  fits : (Item.map (before ++ (.text key, v) :: after)).encode.length ≤ len
  len_lt : len < 65536

theorem TextEntry.string {major n : ℕ} {payload : List UInt8}
    (hmajor : major = 2 ∨ major = 3) (hn : n < 65536)
    (hv : v.encode = head major n ++ payload)
    (h : TextEntry m data len key before v after) :
    ∃ p, m.Holds p payload ∧
      (cborMapGetString data len key).run m = some (some (p, u8 n)) := by
  obtain ⟨p, hm, hrun⟩ := cborMapGetString_value h.short h.count h.scannable
    (fun e he => (h.other e he).1.other (h.other e he).2) h.holds h.fits h.len_lt
  rw [hv, Mem.holds_append] at hm
  exact ⟨_, hm.2, hrun.trans (stringPayload_run hmajor hn hm.1)⟩

end

end UnsoloKey
