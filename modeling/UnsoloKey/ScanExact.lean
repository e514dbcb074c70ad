import UnsoloKey.CborWire
import UnsoloKey.ScanTermination
import Mathlib.Tactic

/-!
# The scanner on encoded items

The scanner reads arguments of up to two bytes, whether or not they are in the
shortest form.  On an item all of whose heads are of that kind `skip_cbor_item` adds
up exactly the bytes of the item, and looks at no other ones.
-/

namespace UnsoloKey

open Rd Cbor

variable {m : Mem} {p len : ℕ}

/-! ## Heads -/

section

variable {major n : ℕ} {w : Width}

theorem bits_of_wireHead (hmajor : major < 8) (hn : n < w.limit)
    (h : m.Holds p (wireHead major w n)) :
    majorBits (m p) = UInt8.ofNat (32 * major) ∧ infoBits (m p) = w.info n := by
  rw [(Mem.holds_cons.1 h).1]
  exact bits_of_initial ⟨major, hmajor⟩ ⟨w.info n, Width.info_lt hn⟩

theorem headLen_of_wireHead (hmajor : major < 8) (hn : n < w.limit) (hw : w.Narrow)
    (h : m.Holds p (wireHead major w n)) : m.headLen p = w.bytes + 1 := by
  obtain ⟨-, hinfo⟩ := bits_of_wireHead hmajor hn h
  unfold Mem.headLen
  rw [hinfo]
  cases w with
  | inline =>
      change n < 24 at hn
      change (if n = 24 then 2 else if n = 25 then 3 else 1) = 1
      rw [if_neg (by omega), if_neg (by omega)]
  | one => rfl
  | two => rfl
  | four => exact absurd hw (by decide)
  | eight => exact absurd hw (by decide)

theorem count_of_wireHead (hmajor : major < 8) (hn : n < w.limit) (hw : w.Narrow)
    (h : m.Holds p (wireHead major w n)) : m.count p = n := by
  obtain ⟨-, hinfo⟩ := bits_of_wireHead hmajor hn h
  unfold Mem.count
  rw [hinfo]
  cases w with
  | inline =>
      change n < 24 at hn
      change (if n = 24 then _ else if n = 25 then _ else n) = n
      rw [if_neg (by omega), if_neg (by omega)]
  | one =>
      change n < 256 at hn
      have hbyte : m (p + 1) = UInt8.ofNat n :=
        (Mem.holds_cons.1 (Mem.holds_cons.1 h).2).1
      change (m (p + 1)).toNat = n
      rw [hbyte, UInt8.toNat_ofNat']
      omega
  | two =>
      change n < 65536 at hn
      have hrest : m.Holds (p + 1) [UInt8.ofNat (n / 256), UInt8.ofNat n] :=
        (Mem.holds_cons.1 h).2
      simp only [Mem.holds_cons] at hrest
      change (m (p + 1)).toNat * 256 + (m (p + 2)).toNat = n
      rw [hrest.1, hrest.2.1, UInt8.toNat_ofNat', UInt8.toNat_ofNat']
      omega
  | four => exact absurd hw (by decide)
  | eight => exact absurd hw (by decide)

end

/-! ## What is looked at -/

theorem mem_reads_headCount {a : ℕ} : a ∈ (headCount p (infoBits (m p))).reads m ↔
    p + 1 ≤ a ∧ a < p + m.headLen p := by
  unfold headCount Mem.headLen
  split_ifs
  · simp only [reads_bind, reads_byte, run_byte, Option.elim_some, reads_pure,
      List.append_nil, List.mem_singleton]
    omega
  · simp only [reads_bind, reads_byte, run_byte, Option.elim_some, reads_pure,
      List.append_nil, List.singleton_append, List.mem_cons, List.not_mem_nil, or_false]
    omega
  · simp only [reads_pure, List.not_mem_nil, false_iff]
    omega

theorem mem_reads_skip_leaf {a depth : ℕ} (hlen : 0 < len) (hleaf : ¬ m.IsContainer p) :
    a ∈ (skipCborItemDepth (depth + 1) p len).reads m ↔
      p ≤ a ∧ a < p + m.headLen p := by
  obtain ⟨harray, hmap⟩ := not_or.mp hleaf
  have hhead := Mem.headLen_pos (m := m) p
  have hreads : (skipCborItemDepth (depth + 1) p len).reads m =
      p :: (headCount p (infoBits (m p))).reads m := by
    rw [skipCborItemDepth, if_neg (by omega)]
    simp [harray, hmap]
  rw [hreads, List.mem_cons, mem_reads_headCount]
  omega

theorem mem_reads_skip_container {a depth : ℕ} (hlen : 0 < len)
    (hcontainer : m.IsContainer p) :
    a ∈ (skipCborItemDepth (depth + 1) p len).reads m ↔
      (p ≤ a ∧ a < p + m.headLen p) ∨ a ∈ (skipItems (skipCborItemDepth depth) p len
        (m.itemCount p) (m.headLen p)).reads m := by
  have hhead := Mem.headLen_pos (m := m) p
  have hreads : (skipCborItemDepth (depth + 1) p len).reads m =
      p :: ((headCount p (infoBits (m p))).reads m ++
        (skipItems (skipCborItemDepth depth) p len (m.itemCount p) (m.headLen p)).reads
          m) := by
    rw [skipCborItemDepth, if_neg (by omega)]
    unfold Mem.itemCount
    rcases hcontainer with harray | hmap
    · simp [harray]
    · simp [hmap]
  have hmerge : a = p ∨ (p + 1 ≤ a ∧ a < p + m.headLen p) ↔
      p ≤ a ∧ a < p + m.headLen p := by omega
  rw [hreads, List.mem_cons, List.mem_append, mem_reads_headCount, ← or_assoc, hmerge]

/-! ## skip_cbor_item -/

/-- From offset `o` of the buffer the scanner comes to offset `o'`, and it looks at
nothing but the bytes between the two. -/
structure Scans (x : Rd ℕ) (m : Mem) (data o o' : ℕ) : Prop where
  run : x.run m = some o'
  reads : ∀ a ∈ x.reads m, data + o ≤ a ∧ a < data + o'

theorem Scans.done {skip : ℕ → ℕ → Rd ℕ} {data o : ℕ} :
    Scans (skipItems skip data len 0 o) m data o o :=
  ⟨rfl, fun _ ha => absurd ha List.not_mem_nil⟩

theorem Scans.next {skip : ℕ → ℕ → Rd ℕ} {data o r o' count : ℕ}
    (hitem : Scans (skip (data + o) (len - o)) m (data + o) 0 r) (hmore : o < len)
    (hwrap : o + r < 65536) (hle : o + r ≤ o')
    (hrest : Scans (skipItems skip data len count (o + r)) m data (o + r) o') :
    Scans (skipItems skip data len (count + 1) o) m data o o' := by
  have hu16 : u16 (o + r) = o + r := Nat.mod_eq_of_lt hwrap
  constructor
  · rw [skipItems, if_neg (by omega), run_bind, hitem.run, Option.bind_some, hu16]
    exact hrest.run
  · intro a ha
    rw [skipItems, if_neg (by omega), reads_bind, hitem.run, Option.elim_some, hu16,
      List.mem_append] at ha
    rcases ha with hhere | hlater
    · have hbound := hitem.reads a hhere
      omega
    · have hbound := hrest.reads a hlater
      omega

section

variable {depth : ℕ} {w : Width}

theorem scans_leaf {r : ℕ} (hlen : 0 < len) (hleaf : ¬ m.IsContainer p)
    (hr : m.leafLen p = r) (hhead : m.headLen p ≤ r) :
    Scans (skipCborItemDepth (depth + 1) p len) m p 0 r := by
  refine ⟨?_, fun a ha => ?_⟩
  · rw [run_skipCborItemDepth_leaf depth hlen hleaf, hr]
  · have hbound := (mem_reads_skip_leaf hlen hleaf).1 ha
    omega

theorem scans_container {r : ℕ} (hlen : 0 < len) (hcontainer : m.IsContainer p)
    (hle : m.headLen p ≤ r)
    (hitems : Scans (skipItems (skipCborItemDepth depth) p len (m.itemCount p)
      (m.headLen p)) m p (m.headLen p) r) :
    Scans (skipCborItemDepth (depth + 1) p len) m p 0 r := by
  refine ⟨?_, fun a ha => ?_⟩
  · rw [run_skipCborItemDepth_container depth hlen hcontainer]
    exact hitems.run
  · rcases (mem_reads_skip_container hlen hcontainer).1 ha with hhead | hitem
    · omega
    · have hbound := hitems.reads a hitem
      omega

theorem not_isContainer {b : UInt8} (h : majorBits (m p) = b) (harray : b ≠ 0x80)
    (hmap : b ≠ 0xA0) : ¬ m.IsContainer p := by
  rw [Mem.IsContainer, h]
  exact not_or.2 ⟨harray, hmap⟩

end

theorem holds_after_wires {data offset : ℕ} {k v : Wire} {rest : List WireEntry}
    (h : m.Holds (data + offset + (k.encode ++ v.encode).length) (encodeWireEntries rest)) :
    m.Holds (data + (offset + k.encode.length + v.encode.length))
      (encodeWireEntries rest) := by
  rw [List.length_append] at h
  simpa only [Nat.add_assoc] using h

mutual

theorem scans_wire (x : Wire) (hx : x.WellFormed) (hw : x.Narrow) {depth p len : ℕ}
    (hdepth : x.depth ≤ depth) (hm : m.Holds p x.encode)
    (hlen : x.encode.length ≤ len) (hshort : len < 65536) :
    Scans (skipCborItemDepth depth p len) m p 0 x.encode.length := by
  have hpos := x.encode_length_pos
  have hdeep : 0 < x.depth := by cases x <;> simp [Wire.depth]
  have hsome : 0 < len := by omega
  obtain ⟨depth, rfl⟩ : ∃ n, depth = n + 1 := ⟨depth - 1, by omega⟩
  cases x with
  | number kind w n =>
      simp only [Wire.encode, wireHead_length] at hm hlen ⊢
      have hmajor : kind.major < 8 := by cases kind <;> decide
      have hhead := headLen_of_wireHead hmajor hx hw hm
      have hbits := (bits_of_wireHead hmajor hx hm).1
      have hleaf : ¬ m.IsContainer p :=
        not_isContainer hbits (by cases kind <;> decide) (by cases kind <;> decide)
      refine scans_leaf hsome hleaf ?_ hhead.le
      rw [Mem.leafLen, hbits, if_neg (by cases kind <;> decide), hhead]
  | string kind w bs =>
      simp only [Wire.encode, List.length_append, wireHead_length] at hm hlen ⊢
      rw [Mem.holds_append] at hm
      have hmajor : kind.major < 8 := by cases kind <;> decide
      have hhead := headLen_of_wireHead hmajor hx hw hm.1
      have hcount := count_of_wireHead hmajor hx hw hm.1
      have hbits := (bits_of_wireHead hmajor hx hm.1).1
      have hleaf : ¬ m.IsContainer p :=
        not_isContainer hbits (by cases kind <;> decide) (by cases kind <;> decide)
      refine scans_leaf hsome hleaf ?_ (by omega)
      rw [Mem.leafLen, hbits, if_pos (by cases kind <;> decide), hhead, hcount]
      exact Nat.mod_eq_of_lt (by omega)
  | array w items =>
      simp only [Wire.encode, Wire.depth, List.length_append, wireHead_length]
        at hm hlen hdepth ⊢
      rw [Mem.holds_append, wireHead_length] at hm
      have hhead := headLen_of_wireHead (by omega) hx.1 hw.1 hm.1
      have hcount := count_of_wireHead (by omega) hx.1 hw.1 hm.1
      have hbits := (bits_of_wireHead (by omega) hx.1 hm.1).1
      have hitems : m.itemCount p = items.length := by
        rw [Mem.itemCount, hbits, if_pos (by decide), hcount]
      refine scans_container hsome (.inl hbits) (by omega) ?_
      rw [hitems, hhead]
      exact scans_wires items hx.2 hw.2 (by omega) hm.2 hlen hshort
  | map w entries =>
      simp only [Wire.encode, Wire.depth, List.length_append, wireHead_length]
        at hm hlen hdepth ⊢
      rw [Mem.holds_append, wireHead_length] at hm
      have hhead := headLen_of_wireHead (by omega) hx.1 hw.1 hm.1
      have hcount := count_of_wireHead (by omega) hx.1 hw.1 hm.1
      have hbits := (bits_of_wireHead (by omega) hx.1 hm.1).1
      have hitems : m.itemCount p = entries.length * 2 := by
        rw [Mem.itemCount, hbits, if_neg (by decide), hcount]
      refine scans_container hsome (.inr hbits) (by omega) ?_
      rw [hitems, hhead]
      exact scans_wireEntries entries hx.2 hw.2 (by omega) hm.2 hlen hshort

theorem scans_wires (items : List Wire)
    (hitems : WiresHeads (fun _ w n => n < w.limit) items)
    (hw : WiresHeads (fun _ w _ => w.Narrow) items)
    {depth data len offset : ℕ} (hdepth : depthWires items ≤ depth)
    (hm : m.Holds (data + offset) (encodeWires items))
    (hlen : offset + (encodeWires items).length ≤ len) (hshort : len < 65536) :
    Scans (skipItems (skipCborItemDepth depth) data len items.length offset) m data offset
      (offset + (encodeWires items).length) := by
  cases items with
  | nil => exact .done
  | cons x rest =>
      have hpos := x.encode_length_pos
      simp only [depthWires] at hdepth
      simp only [encodeWires, List.length_append] at hm hlen ⊢
      rw [Mem.holds_append] at hm
      have hx : Scans (skipCborItemDepth depth (data + offset) (len - offset)) m
          (data + offset) 0 x.encode.length :=
        scans_wire x hitems.1 hw.1 (by omega) hm.1 (by omega) (by omega)
      have hrest : Scans (skipItems (skipCborItemDepth depth) data len rest.length
          (offset + x.encode.length)) m data (offset + x.encode.length)
          (offset + x.encode.length + (encodeWires rest).length) :=
        scans_wires rest hitems.2 hw.2 (by omega) (by rw [← Nat.add_assoc]; exact hm.2)
          (by omega) hshort
      rw [← Nat.add_assoc, List.length_cons]
      exact hx.next (by omega) (by omega) (by omega) hrest

theorem scans_wireEntries (entries : List (Wire × Wire))
    (hentries : WireEntriesHeads (fun _ w n => n < w.limit) entries)
    (hw : WireEntriesHeads (fun _ w _ => w.Narrow) entries)
    {depth data len offset : ℕ} (hdepth : depthWireEntries entries ≤ depth)
    (hm : m.Holds (data + offset) (encodeWireEntries entries))
    (hlen : offset + (encodeWireEntries entries).length ≤ len) (hshort : len < 65536) :
    Scans (skipItems (skipCborItemDepth depth) data len (entries.length * 2) offset) m data
      offset (offset + (encodeWireEntries entries).length) := by
  match entries with
  | [] => exact .done
  | (k, v) :: rest =>
      have hkpos := k.encode_length_pos
      have hvpos := v.encode_length_pos
      simp only [depthWireEntries] at hdepth
      simp only [encodeWireEntries, List.length_append] at hm hlen ⊢
      rw [Mem.holds_append, Mem.holds_append] at hm
      have hk : Scans (skipCborItemDepth depth (data + offset) (len - offset)) m
          (data + offset) 0 k.encode.length :=
        scans_wire k hentries.1 hw.1 (by omega) hm.1.1 (by omega) (by omega)
      have hv : Scans (skipCborItemDepth depth (data + (offset + k.encode.length))
          (len - (offset + k.encode.length))) m (data + (offset + k.encode.length)) 0
          v.encode.length :=
        scans_wire v hentries.2.1 hw.2.1 (by omega) (by rw [← Nat.add_assoc]; exact hm.1.2)
          (by omega) (by omega)
      have hrest : Scans (skipItems (skipCborItemDepth depth) data len (rest.length * 2)
          (offset + k.encode.length + v.encode.length)) m data
          (offset + k.encode.length + v.encode.length)
          (offset + k.encode.length + v.encode.length + (encodeWireEntries rest).length) :=
        scans_wireEntries rest hentries.2.2 hw.2.2 (by omega) (holds_after_wires hm.2)
          (by omega) hshort
      have hcount : ((k, v) :: rest).length * 2 = rest.length * 2 + 1 + 1 := by
        rw [List.length_cons]
        omega
      rw [hcount, ← Nat.add_assoc, ← Nat.add_assoc]
      exact hk.next (by omega) (by omega) (by omega)
        (hv.next (by omega) (by omega) (by omega) hrest)

end

/-- Whatever follows it in the buffer, an item is skipped exactly, and nothing behind
it is looked at. -/
theorem skipCborItem_exact (x : Wire) (m : Mem) (data len : ℕ) (hx : x.WellFormed)
    (hnarrow : x.Narrow) (hm : m.Holds data x.encode) (hlen : x.encode.length ≤ len)
    (hshort : len ≤ 1024) :
    (skipCborItem data len).run m = some x.encode.length ∧
      ∀ a ∈ (skipCborItem data len).reads m, data ≤ a ∧ a < data + x.encode.length := by
  have hdepth := x.depth_le
  have hscan : Scans (skipCborItem data len) m data 0 x.encode.length :=
    scans_wire x hx hnarrow (by omega) hm hlen (by omega)
  exact ⟨hscan.run, hscan.reads⟩

/-- `{"a": [-501, true]}`, with heads which are longer than they need to be. -/
def longHeads : Wire :=
  .map .one [(.string .text .inline [0x61],
    .array .two [.number .nint .two 500, .number .simple .one 21])]

theorem skipCborItem_longHeads : ∃ m : Mem, (skipCborItem 0 1024).run m = some 12 ∧
    ∀ a ∈ (skipCborItem 0 1024).reads m, 0 ≤ a ∧ a < 0 + 12 :=
  ⟨fun a => longHeads.encode.getD a 0,
    skipCborItem_exact longHeads _ 0 1024 (by decide) (by decide) (by decide) (by decide)
      (by decide)⟩

end UnsoloKey
