import UnsoloKey.AccessorAgreement
import UnsoloKey.ScanExact
import Mathlib.Tactic

/-!
# What the accessors find in a canonical map

The map has at most one entry under an unsigned key, and the accessors are to report
that entry or none.  They read arguments of up to two bytes; to the walk a longer
head is one byte long, and the bytes of its argument are items of their own.  So they
report the entry exactly if the walk comes to it nevertheless, and no accessor but
`get_cbor_map_item` reports correctly that there is none.
-/

namespace UnsoloKey

open Rd Cbor

/-! ## The entry of a key -/

/-- The item is the unsigned number, in whatever width. -/
def namesKey (key : ℕ) : Wire → Bool
  | .number .uint _ n => n = key
  | _ => false

/-- The value under the number and where it stands, for entries which stand from `p`
on. -/
def entryAt (key : ℕ) : List WireEntry → ℕ → Option (ℕ × Wire)
  | [], _ => none
  | (k, v) :: rest, p =>
      if namesKey key k then some (p + k.encode.length, v)
      else entryAt key rest (p + k.encode.length + v.encode.length)

/-- What `get_cbor_map_string` returns for the value at `p`. -/
def stringAt (p : ℕ) : Wire → Option (ℕ × ℕ)
  | .string kind w bs => some (p + (Wire.string kind w bs).head.length, bs.length)
  | _ => none

/-- What `get_cbor_map_int` returns for the value. -/
def intOf : Wire → Option ℕ
  | .number .uint _ n => some n
  | _ => none

/-- The accessors report the entry, or that there is none. -/
structure AccessorsReport (m : Mem) (data len key : ℕ) (entry : Option (ℕ × Wire)) :
    Prop where
  value : (getCborMapValue data len key).run m = some (entry.map fun e =>
    ⟨e.1 + e.2.head.length, e.2.argument, UInt8.ofNat (32 * e.2.major)⟩)
  string : (getCborMapString data len key).run m =
    some (entry.bind fun e => stringAt e.1 e.2)
  item : (getCborMapItem data len key).run m =
    some (entry.elim .null fun e => .item e.1 e.2.encode.length)
  int : (getCborMapInt data len key).run m = some (entry.bind fun e => intOf e.2)

section

variable {m : Mem} {data len key p q : ℕ} {entries before after : List WireEntry}
  {k v : Wire}

theorem namesKey_iff : namesKey key k = true ↔ ∃ w, k = .number .uint w key := by
  constructor
  · intro h
    cases k with
    | number kind w n =>
        cases kind with
        | uint => exact ⟨w, by rw [of_decide_eq_true h]⟩
        | nint => cases h
        | simple => cases h
    | string kind w bs => cases h
    | array w items => cases h
    | map w entries => cases h
  · rintro ⟨w, rfl⟩
    exact decide_eq_true rfl

theorem entryAt_some (h : entryAt key entries p = some (q, v)) :
    ∃ before k after, entries = before ++ (k, v) :: after ∧ namesKey key k = true ∧
      q = p + (encodeWireEntries before).length + k.encode.length := by
  induction entries generalizing p with
  | nil => cases h
  | cons e rest ih =>
      rcases e with ⟨k', v'⟩
      rw [entryAt] at h
      by_cases hkey : namesKey key k' = true
      · rw [if_pos hkey, Option.some.injEq, Prod.mk.injEq] at h
        obtain ⟨rfl, rfl⟩ := h
        exact ⟨[], k', rest, rfl, hkey, rfl⟩
      · rw [if_neg hkey] at h
        obtain ⟨before, k, after, rfl, hk, rfl⟩ := ih h
        refine ⟨(k', v') :: before, k, after, rfl, hk, ?_⟩
        simp only [encodeWireEntries, List.length_append]
        omega

theorem entryAt_append (hbefore : ∀ e ∈ before, namesKey key e.1 = false)
    (hk : namesKey key k = true) : entryAt key (before ++ (k, v) :: after) p =
      some (p + (encodeWireEntries before).length + k.encode.length, v) := by
  induction before generalizing p with
  | nil =>
      change entryAt key ((k, v) :: after) p = _
      rw [entryAt, if_pos hk]
      rfl
  | cons e rest ih =>
      rcases e with ⟨k', v'⟩
      have hmiss : namesKey key k' = false := hbefore (k', v') List.mem_cons_self
      change entryAt key ((k', v') :: (rest ++ (k, v) :: after)) p = _
      rw [entryAt, hmiss, if_neg (by simp),
        ih fun e he => hbefore e (List.mem_cons_of_mem _ he)]
      simp only [encodeWireEntries, List.length_append, Nat.add_assoc]

/-! ## The value at its place -/

theorem headLen_of_wide {major n : ℕ} {w : Width} (hmajor : major < 8) (hn : n < w.limit)
    (hw : ¬ w.Narrow) (h : m.Holds p (wireHead major w n)) : m.headLen p = 1 := by
  obtain ⟨-, hinfo⟩ := bits_of_wireHead hmajor hn h
  unfold Mem.headLen
  rw [hinfo]
  cases w with
  | inline => exact absurd (by decide) hw
  | one => exact absurd (by decide) hw
  | two => exact absurd (by decide) hw
  | four => rfl
  | eight => rfl

/-- A number whose declared length is right has an argument of at most two bytes, and
in a short buffer so has everything else. -/
theorem narrow_of_declared (hwell : v.WellFormed) (hshortest : v.Shortest)
    (hm : m.Holds p v.encode) (hfits : v.encode.length ≤ len)
    (hshort : v.encode.length < 65536) (hlength : DeclaredLen m p len v.encode.length) :
    v.width.Narrow := by
  have hpos := v.encode_length_pos
  cases v with
  | number kind w n =>
      by_contra hwide
      simp only [Wire.encode, wireHead_length] at hm hfits hlength hpos
      have hmajor : kind.major < 8 := by cases kind <;> decide
      have hhead := headLen_of_wide hmajor hwell hwide hm
      have hbits := (bits_of_wireHead hmajor hwell hm).1
      have hleaf : ¬ m.IsContainer p :=
        not_isContainer hbits (by cases kind <;> decide) (by cases kind <;> decide)
      have hrun := skipCborItem_run_iff.2 hlength
      rw [skipCborItem, run_skipCborItemDepth_leaf _ (by omega) hleaf, Mem.leafLen, hbits,
        if_neg (by cases kind <;> decide), hhead, Option.some.injEq] at hrun
      have hbytes : ¬ w.bytes ≤ 2 := hwide
      omega
  | string kind w bs =>
      have hw : w = .shortest bs.length := hshortest (by cases kind <;> decide)
      simp only [Wire.encode, List.length_append] at hshort
      change w.Narrow
      rw [hw]
      exact Width.shortest_narrow (by omega)
  | array w items =>
      have hw : w = .shortest items.length := hshortest.1 (by decide)
      have hcount := length_le_encodeWires items
      simp only [Wire.encode, List.length_append] at hshort
      change w.Narrow
      rw [hw]
      exact Width.shortest_narrow (by omega)
  | map w entries =>
      have hw : w = .shortest entries.length := hshortest.1 (by decide)
      have hcount := length_le_encodeWireEntries entries
      simp only [Wire.encode, List.length_append] at hshort
      change w.Narrow
      rw [hw]
      exact Width.shortest_narrow (by omega)

/-- What the accessors read of the head of the value. -/
structure ReadsHead (m : Mem) (p : ℕ) (v : Wire) : Prop where
  bits : majorBits (m p) = UInt8.ofNat (32 * v.major)
  info : infoBits (m p) = v.width.info v.argument
  headLen : m.headLen p = v.head.length
  count : m.count p = v.argument

theorem readsHead (hwell : v.WellFormed) (hw : v.width.Narrow) (hm : m.Holds p v.encode) :
    ReadsHead m p v := by
  rw [v.encode_eq, Mem.holds_append] at hm
  obtain ⟨hbits, hinfo⟩ := bits_of_wireHead v.major_lt hwell.head hm.1
  exact ⟨hbits, hinfo, by rw [headLen_of_wireHead v.major_lt hwell.head hw hm.1, v.head_length],
    count_of_wireHead v.major_lt hwell.head hw hm.1⟩

theorem info_le {w : Width} {n : ℕ} (hn : n < w.limit) (hw : w.Narrow) : w.info n ≤ 25 := by
  cases w with
  | inline =>
      change n < 24 at hn
      change n ≤ 25
      omega
  | one => simp [Width.info]
  | two => simp [Width.info]
  | four => exact absurd hw (by decide)
  | eight => exact absurd hw (by decide)

theorem ReadsHead.string (h : ReadsHead m p v) :
    (if majorBits (m p) ≠ 0x40 ∧ majorBits (m p) ≠ 0x60 then none
      else some (p + m.headLen p, m.count p)) = stringAt p v := by
  rw [h.bits, h.headLen, h.count]
  cases v with
  | number kind w n => cases kind <;> rfl
  | string kind w bs => cases kind <;> rfl
  | array w items => rfl
  | map w entries => rfl

theorem ReadsHead.int (h : ReadsHead m p v) (hwell : v.WellFormed) (hw : v.width.Narrow) :
    (if majorBits (m p) = 0x00 ∧ infoBits (m p) ≤ 25 then some (m.count p) else none) =
      intOf v := by
  have hinfo := info_le hwell.head hw
  rw [← h.info] at hinfo
  simp only [hinfo, and_true]
  rw [h.bits, h.count]
  cases v with
  | number kind w n => cases kind <;> rfl
  | string kind w bs => cases kind <;> rfl
  | array w items => rfl
  | map w entries => rfl

end

/-! ## A canonical map in the buffer -/

/-- The buffer begins with a canonical map of at most 1023 bytes. -/
structure HoldsMap (m : Mem) (data len : ℕ) (w : Width) (entries : List WireEntry) :
    Prop where
  canonical : (Wire.map w entries).Canonical
  holds : m.Holds data (Wire.map w entries).encode
  fits : (Wire.map w entries).encode.length ≤ len
  short : (Wire.map w entries).encode.length ≤ 1023

namespace HoldsMap

variable {m : Mem} {data len key p : ℕ} {w : Width} {entries before after : List WireEntry}
  {k v : Wire}

theorem length_eq : (Wire.map w entries).encode.length =
    w.bytes + 1 + (encodeWireEntries entries).length := by
  rw [Wire.encode, List.length_append, wireHead_length]

variable (h : HoldsMap m data len w entries)

include h

theorem narrow : w.Narrow := by
  have hw : w = .shortest entries.length := h.canonical.shortest.1 (by decide)
  have hcount := length_le_encodeWireEntries entries
  have hshort := h.short
  rw [length_eq] at hshort
  rw [hw]
  exact Width.shortest_narrow (by omega)

theorem head : m.Holds data (wireHead 5 w entries.length) ∧
    m.Holds (data + (w.bytes + 1)) (encodeWireEntries entries) := by
  have hholds := h.holds
  rwa [Wire.encode, Mem.holds_append, wireHead_length] at hholds

theorem beginsMap : m.BeginsMap data len := by
  have hfits := h.fits
  rw [length_eq] at hfits
  exact ⟨by omega, (bits_of_wireHead (by omega) h.canonical.wellFormed.1 h.head.1).1⟩

theorem headLen : m.headLen data = w.bytes + 1 :=
  headLen_of_wireHead (by omega) h.canonical.wellFormed.1 h.narrow h.head.1

theorem count : m.count data = entries.length :=
  count_of_wireHead (by omega) h.canonical.wellFormed.1 h.narrow h.head.1

end HoldsMap

/-- An entry of the map whose key stands at offset `o`. -/
structure HoldsEntry (m : Mem) (data len o : ℕ) (k v : Wire) : Prop where
  wellFormed : k.WellFormed ∧ v.WellFormed
  shortest : k.Shortest ∧ v.Shortest
  key : m.Holds (data + o) k.encode
  value : m.Holds (data + (o + k.encode.length)) v.encode
  fits : o + k.encode.length + v.encode.length ≤ len
  short : v.encode.length ≤ 1023

section

variable {m : Mem} {data len key p : ℕ} {w : Width} {entries before after : List WireEntry}
  {k v : Wire}

theorem HoldsMap.entry (h : HoldsMap m data len w entries)
    (hentries : entries = before ++ (k, v) :: after) :
    HoldsEntry m data len (w.bytes + 1 + (encodeWireEntries before).length) k v := by
  have hholds := h.head.2
  have hfits := h.fits
  have hshort := h.short
  have hwell := h.canonical.wellFormed.2
  have hshortest := h.canonical.shortest.2
  rw [HoldsMap.length_eq] at hfits hshort
  rw [hentries, encodeWireEntries_append, Mem.holds_append] at hholds
  rw [hentries, encodeWireEntries_append] at hfits hshort
  rw [hentries, wireEntriesHeads_append] at hwell hshortest
  simp only [encodeWireEntries, List.length_append, Mem.holds_append] at hholds hfits hshort
  exact {
    wellFormed := ⟨hwell.2.1, hwell.2.2.1⟩
    shortest := ⟨hshortest.2.1, hshortest.2.2.1⟩
    key := by simpa only [Nat.add_assoc] using hholds.2.1.1
    value := by simpa only [Nat.add_assoc] using hholds.2.1.2
    fits := by omega
    short := by omega }

/-- Where the walk comes to the value and its length is the declared one, the accessors
report the entry. -/
theorem HoldsEntry.report {o : ℕ} (h : HoldsEntry m data len o k v)
    (hmap : m.BeginsMap data len) (hfinds : Finds m (m.uintKey key) data len (o + k.encode.length))
    (hlength : DeclaredLen m (data + (o + k.encode.length)) (len - (o + k.encode.length))
      v.encode.length) :
    AccessorsReport m data len key (some (data + (o + k.encode.length), v)) := by
  have hfits := h.fits
  have hshort := h.short
  obtain ⟨hvalue, hitem, hint⟩ := accessors_found hmap hfinds
  have hwidth : v.width.Narrow :=
    narrow_of_declared h.wellFormed.2 h.shortest.2 h.value (by omega) (by omega) hlength
  have hhead := readsHead h.wellFormed.2 hwidth h.value
  exact {
    value := by
      rw [hvalue, hhead.headLen, hhead.count, hhead.bits]
      rfl
    string := by
      rw [getCborMapString_of_some hvalue]
      exact congrArg some hhead.string
    item := by
      rw [hitem, skipCborItem_run_iff.2 hlength]
      rfl
    int := by
      rw [hint]
      exact congrArg some (hhead.int h.wellFormed.2 hwidth) }

end

/-! ## Entries behind short heads -/

theorem uint_width {w : Width} {n : ℕ} (h : (Wire.number .uint w n).Shortest) :
    w = .shortest n :=
  h (by decide)

section

variable {m : Mem} {data len key p : ℕ} {w : Width} {entries before after rest : List WireEntry}
  {k v : Wire}

theorem uintKey_hit (hkey : key < 256) (hk : namesKey key k = true) (hshortest : k.Shortest)
    (hwell : k.WellFormed) (hm : m.Holds p k.encode) : m.uintKey key p = true := by
  obtain ⟨w, rfl⟩ := namesKey_iff.1 hk
  have hw : w = .shortest key := uint_width hshortest
  have hnarrow : w.Narrow := by
    rw [hw]
    exact Width.shortest_narrow (by omega)
  have hhead := readsHead hwell hnarrow hm
  have hinfo : infoBits (m p) ≠ 25 := by
    rw [hhead.info]
    change w.info key ≠ 25
    rw [hw, Width.shortest]
    by_cases hinline : key < 24
    · rw [if_pos hinline]
      change key ≠ 25
      omega
    · rw [if_neg hinline, if_pos (show key < 2 ^ 8 from hkey)]
      simp [Width.info]
  simp only [Mem.uintKey, if_neg hinfo]
  rw [hhead.bits, hhead.count]
  exact decide_eq_true ⟨rfl, rfl⟩

theorem uintKey_miss (hkey : 0 < key) (hk : namesKey key k = false) (hwell : k.WellFormed)
    (hnarrow : k.width.Narrow) (hm : m.Holds p k.encode) : m.uintKey key p = false := by
  have hhead := readsHead hwell hnarrow hm
  rw [Mem.uintKey, hhead.bits, hhead.count]
  refine decide_eq_false ?_
  rintro ⟨hmajor, hcount⟩
  cases k with
  | number kind w n =>
      cases kind with
      | uint =>
          have hne : n ≠ key := of_decide_eq_false hk
          split_ifs at hcount with hinfo
          · omega
          · exact hne hcount
      | nint => exact absurd hmajor (show UInt8.ofNat (32 * 1) ≠ 0x00 by decide)
      | simple => exact absurd hmajor (show UInt8.ofNat (32 * 7) ≠ 0x00 by decide)
  | string kind w bs =>
      cases kind with
      | bytes => exact absurd hmajor (show UInt8.ofNat (32 * 2) ≠ 0x00 by decide)
      | text => exact absurd hmajor (show UInt8.ofNat (32 * 3) ≠ 0x00 by decide)
  | array w items => exact absurd hmajor (show UInt8.ofNat (32 * 4) ≠ 0x00 by decide)
  | map w entries => exact absurd hmajor (show UInt8.ofNat (32 * 5) ≠ 0x00 by decide)

/-- Entries whose heads are short are skipped exactly. -/
theorem HoldsMap.offset (h : HoldsMap m data len w entries) (hlen : len < 65536)
    (hentries : entries = before ++ rest)
    (hnarrow : WireEntriesHeads (fun _ w _ => w.Narrow) before) :
    RunningOffset m data len (2 * before.length)
      (w.bytes + 1 + (encodeWireEntries before).length) := by
  have hholds := h.head.2
  have hfits := h.fits
  have hwell := h.canonical.wellFormed.2
  rw [HoldsMap.length_eq] at hfits
  rw [hentries, encodeWireEntries_append] at hholds hfits
  rw [hentries, wireEntriesHeads_append] at hwell
  rw [List.length_append] at hfits
  rw [Mem.holds_append] at hholds
  have hscans := scans_wireEntries before hwell.1 hnarrow le_rfl hholds.1 (by omega) hlen
  have hrun := hscans.run
  rw [← h.headLen, Nat.mul_comm] at hrun
  rw [← h.headLen]
  exact runningOffset_of_run (fun _ _ _ => declaredLen_of_run) hrun

/-- Of the entries of a canonical map only one has the key. -/
theorem HoldsMap.before_miss (h : HoldsMap m data len w entries)
    (hentries : entries = before ++ (k, v) :: after) (hk : namesKey key k = true) :
    ∀ e ∈ before, namesKey key e.1 = false := by
  intro e he
  have hsorted := h.canonical.sorted.1
  have hshortest := h.canonical.shortest.2
  rw [hentries, List.pairwise_append] at hsorted
  rw [hentries, wireEntriesHeads_append] at hshortest
  have hbefore : e.1.Before k := hsorted.2.2 e he (k, v) List.mem_cons_self
  by_contra hhit
  obtain ⟨w', rfl⟩ := namesKey_iff.1 hk
  obtain ⟨w'', heq⟩ := namesKey_iff.1 (Bool.eq_true_of_not_eq_false hhit)
  have hw' : w' = .shortest key := uint_width hshortest.2.1
  have hw'' : w'' = .shortest key := by
    apply uint_width
    rw [← heq]
    exact (wireEntriesHeads_mem hshortest.1 he).1
  rw [heq, hw', hw''] at hbefore
  exact Wire.not_before_self _ hbefore

/-- No key before the entry looks like its key. -/
theorem HoldsMap.noHit (h : HoldsMap m data len w entries) (hlen : len < 65536)
    (hpos : 0 < key) (hentries : entries = before ++ (k, v) :: after)
    (hk : namesKey key k = true)
    (hnarrow : WireEntriesHeads (fun _ w _ => w.Narrow) before) :
    NoHit m (m.uintKey key) data len before.length := by
  intro i hi o ho
  have hsplit : before = before.take i ++ (before[i].1, before[i].2) :: before.drop (i + 1) := by
    rw [Prod.mk.eta, ← List.drop_eq_getElem_cons, List.take_append_drop]
  have hwhole : entries = before.take i ++
      (before[i].1, before[i].2) :: (before.drop (i + 1) ++ (k, v) :: after) := by
    rw [hentries, ← List.cons_append, ← List.append_assoc, ← hsplit]
  have hnarrow' := hnarrow
  rw [hsplit, wireEntriesHeads_append] at hnarrow'
  have hoffset := h.offset hlen hwhole hnarrow'.1
  rw [List.length_take_of_le hi.le] at hoffset
  have hentry := h.entry hwhole
  rw [ho.unique hoffset]
  exact uintKey_miss hpos (h.before_miss hentries hk before[i] (List.getElem_mem hi))
    hentry.wellFormed.1 (Wire.Heads.head hnarrow'.2.1) hentry.key

theorem HoldsMap.finds (h : HoldsMap m data len w entries) (hlen : len < 65536)
    (hpos : 0 < key) (hkey : key < 256) (hentries : entries = before ++ (k, v) :: after)
    (hk : namesKey key k = true)
    (hnarrow : WireEntriesHeads (fun _ w _ => w.Narrow) before) :
    Finds m (m.uintKey key) data len
      (w.bytes + 1 + (encodeWireEntries before).length + k.encode.length) := by
  have hentry := h.entry hentries
  have hfits := hentry.fits
  have hvpos := v.encode_length_pos
  have hkoffset := h.offset hlen hentries hnarrow
  have hhit := uintKey_hit hkey hk hentry.shortest.1 hentry.wellFormed.1 hentry.key
  have hknarrow : k.Narrow := by
    have hkshortest := hentry.shortest.1
    obtain ⟨w', rfl⟩ := namesKey_iff.1 hk
    rw [uint_width hkshortest]
    exact Width.shortest_narrow (by omega)
  have hklen : DeclaredLen m (data + (w.bytes + 1 + (encodeWireEntries before).length))
      (len - (w.bytes + 1 + (encodeWireEntries before).length)) k.encode.length :=
    declaredLen_of_run (scans_wire k hentry.wellFormed.1 hknarrow le_rfl hentry.key
      (by omega) (by omega)).run
  have hvoffset := RunningOffset.next hkoffset (by omega) hklen
  rw [u16, Nat.mod_eq_of_lt (by omega)] at hvoffset
  refine ⟨before.length, _, ?_, hkoffset, hhit⟩
  exact {
    count := by
      rw [h.count, hentries, List.length_append, List.length_cons]
      omega
    offset := hvoffset
    more := by omega
    before := fun i o hlt =>
      h.noHit hlen hpos hentries hk hnarrow i (by omega) o }

/-- In particular the entry is reported if no argument in it or before it takes more than
two bytes. -/
theorem HoldsMap.report_of_narrow (h : HoldsMap m data len w entries) (hlen : len < 65536)
    (hpos : 0 < key) (hkey : key < 256) (hentries : entries = before ++ (k, v) :: after)
    (hk : namesKey key k = true)
    (hnarrow : WireEntriesHeads (fun _ w _ => w.Narrow) before) (hv : v.Narrow) :
    AccessorsReport m data len key (entryAt key entries (data + (w.bytes + 1))) := by
  have hentry := h.entry hentries
  have hfits := hentry.fits
  have hplace : entryAt key (before ++ (k, v) :: after) (data + (w.bytes + 1)) =
      some (data + (w.bytes + 1) + (encodeWireEntries before).length + k.encode.length, v) :=
    entryAt_append (h.before_miss hentries hk) hk
  have hassoc : data + (w.bytes + 1) + (encodeWireEntries before).length + k.encode.length =
      data + (w.bytes + 1 + (encodeWireEntries before).length + k.encode.length) := by
    omega
  rw [hentries, hplace, hassoc]
  refine hentry.report h.beginsMap (h.finds hlen hpos hkey hentries hk hnarrow) ?_
  exact declaredLen_of_run (scans_wire v hentry.wellFormed.2 hv le_rfl hentry.value
    (by omega) (by omega)).run

end

/-- For a key in a canonical map, present or not, the accessors report its entry exactly
if the map has one, the walk comes to its value, and the bytes declare the length which the
value has. -/
theorem accessorsReport_iff (m : Mem) (data len : ℕ) (w : Width) (entries : List WireEntry)
    (key : ℕ) (h : HoldsMap m data len w entries) :
    AccessorsReport m data len key (entryAt key entries (data + (w.bytes + 1))) ↔
      ∃ o v, entryAt key entries (data + (w.bytes + 1)) = some (data + o, v) ∧
        Finds m (m.uintKey key) data len o ∧
        DeclaredLen m (data + o) (len - o) v.encode.length := by
  constructor
  · intro hreport
    cases hentry : entryAt key entries (data + (w.bytes + 1)) with
    | none =>
        rw [hentry] at hreport
        have hitem := hreport.item
        rcases place_cases (by rw [hitem]; simp) h.beginsMap with hplace | ⟨o, r, hfinds, -⟩
        · rw [(accessors_missing h.beginsMap hplace).2.1] at hitem
          cases hitem
        · have hvalue := hreport.value
          rw [(accessors_found h.beginsMap hfinds).1] at hvalue
          cases hvalue
    | some e =>
        obtain ⟨p, v⟩ := e
        rw [hentry] at hreport
        have hitem := hreport.item
        rcases place_cases (by rw [hitem]; simp) h.beginsMap with hplace | ⟨o, r, hfinds, hr⟩
        · rw [(accessors_missing h.beginsMap hplace).2.1] at hitem
          cases hitem
        · rw [(accessors_found h.beginsMap hfinds).2.1, hr] at hitem
          simp only [Option.map_some, Option.elim_some, Option.some.injEq,
            ItemResult.item.injEq] at hitem
          obtain ⟨rfl, rfl⟩ := hitem
          exact ⟨o, v, rfl, hfinds, skipCborItem_run_iff.1 hr⟩
  · rintro ⟨o, v, hentry, hfinds, hlength⟩
    obtain ⟨before, k, after, hentries, -, ho⟩ := entryAt_some hentry
    have hoffset : o = w.bytes + 1 + (encodeWireEntries before).length + k.encode.length := by
      omega
    subst hoffset
    rw [hentry]
    exact (h.entry hentries).report h.beginsMap hfinds hlength

/-- The bytes of the item, and nothing else. -/
def memOf (x : Wire) : Mem := fun i => x.encode.getD i 0

/-- `{1: 500, 2: "ab"}`. -/
def twoEntries : List WireEntry :=
  [(.number .uint .inline 1, .number .uint .two 500),
    (.number .uint .inline 2, .string .text .inline [0x61, 0x62])]

theorem accessorsReport_twoEntries :
    AccessorsReport (memOf (.map .inline twoEntries)) 0 9 2
      (some (6, .string .text .inline [0x61, 0x62])) := by
  have hmap : HoldsMap (memOf (.map .inline twoEntries)) 0 9 .inline twoEntries :=
    ⟨⟨by decide, by decide, by decide⟩, by decide, by decide, by decide⟩
  have hplace : (memOf (.map .inline twoEntries)).keyPlace 0 9 2 = some (some (6, 3)) := by
    decide
  obtain ⟨-, o, hfinds, ho, -⟩ := keyPlace_iff.1 hplace
  rw [Nat.zero_add] at ho
  subst ho
  exact (accessorsReport_iff _ 0 9 .inline twoEntries 2 hmap).2
    ⟨6, .string .text .inline [0x61, 0x62], rfl, hfinds, skipCborItem_run_iff.1 (by decide)⟩

/-- `{1: 65536, 2: 3}`. -/
def wideValue : List WireEntry :=
  [(.number .uint .inline 1, .number .uint .four 65536),
    (.number .uint .inline 2, .number .uint .inline 3)]

/-- To the walk the value is one byte long, and the second key is not found. -/
theorem key_behind_wide_value :
    ¬ ∀ (m : Mem) (data len : ℕ) (w : Width) (entries : List WireEntry) (key : ℕ),
      HoldsMap m data len w entries → 0 < key → key < 256 →
      AccessorsReport m data len key (entryAt key entries (data + (w.bytes + 1))) := by
  intro hclaim
  have hmap : HoldsMap (memOf (.map .inline wideValue)) 0 9 .inline wideValue :=
    ⟨⟨by decide, by decide, by decide⟩, by decide, by decide, by decide⟩
  have hreport := hclaim _ 0 9 .inline wideValue 2 hmap (by decide) (by decide)
  have hvalue := hreport.value
  have hmissing : (getCborMapValue 0 9 2).run (memOf (.map .inline wideValue)) = some none := by
    decide
  rw [hmissing] at hvalue
  cases hvalue

end UnsoloKey
