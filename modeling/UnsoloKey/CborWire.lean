import UnsoloKey.BigEndian
import Mathlib.Tactic

/-!
# Encoded CBOR items

The initial byte of a head says whether its argument follows in the same byte or in
the next one, two, four or eight, and nothing forces an encoder to choose the
shortest form.  A `Wire` is a data item of definite length together with these
choices.
-/

namespace UnsoloKey.Cbor

/-! ## Heads -/

/-- Where the argument of a head stands. -/
inductive Width where
  | inline
  | one
  | two
  | four
  | eight
  deriving DecidableEq

namespace Width

/-- The bytes behind the initial byte. -/
def bytes : Width → ℕ
  | inline => 0
  | one => 1
  | two => 2
  | four => 4
  | eight => 8

/-- The arguments below this number can be written. -/
def limit : Width → ℕ
  | inline => 24
  | one => 2 ^ 8
  | two => 2 ^ 16
  | four => 2 ^ 32
  | eight => 2 ^ 64

/-- The low five bits of the initial byte. -/
def info : Width → ℕ → ℕ
  | inline, n => n
  | one, _ => 24
  | two, _ => 25
  | four, _ => 26
  | eight, _ => 27

def shortest (n : ℕ) : Width :=
  if n < 24 then inline
  else if n < 2 ^ 8 then one
  else if n < 2 ^ 16 then two
  else if n < 2 ^ 32 then four
  else eight

/-- At most two bytes. -/
def Narrow (w : Width) : Prop := w.bytes ≤ 2

instance (w : Width) : Decidable w.Narrow := inferInstanceAs (Decidable (_ ≤ _))

theorem info_lt {w : Width} {n : ℕ} (h : n < w.limit) : w.info n < 32 := by
  cases w with
  | inline =>
      change n < 24 at h
      change n < 32
      omega
  | one | two | four | eight => simp [info]

theorem shortest_narrow {n : ℕ} (h : n < 2 ^ 16) : (shortest n).Narrow := by
  unfold shortest
  split_ifs
  · decide
  · decide
  · decide

theorem lt_limit_shortest {n : ℕ} (h : n < 2 ^ 64) : n < (shortest n).limit := by
  unfold shortest
  split_ifs with h1 h2 h3 h4
  · exact h1
  · exact h2
  · exact h3
  · exact h4
  · exact h

end Width

def wireHead (major : ℕ) (w : Width) (n : ℕ) : List UInt8 :=
  UInt8.ofNat (32 * major + w.info n) :: beBytes w.bytes n

@[simp] theorem wireHead_length (major : ℕ) (w : Width) (n : ℕ) :
    (wireHead major w n).length = w.bytes + 1 := by
  rw [wireHead, List.length_cons, beBytes_length]

/-! ## Items -/

/-- The items which are a head and nothing else; `nint` of `n` is the integer `-1 - n`,
and `simple` covers the simple values and the floating-point numbers. -/
inductive NumberKind where
  | uint
  | nint
  | simple
  deriving DecidableEq

def NumberKind.major : NumberKind → ℕ
  | uint => 0
  | nint => 1
  | simple => 7

inductive StringKind where
  | bytes
  | text
  deriving DecidableEq

def StringKind.major : StringKind → ℕ
  | bytes => 2
  | text => 3

inductive Wire where
  | number (kind : NumberKind) (w : Width) (n : ℕ)
  | string (kind : StringKind) (w : Width) (bs : List UInt8)
  | array (w : Width) (items : List Wire)
  | map (w : Width) (entries : List (Wire × Wire))

abbrev WireEntry := Wire × Wire

namespace Wire

def major : Wire → ℕ
  | number kind _ _ => kind.major
  | string kind _ _ => kind.major
  | array _ _ => 4
  | map _ _ => 5

def width : Wire → Width
  | number _ w _ => w
  | string _ w _ => w
  | array w _ => w
  | map w _ => w

/-- The argument of the head: a number, a length, or a count. -/
def argument : Wire → ℕ
  | number _ _ n => n
  | string _ _ bs => bs.length
  | array _ items => items.length
  | map _ entries => entries.length

def head (x : Wire) : List UInt8 := wireHead x.major x.width x.argument

end Wire

mutual

def Wire.encode : Wire → List UInt8
  | .number kind w n => wireHead kind.major w n
  | .string kind w bs => wireHead kind.major w bs.length ++ bs
  | .array w items => wireHead 4 w items.length ++ encodeWires items
  | .map w entries => wireHead 5 w entries.length ++ encodeWireEntries entries

def encodeWires : List Wire → List UInt8
  | [] => []
  | x :: rest => x.encode ++ encodeWires rest

def encodeWireEntries : List (Wire × Wire) → List UInt8
  | [] => []
  | (k, v) :: rest => k.encode ++ v.encode ++ encodeWireEntries rest

end

mutual

/-- Every head of the item has the property, for its major type, its width and its
argument. -/
def Wire.Heads (P : ℕ → Width → ℕ → Prop) : Wire → Prop
  | .number kind w n => P kind.major w n
  | .string kind w bs => P kind.major w bs.length
  | .array w items => P 4 w items.length ∧ WiresHeads P items
  | .map w entries => P 5 w entries.length ∧ WireEntriesHeads P entries

def WiresHeads (P : ℕ → Width → ℕ → Prop) : List Wire → Prop
  | [] => True
  | x :: rest => x.Heads P ∧ WiresHeads P rest

def WireEntriesHeads (P : ℕ → Width → ℕ → Prop) : List (Wire × Wire) → Prop
  | [] => True
  | (k, v) :: rest => k.Heads P ∧ v.Heads P ∧ WireEntriesHeads P rest

end

section

variable (P : ℕ → Width → ℕ → Prop) [∀ major w n, Decidable (P major w n)]

mutual

def Wire.decidableHeads : (x : Wire) → Decidable (x.Heads P)
  | .number kind w n => inferInstanceAs (Decidable (P kind.major w n))
  | .string kind w bs => inferInstanceAs (Decidable (P kind.major w bs.length))
  | .array _ items => @instDecidableAnd _ _ _ (decidableWiresHeads items)
  | .map _ entries => @instDecidableAnd _ _ _ (decidableWireEntriesHeads entries)

def decidableWiresHeads : (items : List Wire) → Decidable (WiresHeads P items)
  | [] => isTrue trivial
  | x :: rest => @instDecidableAnd _ _ x.decidableHeads (decidableWiresHeads rest)

def decidableWireEntriesHeads :
    (entries : List (Wire × Wire)) → Decidable (WireEntriesHeads P entries)
  | [] => isTrue trivial
  | (k, v) :: rest => @instDecidableAnd _ _ k.decidableHeads
      (@instDecidableAnd _ _ v.decidableHeads (decidableWireEntriesHeads rest))

end

instance (x : Wire) : Decidable (x.Heads P) := x.decidableHeads P

end

/-- Every argument can be written in the width chosen for it. -/
def Wire.WellFormed (x : Wire) : Prop := x.Heads fun _ w n => n < w.limit

/-- No argument takes more than two bytes. -/
def Wire.Narrow (x : Wire) : Prop := x.Heads fun _ w _ => w.Narrow

instance (x : Wire) : Decidable x.WellFormed :=
  inferInstanceAs (Decidable (x.Heads fun _ w n => n < w.limit))

instance (x : Wire) : Decidable x.Narrow :=
  inferInstanceAs (Decidable (x.Heads fun _ w _ => w.Narrow))

/-! ## The canonical form -/

/-- Except for floating-point numbers, every head is the shortest one. -/
def Wire.Shortest (x : Wire) : Prop :=
  x.Heads fun major w n => major ≠ NumberKind.simple.major → w = .shortest n

instance (x : Wire) : Decidable x.Shortest := inferInstanceAs (Decidable (x.Heads _))

/-- The order of the keys of a map: by major type, then by length, then by the bytes. -/
def Wire.Before (a b : Wire) : Prop :=
  a.major < b.major ∨ a.major = b.major ∧ (a.encode.length < b.encode.length ∨
    a.encode.length = b.encode.length ∧ a.encode < b.encode)

instance (a b : Wire) : Decidable (a.Before b) := inferInstanceAs (Decidable (_ ∨ _))

theorem Wire.not_before_self (x : Wire) : ¬ x.Before x := by
  rintro (hmajor | ⟨-, hlength | ⟨-, hbytes⟩⟩)
  · omega
  · omega
  · exact absurd hbytes (List.lt_irrefl _)

mutual

/-- The keys of every map are in order, and therefore distinct. -/
def Wire.Sorted : Wire → Prop
  | .array _ items => WiresSorted items
  | .map _ entries => entries.Pairwise (fun a b => a.1.Before b.1) ∧
      WireEntriesSorted entries
  | _ => True

def WiresSorted : List Wire → Prop
  | [] => True
  | x :: rest => x.Sorted ∧ WiresSorted rest

def WireEntriesSorted : List (Wire × Wire) → Prop
  | [] => True
  | (k, v) :: rest => k.Sorted ∧ v.Sorted ∧ WireEntriesSorted rest

end

mutual

def Wire.decidableSorted : (x : Wire) → Decidable x.Sorted
  | .number _ _ _ => isTrue trivial
  | .string _ _ _ => isTrue trivial
  | .array _ items => decidableWiresSorted items
  | .map _ entries => @instDecidableAnd _ _ inferInstance (decidableWireEntriesSorted entries)

def decidableWiresSorted : (items : List Wire) → Decidable (WiresSorted items)
  | [] => isTrue trivial
  | x :: rest => @instDecidableAnd _ _ x.decidableSorted (decidableWiresSorted rest)

def decidableWireEntriesSorted :
    (entries : List (Wire × Wire)) → Decidable (WireEntriesSorted entries)
  | [] => isTrue trivial
  | (k, v) :: rest => @instDecidableAnd _ _ k.decidableSorted
      (@instDecidableAnd _ _ v.decidableSorted (decidableWireEntriesSorted rest))

end

instance (x : Wire) : Decidable x.Sorted := x.decidableSorted

structure Wire.Canonical (x : Wire) : Prop where
  wellFormed : x.WellFormed
  shortest : x.Shortest
  sorted : x.Sorted

mutual

def Wire.depth : Wire → ℕ
  | .array _ items => depthWires items + 1
  | .map _ entries => depthWireEntries entries + 1
  | _ => 1

def depthWires : List Wire → ℕ
  | [] => 0
  | x :: rest => max x.depth (depthWires rest)

def depthWireEntries : List (Wire × Wire) → ℕ
  | [] => 0
  | (k, v) :: rest => max (max k.depth v.depth) (depthWireEntries rest)

end

/-- What stands behind the head. -/
def Wire.payload : Wire → List UInt8
  | .number _ _ _ => []
  | .string _ _ bs => bs
  | .array _ items => encodeWires items
  | .map _ entries => encodeWireEntries entries

theorem Wire.encode_eq (x : Wire) : x.encode = x.head ++ x.payload := by
  cases x with
  | number kind w n =>
      rw [Wire.encode, payload, List.append_nil]
      rfl
  | string kind w bs =>
      rw [Wire.encode]
      rfl
  | array w items =>
      rw [Wire.encode]
      rfl
  | map w entries =>
      rw [Wire.encode]
      rfl

theorem Wire.head_length (x : Wire) : x.head.length = x.width.bytes + 1 :=
  wireHead_length _ _ _

theorem Wire.encode_length_pos (x : Wire) : 0 < x.encode.length := by
  have hhead := x.head_length
  rw [x.encode_eq, List.length_append]
  omega

theorem Wire.major_lt (x : Wire) : x.major < 8 := by
  cases x with
  | number kind w n => cases kind <;> simp [major, NumberKind.major]
  | string kind w bs => cases kind <;> simp [major, StringKind.major]
  | array w items => simp [major]
  | map w entries => simp [major]

theorem encodeWireEntries_append (xs ys : List WireEntry) :
    encodeWireEntries (xs ++ ys) = encodeWireEntries xs ++ encodeWireEntries ys := by
  induction xs with
  | nil => rfl
  | cons e xs ih => simp [encodeWireEntries, ih]

theorem length_le_encodeWires (items : List Wire) :
    items.length ≤ (encodeWires items).length := by
  induction items with
  | nil => exact Nat.zero_le _
  | cons x rest ih =>
      have hx := x.encode_length_pos
      simp only [encodeWires, List.length_cons, List.length_append]
      omega

theorem length_le_encodeWireEntries (entries : List WireEntry) :
    entries.length ≤ (encodeWireEntries entries).length := by
  induction entries with
  | nil => exact Nat.zero_le _
  | cons e rest ih =>
      have hkey := e.1.encode_length_pos
      simp only [encodeWireEntries, List.length_cons, List.length_append]
      omega

theorem wireEntriesHeads_append {P : ℕ → Width → ℕ → Prop} {xs ys : List WireEntry} :
    WireEntriesHeads P (xs ++ ys) ↔ WireEntriesHeads P xs ∧ WireEntriesHeads P ys := by
  induction xs with
  | nil => simp [WireEntriesHeads]
  | cons e xs ih => simp [WireEntriesHeads, ih, and_assoc]

theorem wireEntriesHeads_mem {P : ℕ → Width → ℕ → Prop} {entries : List WireEntry}
    {e : WireEntry} (h : WireEntriesHeads P entries) (he : e ∈ entries) :
    e.1.Heads P ∧ e.2.Heads P := by
  obtain ⟨before, after, rfl⟩ := List.append_of_mem he
  obtain ⟨-, hkey, hvalue, -⟩ := wireEntriesHeads_append.1 h
  exact ⟨hkey, hvalue⟩

theorem Wire.Heads.head {P : ℕ → Width → ℕ → Prop} {x : Wire} (h : x.Heads P) :
    P x.major x.width x.argument := by
  cases x with
  | number kind w n => exact h
  | string kind w bs => exact h
  | array w items => exact h.1
  | map w entries => exact h.1

mutual

theorem Wire.depth_le (x : Wire) : x.depth ≤ x.encode.length := by
  cases x with
  | number kind w n => exact (Wire.number kind w n).encode_length_pos
  | string kind w bs => exact (Wire.string kind w bs).encode_length_pos
  | array w items =>
      have hitems := depthWires_le items
      simp only [Wire.depth, Wire.encode, List.length_append, wireHead_length]
      omega
  | map w entries =>
      have hentries := depthWireEntries_le entries
      simp only [Wire.depth, Wire.encode, List.length_append, wireHead_length]
      omega

theorem depthWires_le (items : List Wire) :
    depthWires items ≤ (encodeWires items).length := by
  cases items with
  | nil => exact Nat.zero_le _
  | cons x rest =>
      have hx := x.depth_le
      have hrest := depthWires_le rest
      simp only [depthWires, encodeWires, List.length_append]
      omega

theorem depthWireEntries_le (entries : List (Wire × Wire)) :
    depthWireEntries entries ≤ (encodeWireEntries entries).length := by
  match entries with
  | [] => exact Nat.zero_le _
  | (k, v) :: rest =>
      have hk := k.depth_le
      have hv := v.depth_le
      have hrest := depthWireEntries_le rest
      simp only [depthWireEntries, encodeWireEntries, List.length_append]
      omega

end

/-! ## Reading back -/

namespace Width

variable {w w' : Width} {n n' : ℕ}

theorem limit_eq (hw : w ≠ inline) : w.limit = 256 ^ w.bytes := by
  cases w with
  | inline => exact absurd rfl hw
  | one | two | four | eight => rfl

/-- The width can be told from the initial byte. -/
theorem info_inj (hn : n < w.limit) (hn' : n' < w'.limit) (h : w.info n = w'.info n') :
    w = w' := by
  cases w <;> cases w' <;>
    first
    | rfl
    | simp only [info, limit] at hn hn' h
      omega

end Width

theorem wireHead_inj {major major' n n' : ℕ} {w w' : Width} {rest rest' : List UInt8}
    (hmajor : major < 8) (hmajor' : major' < 8) (hn : n < w.limit) (hn' : n' < w'.limit)
    (h : wireHead major w n ++ rest = wireHead major' w' n' ++ rest') :
    major = major' ∧ w = w' ∧ n = n' ∧ rest = rest' := by
  have hinfo := Width.info_lt hn
  have hinfo' := Width.info_lt hn'
  rw [wireHead, wireHead, List.cons_append, List.cons_append, List.cons.injEq] at h
  obtain ⟨hinitial, hbehind⟩ := h
  have hbyte := congrArg UInt8.toNat hinitial
  rw [UInt8.toNat_ofNat', UInt8.toNat_ofNat'] at hbyte
  have hboth : major = major' ∧ w.info n = w'.info n' := by omega
  obtain rfl : w = w' := Width.info_inj hn hn' hboth.2
  obtain ⟨hbytes, hrest⟩ := List.append_inj hbehind (by simp)
  refine ⟨hboth.1, rfl, ?_, hrest⟩
  by_cases hinline : w = .inline
  · subst hinline
    exact hboth.2
  · have hvalue := congrArg beNat hbytes
    rw [Width.limit_eq hinline] at hn hn'
    rwa [beNat_beBytes, beNat_beBytes, Nat.mod_eq_of_lt hn, Nat.mod_eq_of_lt hn'] at hvalue

theorem NumberKind.major_inj {k k' : NumberKind} (h : k.major = k'.major) : k = k' := by
  cases k <;> cases k' <;> simp_all [NumberKind.major]

theorem StringKind.major_inj {k k' : StringKind} (h : k.major = k'.major) : k = k' := by
  cases k <;> cases k' <;> simp_all [StringKind.major]

theorem Wire.head_inj {x y : Wire} {rest rest' : List UInt8} (hx : x.WellFormed)
    (hy : y.WellFormed) (h : x.encode ++ rest = y.encode ++ rest') :
    x.major = y.major ∧ x.width = y.width ∧ x.argument = y.argument ∧
      x.payload ++ rest = y.payload ++ rest' := by
  rw [x.encode_eq, y.encode_eq, List.append_assoc, List.append_assoc] at h
  exact wireHead_inj x.major_lt y.major_lt hx.head hy.head h

mutual

/-- Well-formed bytes begin with one item only, whatever follows it. -/
theorem Wire.encode_inj (x : Wire) (hx : x.WellFormed) {y : Wire} (hy : y.WellFormed)
    {rest rest' : List UInt8} (h : x.encode ++ rest = y.encode ++ rest') :
    x = y ∧ rest = rest' := by
  obtain ⟨hmajor, hwidth, hargument, hpayload⟩ := Wire.head_inj hx hy h
  cases x with
  | number kind w n =>
      cases y with
      | number kind' w' n' =>
          obtain rfl := NumberKind.major_inj hmajor
          obtain rfl : w = w' := hwidth
          obtain rfl : n = n' := hargument
          exact ⟨rfl, hpayload⟩
      | string kind' w' bs' => cases kind <;> cases kind' <;> cases hmajor
      | array w' items' => cases kind <;> cases hmajor
      | map w' entries' => cases kind <;> cases hmajor
  | string kind w bs =>
      cases y with
      | number kind' w' n' => cases kind <;> cases kind' <;> cases hmajor
      | string kind' w' bs' =>
          obtain rfl := StringKind.major_inj hmajor
          obtain rfl : w = w' := hwidth
          obtain ⟨rfl, hrest⟩ := List.append_inj hpayload hargument
          exact ⟨rfl, hrest⟩
      | array w' items' => cases kind <;> cases hmajor
      | map w' entries' => cases kind <;> cases hmajor
  | array w items =>
      cases y with
      | number kind' w' n' => cases kind' <;> cases hmajor
      | string kind' w' bs' => cases kind' <;> cases hmajor
      | array w' items' =>
          obtain rfl : w = w' := hwidth
          obtain ⟨rfl, hrest⟩ := encodeWires_inj items hx.2 hy.2 hargument hpayload
          exact ⟨rfl, hrest⟩
      | map w' entries' => cases hmajor
  | map w entries =>
      cases y with
      | number kind' w' n' => cases kind' <;> cases hmajor
      | string kind' w' bs' => cases kind' <;> cases hmajor
      | array w' items' => cases hmajor
      | map w' entries' =>
          obtain rfl : w = w' := hwidth
          obtain ⟨rfl, hrest⟩ := encodeWireEntries_inj entries hx.2 hy.2 hargument hpayload
          exact ⟨rfl, hrest⟩

theorem encodeWires_inj (xs : List Wire)
    (hxs : WiresHeads (fun _ w n => n < w.limit) xs) {ys : List Wire}
    (hys : WiresHeads (fun _ w n => n < w.limit) ys) (hcount : xs.length = ys.length)
    {rest rest' : List UInt8} (h : encodeWires xs ++ rest = encodeWires ys ++ rest') :
    xs = ys ∧ rest = rest' := by
  match xs, ys with
  | [], [] => exact ⟨rfl, h⟩
  | [], _ :: _ => cases hcount
  | _ :: _, [] => cases hcount
  | x :: xs, y :: ys =>
      rw [encodeWires, encodeWires, List.append_assoc, List.append_assoc] at h
      obtain ⟨rfl, hlater⟩ := x.encode_inj hxs.1 hys.1 h
      obtain ⟨rfl, hrest⟩ := encodeWires_inj xs hxs.2 hys.2 (Nat.succ.inj hcount) hlater
      exact ⟨rfl, hrest⟩

theorem encodeWireEntries_inj (xs : List (Wire × Wire))
    (hxs : WireEntriesHeads (fun _ w n => n < w.limit) xs) {ys : List (Wire × Wire)}
    (hys : WireEntriesHeads (fun _ w n => n < w.limit) ys) (hcount : xs.length = ys.length)
    {rest rest' : List UInt8}
    (h : encodeWireEntries xs ++ rest = encodeWireEntries ys ++ rest') :
    xs = ys ∧ rest = rest' := by
  match xs, ys with
  | [], [] => exact ⟨rfl, h⟩
  | [], _ :: _ => cases hcount
  | _ :: _, [] => cases hcount
  | (k, v) :: xs, (k', v') :: ys =>
      simp only [encodeWireEntries, List.append_assoc] at h
      obtain ⟨rfl, hvalue⟩ := k.encode_inj hxs.1 hys.1 h
      obtain ⟨rfl, hlater⟩ := v.encode_inj hxs.2.1 hys.2.1 hvalue
      obtain ⟨rfl, hrest⟩ :=
        encodeWireEntries_inj xs hxs.2.2 hys.2.2 (Nat.succ.inj hcount) hlater
      exact ⟨rfl, hrest⟩

end

end UnsoloKey.Cbor
