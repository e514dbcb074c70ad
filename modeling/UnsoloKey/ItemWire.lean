import UnsoloKey.CborItem
import UnsoloKey.CborWire
import Mathlib.Tactic

/-!
# Items with the shortest heads

The items of the protocol, written with the shortest heads, are encoded items like any
others.
-/

namespace UnsoloKey.Cbor

mutual

/-- The item with every argument in the shortest width. -/
def Item.wire : Item → Wire
  | .uint n => .number .uint (.shortest n) n
  | .nint n => .number .nint (.shortest n) n
  | .bytes bs => .string .bytes (.shortest bs.length) bs
  | .text bs => .string .text (.shortest bs.length) bs
  | .array items => .array (.shortest items.length) (wires items)
  | .map entries => .map (.shortest entries.length) (wireEntries entries)
  | .bool b => .number .simple .inline (if b then 21 else 20)

def wires : List Item → List Wire
  | [] => []
  | x :: rest => x.wire :: wires rest

def wireEntries : List (Item × Item) → List WireEntry
  | [] => []
  | (k, v) :: rest => (k.wire, v.wire) :: wireEntries rest

end

@[simp] theorem wires_length (items : List Item) : (wires items).length = items.length := by
  induction items with
  | nil => rfl
  | cons x rest ih => rw [wires, List.length_cons, List.length_cons, ih]

@[simp] theorem wireEntries_length (entries : List Entry) :
    (wireEntries entries).length = entries.length := by
  induction entries with
  | nil => rfl
  | cons e rest ih => rw [wireEntries, List.length_cons, List.length_cons, ih]

/-- The head of the protocol is the shortest one. -/
theorem head_eq_wireHead {n : ℕ} (major : ℕ) (hn : n < 2 ^ 32) :
    head major n = wireHead major (.shortest n) n := by
  unfold head wireHead Width.shortest
  by_cases h24 : n < 24
  · rw [if_pos h24, if_pos h24]
    rfl
  · rw [if_neg h24, if_neg h24]
    by_cases h8 : n < 2 ^ 8
    · rw [if_pos (by omega), if_pos h8]
      rfl
    · rw [if_neg (by omega), if_neg h8]
      by_cases h16 : n < 2 ^ 16
      · rw [if_pos (by omega), if_pos h16]
        rfl
      · rw [if_neg (by omega), if_neg h16, if_pos hn]
        simp only [Width.bytes, beBytes, Nat.div_div_eq_div_mul]
        rfl

mutual

theorem Item.encode_wire (x : Item) (hx : x.Valid) : x.wire.encode = x.encode := by
  cases x with
  | uint n => exact (head_eq_wireHead 0 hx).symm
  | nint n => exact (head_eq_wireHead 1 hx).symm
  | bytes bs =>
      rw [Item.wire, Wire.encode, Item.encode, head_eq_wireHead 2 hx]
      rfl
  | text bs =>
      rw [Item.wire, Wire.encode, Item.encode, head_eq_wireHead 3 hx]
      rfl
  | array items =>
      rw [Item.wire, Wire.encode, Item.encode, head_eq_wireHead 4 hx.1, wires_length,
        encodeWires_wires items hx.2]
  | map entries =>
      rw [Item.wire, Wire.encode, Item.encode, head_eq_wireHead 5 hx.1, wireEntries_length,
        encodeWireEntries_wireEntries entries hx.2]
  | bool b => cases b <;> rfl

theorem encodeWires_wires (items : List Item) (hitems : ValidItems items) :
    encodeWires (wires items) = encodeItems items := by
  cases items with
  | nil => rfl
  | cons x rest =>
      rw [wires, encodeWires, encodeItems, x.encode_wire hitems.1,
        encodeWires_wires rest hitems.2]

theorem encodeWireEntries_wireEntries (entries : List (Item × Item))
    (hentries : ValidEntries entries) :
    encodeWireEntries (wireEntries entries) = encodeEntries entries := by
  match entries with
  | [] => rfl
  | (k, v) :: rest =>
      rw [wireEntries, encodeWireEntries, encodeEntries, k.encode_wire hentries.1,
        v.encode_wire hentries.2.1, encodeWireEntries_wireEntries rest hentries.2.2]

end

mutual

/-- Heads of the shortest width, and of the two booleans. -/
theorem Item.wire_heads {P : ℕ → Width → ℕ → Prop} (hshortest : ∀ major n, n < 2 ^ 32 →
      P major (.shortest n) n) (x : Item) (hx : x.Valid) (hbool : ∀ n, n = 20 ∨ n = 21 →
      P 7 .inline n) : x.wire.Heads P := by
  cases x with
  | uint n => exact hshortest 0 n hx
  | nint n => exact hshortest 1 n hx
  | bytes bs => exact hshortest 2 _ hx
  | text bs => exact hshortest 3 _ hx
  | array items =>
      refine ⟨?_, wires_heads hshortest items hx.2 hbool⟩
      rw [wires_length]
      exact hshortest 4 _ hx.1
  | map entries =>
      refine ⟨?_, wireEntries_heads hshortest entries hx.2 hbool⟩
      rw [wireEntries_length]
      exact hshortest 5 _ hx.1
  | bool b =>
      cases b with
      | false => exact hbool 20 (.inl rfl)
      | true => exact hbool 21 (.inr rfl)

theorem wires_heads {P : ℕ → Width → ℕ → Prop} (hshortest : ∀ major n, n < 2 ^ 32 →
      P major (.shortest n) n) (items : List Item) (hitems : ValidItems items)
    (hbool : ∀ n, n = 20 ∨ n = 21 → P 7 .inline n) : WiresHeads P (wires items) := by
  cases items with
  | nil => exact trivial
  | cons x rest =>
      exact ⟨x.wire_heads hshortest hitems.1 hbool, wires_heads hshortest rest hitems.2 hbool⟩

theorem wireEntries_heads {P : ℕ → Width → ℕ → Prop} (hshortest : ∀ major n, n < 2 ^ 32 →
      P major (.shortest n) n) (entries : List (Item × Item)) (hentries : ValidEntries entries)
    (hbool : ∀ n, n = 20 ∨ n = 21 → P 7 .inline n) :
    WireEntriesHeads P (wireEntries entries) := by
  match entries with
  | [] => exact trivial
  | (k, v) :: rest =>
      exact ⟨k.wire_heads hshortest hentries.1 hbool, v.wire_heads hshortest hentries.2.1 hbool,
        wireEntries_heads hshortest rest hentries.2.2 hbool⟩

end

theorem Item.wire_wellFormed {x : Item} (hx : x.Valid) : x.wire.WellFormed :=
  x.wire_heads (fun _ _ hn => Width.lt_limit_shortest (by omega)) hx fun n hn => by
    change n < 24
    omega

theorem Item.wire_shortest {x : Item} (hx : x.Valid) : x.wire.Shortest :=
  x.wire_heads (fun _ _ _ _ => rfl) hx fun _ _ hsimple => absurd rfl hsimple

end UnsoloKey.Cbor
