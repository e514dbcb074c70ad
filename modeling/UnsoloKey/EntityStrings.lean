import UnsoloKey.CanonicalRequest
import UnsoloKey.Registration
import Mathlib.Tactic

/-!
# The strings of the rp and the user entity

The strings of an entity are found by their text keys, and their lengths are kept in
eight bits.  A string which is missing is read as a null pointer.
-/

namespace UnsoloKey

open Rd Cbor

/-- The bytes of a string, and none of any other item. -/
def Cbor.Item.stringBytes : Item → List UInt8
  | .bytes bs => bs
  | .text bs => bs
  | _ => []

/-- The string under the text key in the entity, empty when it has none. -/
inductive EntityString (key : List UInt8) : List Entry → List UInt8 → Prop
  | found (before after : List Entry) (v : Item)
      (hbefore : ∀ e ∈ before, OtherKey key e.1) :
      EntityString key (before ++ (.text key, v) :: after) v.stringBytes
  | missing (entity : List Entry) (hother : ∀ e ∈ entity, OtherKey key e.1) :
      EntityString key entity []

/-- A canonical MakeCredential with the string in the entity under the number, empty
when there is no such entity. -/
inductive Command.EntityHas (c : Command) (number : ℕ) (key : List UInt8) :
    List UInt8 → Prop
  | entity (entries entity : List Entry) (bs : List UInt8)
      (hcarries : c.Carries 0x01 entries) (hentity : HasEntry entries number (.map entity))
      (hscan : ScannableEntries entity) (hstring : EntityString key entity bs) :
      c.EntityHas number key bs
  | noEntity (entries : List Entry) (hcarries : c.Carries 0x01 entries)
      (hscan : ScannableEntries entries) (hother : ∀ e ∈ entries, e.1 ≠ .uint number) :
      c.EntityHas number key []

/-- What is left of a string whose length is kept in eight bits. -/
def byteCut (bs : List UInt8) : List UInt8 := bs.take (u8 bs.length)

theorem byteCut_of_le {bs : List UInt8} (h : bs.length ≤ 255) : byteCut bs = bs := by
  rw [byteCut, show u8 bs.length = bs.length from Nat.mod_eq_of_lt (by omega),
    List.take_length]

theorem byteCut_length (bs : List UInt8) : (byteCut bs).length = u8 bs.length := by
  rw [byteCut, List.length_take]
  exact Nat.min_eq_left (Nat.mod_le _ _)

theorem Mem.Holds.slice_byteCut {m : Mem} {p : ℕ} {bs : List UInt8} (hm : m.Holds p bs) :
    m.slice p (u8 bs.length) = byteCut bs := by
  have hcut : u8 bs.length ≤ bs.length := Nat.mod_le _ _
  rw [← Mem.slice_take m p bs.length _ hcut, hm.slice_eq rfl, byteCut]

/-- The pointer and length stand for the string. -/
inductive ReadsString (m : Mem) : Option (ℕ × ℕ) → List UInt8 → Prop
  | missing : ReadsString m none []
  | found (p : ℕ) (bs : List UInt8) (hm : m.Holds p bs) :
      ReadsString m (some (p, u8 bs.length)) bs

section

variable {c : Command} {m : Mem} {p number : ℕ} {bs key : List UInt8}
  {entity : List Entry} {s : Option (ℕ × ℕ)}

theorem ReadsString.readString (h : ReadsString m s bs) :
    (readString s).run m = some (byteCut bs) := by
  cases h with
  | missing => rfl
  | found p _ hm =>
      have hshort : (UInt8.ofNat (u8 bs.length)).toNat = u8 bs.length := by
        rw [UInt8.toNat_ofNat']
        exact Nat.mod_mod _ _
      rw [UnsoloKey.readString, Option.getD_some]
      dsimp only
      rw [hshort, run_bytes, hm.slice_byteCut]

theorem stringPayload_string {major : ℕ} (hmajor : major = 2 ∨ major = 3)
    (hshort : bs.length < 65536) (hm : m.Holds p (head major bs.length ++ bs)) :
    ∃ s, (stringPayload p).run m = some s ∧ ReadsString m s bs :=
  ⟨_, stringPayload_run hmajor hshort (Mem.holds_append.1 hm).1,
    .found _ _ (Mem.holds_append.1 hm).2⟩

theorem stringPayload_other {x : Item} (hx : Scannable x) (hm : m.Holds p x.encode)
    (hbytes : majorOf x ≠ 2) (htext : majorOf x ≠ 3) :
    (stringPayload p).run m = some none := by
  have hnot : ¬ (majorBits (m p) = 0x40 ∨ majorBits (m p) = 0x60) :=
    not_or.2 ⟨majorBits_ne hx hm (by omega) hbytes, majorBits_ne hx hm (by omega) htext⟩
  rw [stringPayload, run_bind, run_byte, Option.bind_some, if_neg hnot, run_pure]

theorem stringPayload_reads {x : Item} (hx : Scannable x) (hm : m.Holds p x.encode) :
    ∃ s, (stringPayload p).run m = some s ∧ ReadsString m s x.stringBytes := by
  cases x with
  | bytes bs => exact stringPayload_string (.inl rfl) hx hm
  | text bs => exact stringPayload_string (.inr rfl) hx hm
  | uint n =>
      exact ⟨none, stringPayload_other hx hm (by simp [majorOf]) (by simp [majorOf]), .missing⟩
  | nint n =>
      exact ⟨none, stringPayload_other hx hm (by simp [majorOf]) (by simp [majorOf]), .missing⟩
  | array items =>
      exact ⟨none, stringPayload_other hx hm (by simp [majorOf]) (by simp [majorOf]), .missing⟩
  | map entries =>
      exact ⟨none, stringPayload_other hx hm (by simp [majorOf]) (by simp [majorOf]), .missing⟩
  | bool b =>
      exact ⟨none, stringPayload_other hx hm (by simp [majorOf]) (by simp [majorOf]), .missing⟩

theorem EntityString.reads (h : EntityString key entity bs) (hkey : key.length < 256)
    (hscan : ScannableEntries entity) (hm : m.Holds p (Item.map entity).encode)
    (hlen : (Item.map entity).encode.length < 65536) :
    ∃ s, (cborMapGetString p (Item.map entity).encode.length key).run m = some s ∧
      ReadsString m s bs := by
  have hcount := lt_of_le_of_lt (length_le_encode_map entity) hlen
  cases h with
  | found before after v hbefore =>
      have hscan' := scannableEntries_append.1 hscan
      obtain ⟨q, hq, hrun⟩ := cborMapGetString_value hkey hcount hscan'.1 hbefore hm le_rfl
        hlen
      rw [hrun]
      exact stringPayload_reads hscan'.2.2.1 hq
  | missing _ hother =>
      exact ⟨none, cborMapGetString_missing hscan hcount hother hm le_rfl hlen, .missing⟩

/-- The string which is read of an entity, if there is an entity. -/
def entityString (key : List UInt8) : Option (ℕ × ℕ) → Rd (Option (ℕ × ℕ))
  | none => pure none
  | some (ptr, len) => cborMapGetString ptr len key

theorem Command.EntityHas.reads (h : c.EntityHas number key bs) (env : Env)
    (hkey : key.length < 256) (hpos : 0 < number) (hnumber : number < 256) :
    ∃ item s, (getCborMapItem 1 (c.reqLen - 1) number).run c.req = some item ∧
      (entityString key (item.pointer env)).run c.req = some s ∧ ReadsString c.req s bs := by
  cases h with
  | entity entries entity _ hcarries hentity hscan hstring =>
      have hlen := (hcarries.uintEntry hentity hpos hnumber).1
      have hmap : Scannable (.map entity) :=
        ⟨lt_of_le_of_lt (length_le_encode_map entity) hlen, hscan⟩
      obtain ⟨-, p, hm, hread⟩ := hcarries.item hentity hpos hnumber hmap
      obtain ⟨s, hrun, hs⟩ := hstring.reads hkey hscan hm hlen
      exact ⟨_, s, hread, hrun, hs⟩
  | noEntity entries hcarries hscan hother =>
      refine ⟨.fallsOff, none, hcarries.missing hpos hnumber hscan hother, ?_, .missing⟩
      -- a stray pointer comes with the length zero
      cases hstray : env.strayItem with
      | none => simp [ItemResult.pointer, hstray, entityString]
      | some p => simp [ItemResult.pointer, hstray, entityString, cborMapGetString]

theorem Command.EntityHas.carries (h : c.EntityHas number key bs) :
    ∃ entries, c.Carries 0x01 entries := by
  cases h with
  | entity entries entity _ hcarries _ _ _ => exact ⟨entries, hcarries⟩
  | noEntity entries hcarries _ _ => exact ⟨entries, hcarries⟩

end

end UnsoloKey
