import UnsoloKey.CborWalk
import UnsoloKey.Fido2
import Mathlib.Tactic

/-!
# Canonical requests

A host sends a command byte followed by one canonically encoded map.  The accessors
find in it what the host has put there, as long as the entries before the one which
is looked for have lengths of 16 bits.
-/

namespace UnsoloKey

open Rd Cbor

/-- The request is the command byte and the encoded map. -/
structure Command.Carries (c : Command) (cmd : UInt8) (entries : List Entry) : Prop where
  holds : c.req.Holds 0 (cmd :: (Item.map entries).encode)
  length : c.reqLen = (Item.map entries).encode.length + 1
  fits : c.reqLen ≤ 1024

theorem holds_getD (bs : List UInt8) : Mem.Holds (fun a => bs.getD a 0) 0 bs := by
  apply List.ext_getElem (by simp)
  intro i hi hi'
  rw [Mem.getElem_slice, Nat.zero_add]
  simp [List.getD, hi']

theorem length_le_encodeEntries (entries : List Entry) :
    entries.length ≤ (encodeEntries entries).length := by
  induction entries with
  | nil => exact Nat.zero_le _
  | cons e rest ih =>
      have hkey := e.1.encode_length_pos
      simp only [encodeEntries, List.length_cons, List.length_append]
      omega

theorem length_le_encodeItems (items : List Item) :
    items.length ≤ (encodeItems items).length := by
  induction items with
  | nil => exact Nat.zero_le _
  | cons x rest ih =>
      have hitem := x.encode_length_pos
      simp only [encodeItems, List.length_cons, List.length_append]
      omega

theorem length_le_encode_map (entries : List Entry) :
    entries.length ≤ (Item.map entries).encode.length := by
  have hle := length_le_encodeEntries entries
  rw [Item.encode, List.length_append]
  omega

theorem scannableEntries_append {xs ys : List Entry} :
    ScannableEntries (xs ++ ys) ↔ ScannableEntries xs ∧ ScannableEntries ys := by
  induction xs with
  | nil => simp [ScannableEntries]
  | cons e xs ih => simp [ScannableEntries, ih, and_assoc]

theorem encode_length_le_map {before after : List Entry} {k v : Item} :
    v.encode.length ≤ (Item.map (before ++ (k, v) :: after)).encode.length := by
  simp only [Item.encode, encodeEntries_append, encodeEntries, List.length_append]
  omega

/-- The map has the value under the number, in the first entry with that number and
behind entries which the scanner gets across. -/
def HasEntry (entries : List Entry) (key : ℕ) (v : Item) : Prop :=
  ∃ before after, entries = before ++ (.uint key, v) :: after ∧
    ScannableEntries before ∧ ∀ e ∈ before, e.1 ≠ .uint key

namespace Command.Carries

variable {c : Command} {cmd : UInt8} {entries after : List Entry} {k v : Item}
  {key : ℕ}

theorem reqLen_ne_zero (h : c.Carries cmd entries) : c.reqLen ≠ 0 := by
  rw [h.length]
  exact Nat.succ_ne_zero _

theorem cmd_eq (h : c.Carries cmd entries) : c.req 0 = cmd :=
  (Mem.holds_cons.1 h.holds).1

theorem map_holds (h : c.Carries cmd entries) : c.req.Holds 1 (Item.map entries).encode :=
  (Mem.holds_cons.1 h.holds).2

theorem map_fits (h : c.Carries cmd entries) :
    (Item.map entries).encode.length ≤ c.reqLen - 1 := by
  rw [h.length]
  exact le_rfl

theorem len_lt (h : c.Carries cmd entries) : c.reqLen - 1 < 65536 := by
  have hfits := h.fits
  omega

theorem count_lt (h : c.Carries cmd entries) : entries.length < 65536 :=
  lt_of_le_of_lt ((length_le_encode_map entries).trans h.map_fits) h.len_lt

theorem value_length_lt (before : List Entry)
    (h : c.Carries cmd (before ++ (k, v) :: after)) :
    v.encode.length < 65536 :=
  lt_of_le_of_lt (encode_length_le_map.trans h.map_fits) h.len_lt

theorem entry (before : List Entry)
    (h : c.Carries cmd (before ++ (.uint key, v) :: after)) (hpos : 0 < key)
    (hkey : key < 256) (hbefore : ScannableEntries before)
    (hother : ∀ e ∈ before, e.1 ≠ .uint key) :
    UintEntry c.req 1 (c.reqLen - 1) key before v after where
  pos := hpos
  short := hkey
  count := h.count_lt
  scannable := hbefore
  other := hother
  holds := h.map_holds
  fits := h.map_fits
  len_lt := h.len_lt

theorem missing {α : Type} {found : ℕ → ℕ → Rd α} {notMap missing : α}
    (h : c.Carries cmd entries) (hpos : 0 < key) (hkey : key < 256)
    (hentries : ScannableEntries entries) (hother : ∀ e ∈ entries, e.1 ≠ .uint key) :
    (walkMap (isUintKey key) found notMap missing 1 (c.reqLen - 1)).run c.req =
      some missing :=
  walkMap_uintMissing hpos hkey h.count_lt hentries hother h.map_holds h.map_fits h.len_lt

theorem uintEntry (h : c.Carries cmd entries) (hv : HasEntry entries key v)
    (hpos : 0 < key) (hkey : key < 256) :
    v.encode.length < 65536 ∧ ∃ before after,
      UintEntry c.req 1 (c.reqLen - 1) key before v after := by
  obtain ⟨before, after, rfl, hbefore, hother⟩ := hv
  exact ⟨h.value_length_lt before, before, after, h.entry before hpos hkey hbefore hother⟩

theorem value {major n : ℕ} {payload : List UInt8} (h : c.Carries cmd entries)
    (hv : HasEntry entries key v) (hpos : 0 < key) (hkey : key < 256) (hmajor : major < 8)
    (hn : n < 65536) (hencode : v.encode = head major n ++ payload) :
    ∃ p, c.req.Holds p payload ∧ (getCborMapValue 1 (c.reqLen - 1) key).run c.req =
      some (some ⟨p, n, UInt8.ofNat (32 * major)⟩) := by
  obtain ⟨-, before, after, hentry⟩ := h.uintEntry hv hpos hkey
  exact hentry.value hmajor hn hencode

theorem item (h : c.Carries cmd entries) (hv : HasEntry entries key v) (hpos : 0 < key)
    (hkey : key < 256) (hscan : Scannable v) :
    v.encode.length < 65536 ∧ ∃ p, c.req.Holds p v.encode ∧
      (getCborMapItem 1 (c.reqLen - 1) key).run c.req = some (.item p v.encode.length) := by
  obtain ⟨hlen, before, after, hentry⟩ := h.uintEntry hv hpos hkey
  exact ⟨hlen, hentry.item hscan⟩

end Command.Carries

/-- The entity has the id, as the first entry under the text `id`. -/
structure HasId (entity : List Entry) (id : Item) : Prop where
  scannable : ScannableEntries entity
  entry : ∃ before after, entity = before ++ (.text (ascii "id"), id) :: after ∧
    ∀ e ∈ before, TextKey e.1 ∧ e.1 ≠ .text (ascii "id")

section

variable {m : Mem} {p : ℕ} {entity : List Entry} {id : Item} {major n : ℕ}
  {payload : List UInt8}

theorem HasId.string (h : HasId entity id) (hmajor : major = 2 ∨ major = 3)
    (hid : id.encode = head major n ++ payload) (hn : n < 65536)
    (hm : m.Holds p (Item.map entity).encode)
    (hlen : (Item.map entity).encode.length < 65536) :
    ∃ q, m.Holds q payload ∧
      (cborMapGetString p (Item.map entity).encode.length (ascii "id")).run m =
        some (some (q, u8 n)) := by
  obtain ⟨before, after, rfl, hkeys⟩ := h.entry
  have hentry : TextEntry m p
      (Item.map (before ++ (.text (ascii "id"), id) :: after)).encode.length (ascii "id")
      before id after :=
    { short := by decide
      count := lt_of_le_of_lt (length_le_encode_map _) hlen
      scannable := (scannableEntries_append.1 h.scannable).1
      other := hkeys
      holds := hm
      fits := le_rfl
      len_lt := hlen }
  exact hentry.string hmajor hn hid

end

end UnsoloKey
