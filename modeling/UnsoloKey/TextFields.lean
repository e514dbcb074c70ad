import UnsoloKey.Answers
import UnsoloKey.CredentialListing
import UnsoloKey.Reregistration
import UnsoloKey.Utf8
import Mathlib.Tactic

/-!
# The texts in the responses

The texts which the responses show of a credential are those of its registration, cut
to the bytes which the reader and the store keep.  Characters are not looked at, so a
text of several bytes a character may be cut inside one of them.
-/

namespace UnsoloKey

open Rd Cbor Trace

/-! ## Texts -/

mutual

/-- The text strings in an item, keys included. -/
def Cbor.Item.texts : Item → List (List UInt8)
  | .text bs => [bs]
  | .array items => textsItems items
  | .map entries => textsEntries entries
  | _ => []

def Cbor.textsItems : List Item → List (List UInt8)
  | [] => []
  | x :: rest => x.texts ++ textsItems rest

def Cbor.textsEntries : List (Item × Item) → List (List UInt8)
  | [] => []
  | (k, v) :: rest => k.texts ++ v.texts ++ textsEntries rest

end

/-- The text strings which the host decodes from a successful response. -/
def responseTexts (resp : List UInt8) : List (List UInt8) :=
  match resp with
  | 0x00 :: body =>
      match decode body with
      | some x => x.texts
      | none => []
  | _ => []

/-- The texts of the protocol in these responses. -/
def labels : List (List UInt8) :=
  [ascii "id", ascii "name", ascii "type", ascii "public-key"]

/-- The number of bytes which the store keeps of a text. -/
def keptLength (text : List UInt8) : ℕ := min text.length 32

/-- A text as the responses show it; the placeholder stands for an empty one. -/
def shownText (placeholder text : List UInt8) : List UInt8 :=
  if text.take (keptLength text) = [] then placeholder else text.take (keptLength text)

/-- The text of the registration for which the placeholder would stand.  The
displayName is only for accounts without a name. -/
inductive Command.RegistersText (c : Command) : List UInt8 → List UInt8 → Prop
  | rpId (text : List UInt8) (h : c.EntityHas 2 (ascii "id") text) :
      c.RegistersText (ascii "Passkey RP") text
  | name (text : List UInt8) (h : c.EntityHas 3 (ascii "name") text) :
      c.RegistersText (ascii "Passkey Account") text
  | displayName (text : List UInt8) (hname : c.EntityHas 3 (ascii "name") [])
      (h : c.EntityHas 3 (ascii "displayName") text) :
      c.RegistersText (ascii "Passkey Account") text

/-- A canonical registration with such texts. -/
def Command.TextsAre (c : Command) (p : List UInt8 → Prop) : Prop :=
  ∃ rpId name displayName, c.EntityHas 2 (ascii "id") rpId ∧ p rpId ∧
    c.EntityHas 3 (ascii "name") name ∧ p name ∧
    c.EntityHas 3 (ascii "displayName") displayName ∧ p displayName

/-- A valid text which is read in full. -/
def ReadText (text : List UInt8) : Prop := ValidUtf8 text ∧ text.length ≤ 255

/-- The credential in slot `i` is the one which the command has registered. -/
structure Command.Made (c : Command) (m : Mem) (i : Slot) : Prop where
  len : c.reqLen ≠ 0
  cmd : c.req 0 = 0x01
  key : ∃ r, (registrationOf c.env c.reqLen).run c.req = some r ∧ m.slotKey i = r.key c.env

/-- A text of a response: a valid text of the protocol, or what is shown of a text of
the registration of a stored credential.  That is valid exactly when no character has
been cut in two, as a short text never is. -/
def ShowsText (past : List Command) (m : Mem) (t : List UInt8) : Prop :=
  t ∈ labels ∧ ValidUtf8 t ∨
    ∃ i, ∃ c ∈ past, ∃ placeholder text, c.Made m i ∧ c.RegistersText placeholder text ∧
      t = shownText placeholder text ∧ (ValidUtf8 t ↔ CharBoundary text (keptLength text)) ∧
      (text.length ≤ 32 → ValidUtf8 t)

section

variable {text placeholder : List UInt8}

theorem keptLength_le (text : List UInt8) : keptLength text ≤ text.length :=
  Nat.min_le_left _ _

/-- The reader keeps a length in eight bits, which takes nothing from these texts. -/
theorem byteCut_take (hfits : text.length ≤ 255) :
    (byteCut text).take 32 = text.take (keptLength text) := by
  rw [byteCut_of_le hfits, keptLength, Nat.min_comm, ← List.take_eq_take_min]

theorem validUtf8_shownText_iff (htext : ValidUtf8 text) (hplaceholder : ValidUtf8 placeholder) :
    ValidUtf8 (shownText placeholder text) ↔ CharBoundary text (keptLength text) := by
  rw [← validUtf8_take_iff htext (keptLength_le text), shownText]
  split_ifs with hempty
  · rw [hempty]
    exact iff_of_true hplaceholder ByteArray.isValidUTF8_empty
  · rfl

/-- A short text is shown in full. -/
theorem validUtf8_shownText_of_short (htext : ValidUtf8 text)
    (hplaceholder : ValidUtf8 placeholder) (hshort : text.length ≤ 32) :
    ValidUtf8 (shownText placeholder text) := by
  refine (validUtf8_shownText_iff htext hplaceholder).2 (charBoundary_of_length_le ?_)
  rw [keptLength, Nat.min_eq_left hshort]

end

/-! ## The texts of a registration -/

section

variable {c : Command} {m : Mem} {i : Slot} {rpId name displayName : List UInt8}
  {r : Registration} {env : Env}

theorem registrationOf_rpId (hc : c.EntityHas 2 (ascii "id") rpId) :
    (registrationOf c.env c.reqLen).Returns c.req fun r => r.rpId = byteCut rpId := by
  obtain ⟨item, found, hitem, hfound, hreads⟩ :=
    hc.reads c.env (by decide) (by omega) (by omega)
  unfold registrationOf
  refine Returns.bind_run fun rpItem hrpItem => Returns.bind_run fun rpId hrpId =>
    Returns.bind fun hash => Returns.bind fun userItem => Returns.bind fun user =>
    Returns.bind_run fun readRpId hread => Returns.bind fun readUserId =>
    Returns.bind fun readName => Returns.pure ?_
  rw [hitem, Option.some.injEq] at hrpItem
  subst hrpItem
  obtain rfl : found = rpId := Option.some.inj (hfound.symm.trans hrpId)
  rw [hreads.readString, Option.some.injEq] at hread
  exact hread.symm

theorem userStrings_name {item : Option (ℕ × ℕ)} :
    (userStrings item).Returns m fun user => ∃ s,
      (entityString (ascii "name") item).run m = some s ∧
        match s with
        | some found => user.2 = some found
        | none => (entityString (ascii "displayName") item).run m = some user.2 := by
  cases item with
  | none => exact Returns.pure ⟨none, rfl, rfl⟩
  | some found =>
      rcases found with ⟨ptr, len⟩
      unfold userStrings
      refine Returns.bind fun userId => Returns.bind_run fun name hname => ?_
      cases name with
      | some name => exact Returns.pure ⟨some name, hname, rfl⟩
      | none =>
          exact Returns.bind_run fun displayName hdisplay =>
            Returns.pure ⟨none, hname, hdisplay⟩

/-- The displayName is read only where no name is found. -/
theorem registrationOf_userName (hname : c.EntityHas 3 (ascii "name") name)
    (hdisplay : c.EntityHas 3 (ascii "displayName") displayName) :
    (registrationOf c.env c.reqLen).Returns c.req fun r =>
      r.userName = byteCut name ∨ name = [] ∧ r.userName = byteCut displayName := by
  obtain ⟨item, found, hitem, hfound, hreads⟩ :=
    hname.reads c.env (by decide) (by omega) (by omega)
  obtain ⟨item', found', hitem', hfound', hreads'⟩ :=
    hdisplay.reads c.env (by decide) (by omega) (by omega)
  obtain rfl : item = item' := Option.some.inj (hitem.symm.trans hitem')
  unfold registrationOf
  refine Returns.bind fun rpItem => Returns.bind fun rpId => Returns.bind fun hash =>
    Returns.bind_run fun userItem huserItem =>
    Returns.bind_of userStrings_name fun user huser => Returns.bind fun readRpId =>
    Returns.bind fun readUserId => Returns.bind_run fun readName hread => Returns.pure ?_
  obtain rfl : item = userItem := Option.some.inj (hitem.symm.trans huserItem)
  obtain ⟨s, hs, huser⟩ := huser
  obtain rfl : found = s := Option.some.inj (hfound.symm.trans hs)
  cases hreads with
  | found p bs hm =>
      have hreads : ReadsString c.req user.2 name := huser ▸ .found p name hm
      rw [hreads.readString, Option.some.injEq] at hread
      exact .inl hread.symm
  | missing =>
      obtain rfl : found' = user.2 := Option.some.inj (hfound'.symm.trans huser)
      rw [hreads'.readString, Option.some.injEq] at hread
      exact .inr ⟨rfl, hread.symm⟩

/-- What a string field of a slot holds, with the length beside it. -/
theorem storedText {p : ℕ} {s : List UInt8} (hs : s.length ≤ 32)
    (hfield : m.array p 32 = Bytes.fill 0xFF 32 s) (placeholder : List UInt8) :
    (if UInt8.ofNat s.length > 0 then m.slice p (UInt8.ofNat s.length).toNat
      else placeholder) = if s = [] then placeholder else s := by
  have hlen : (UInt8.ofNat s.length).toNat = s.length := by
    rw [UInt8.toNat_ofNat']
    omega
  have hpos : UInt8.ofNat s.length > 0 ↔ s ≠ [] := by
    rw [gt_iff_lt, UInt8.lt_iff_toNat_lt, hlen]
    exact List.length_pos_iff
  by_cases hempty : s = []
  · rw [if_pos hempty, if_neg (fun h => hpos.1 h hempty)]
  · have harray : (m.array p 32).val = m.slice p 32 := rfl
    rw [if_neg hempty, if_pos (hpos.2 hempty), hlen, ← Mem.slice_take m p 32 _ hs, ← harray,
      hfield]
    exact Bytes.fill_take hs

theorem listedName_of_key (hkey : m.slotKey i = r.key env) :
    listedName m i = if r.userName.take 32 = [] then ascii "Passkey Account"
      else r.userName.take 32 := by
  have hlen : (m.slotKey i).userNameLen = UInt8.ofNat (r.userName.take 32).length := by
    rw [hkey]
    rfl
  have hfield : m.array (slotAddr i + 166) 32 = Bytes.fill 0xFF 32 (r.userName.take 32) :=
    congrArg ResidentKey.userName hkey
  rw [listedName, hlen]
  exact storedText (List.length_take_le _ _) hfield _

theorem rpDisplay_of_key {rpIdHash : Bytes 32}
    (hfirst : passkeyGetByRpIndex m rpIdHash 0 = some i) (hkey : m.slotKey i = r.key env) :
    rpDisplay m rpIdHash = if r.rpId.take 32 = [] then ascii "Passkey RP"
      else r.rpId.take 32 := by
  have hlen : (m.slotKey i).rpIdLen = UInt8.ofNat (r.rpId.take 32).length := by
    rw [hkey]
    rfl
  have hfield : m.array (slotAddr i + 199) 32 = Bytes.fill 0xFF 32 (r.rpId.take 32) :=
    congrArg ResidentKey.rpId hkey
  rw [rpDisplay, hfirst]
  dsimp only
  rw [hlen]
  exact storedText (List.length_take_le _ _) hfield _

/-- The name which is shown for a registered credential. -/
theorem Command.Made.listedName (h : c.Made m i) (hvalid : c.TextsAre ReadText) :
    ∃ placeholder text, c.RegistersText placeholder text ∧
      UnsoloKey.listedName m i = shownText placeholder text ∧
      (ValidUtf8 (UnsoloKey.listedName m i) ↔ CharBoundary text (keptLength text)) ∧
      (text.length ≤ 32 → ValidUtf8 (UnsoloKey.listedName m i)) := by
  obtain ⟨r, hread, hkey⟩ := h.key
  obtain ⟨rpId, name, displayName, -, -, hname, ⟨hnameValid, hnameFits⟩, hdisplay,
    hdisplayValid, hdisplayFits⟩ := hvalid
  have hplaceholder : ValidUtf8 (ascii "Passkey Account") := by decide
  rw [listedName_of_key hkey]
  rcases registrationOf_userName hname hdisplay r hread with hr | ⟨rfl, hr⟩
  · rw [hr, byteCut_take hnameFits]
    exact ⟨_, name, .name name hname, rfl, validUtf8_shownText_iff hnameValid hplaceholder,
      validUtf8_shownText_of_short hnameValid hplaceholder⟩
  · rw [hr, byteCut_take hdisplayFits]
    exact ⟨_, displayName, .displayName displayName hname hdisplay, rfl,
      validUtf8_shownText_iff hdisplayValid hplaceholder,
      validUtf8_shownText_of_short hdisplayValid hplaceholder⟩

theorem Command.Made.rpDisplay (h : c.Made m i) (hvalid : c.TextsAre ReadText)
    {rpIdHash : Bytes 32}
    (hfirst : passkeyGetByRpIndex m rpIdHash 0 = some i) :
    ∃ placeholder text, c.RegistersText placeholder text ∧
      UnsoloKey.rpDisplay m rpIdHash = shownText placeholder text ∧
      (ValidUtf8 (UnsoloKey.rpDisplay m rpIdHash) ↔ CharBoundary text (keptLength text)) ∧
      (text.length ≤ 32 → ValidUtf8 (UnsoloKey.rpDisplay m rpIdHash)) := by
  obtain ⟨r, hread, hkey⟩ := h.key
  obtain ⟨rpId, name, displayName, hrpId, ⟨hrpIdValid, hrpIdFits⟩, -⟩ := hvalid
  have hplaceholder : ValidUtf8 (ascii "Passkey RP") := by decide
  rw [rpDisplay_of_key hfirst hkey, registrationOf_rpId hrpId r hread, byteCut_take hrpIdFits]
  exact ⟨_, rpId, .rpId rpId hrpId, rfl, validUtf8_shownText_iff hrpIdValid hplaceholder,
    validUtf8_shownText_of_short hrpIdValid hplaceholder⟩

end

/-! ## Where the credentials come from -/

/-- Every stored credential has been registered by a command of the past. -/
def StoreFrom (past : List Command) (m : Mem) : Prop :=
  ∀ i, (m.slotKey i).isOccupied → ∃ c ∈ past, c.Made m i

section

variable {past : List Command} {d d' : Device} {c : Command} {o : Outcome} {m m' mem : Mem}
  {i : Slot}

theorem Command.Made.congr (h : c.Made m i) (hsame : m'.slotKey i = m.slotKey i) :
    c.Made m' i := by
  obtain ⟨r, hread, hkey⟩ := h.key
  exact ⟨h.len, h.cmd, r, hread, hsame.trans hkey⟩

theorem StoreFrom.keeps (h : StoreFrom past m) (hoccupied : (m'.slotKey i).isOccupied)
    (hsame : m'.slotKey i = m.slotKey i) : ∃ a ∈ past ++ [c], a.Made m' i := by
  rw [hsame] at hoccupied
  obtain ⟨a, ha, hmade⟩ := h i hoccupied
  exact ⟨a, List.mem_append_left _ ha, hmade.congr hsame⟩

theorem not_occupied_of_erased (h : m.slotBytes i = erasedPage) :
    ¬ (m.slotKey i).isOccupied := by
  rw [isOccupied_iff, slotKey_magic_of_erased h]
  exact passkeyMagic_ne_emptyMagic.symm

theorem StoreFrom.step (h : StoreFrom past d.flash.mem) (hstep : d.step c = some d') :
    StoreFrom (past ++ [c]) d'.flash.mem := by
  obtain ⟨o, ho, rfl⟩ := step_iff.1 hstep
  intro i hi
  cases credentialSlots_change ho with
  | kept hkept _ => exact h.keeps hi (slotKey_of_slotBytes (hkept i))
  | registered r k hcmd hread _ hwritten hothers hok =>
      by_cases hk : i = k
      · subst hk
        have hlen : c.reqLen ≠ 0 := by
          intro hzero
          unfold Device.outcome fido2ProcessCbor at ho
          rw [if_pos hzero, run_pure, Option.some.injEq] at ho
          subst ho
          exact absurd (Option.some.inj hok) (by decide)
        exact ⟨c, by simp, hlen, hcmd, r, hread,
          slotKey_of_written (show passkeyMagic < 2 ^ 32 by decide) hwritten⟩
      · exact h.keeps hi (slotKey_of_onlySlot hothers hk)
  | deleted id p n k _ _ _ _ _ _ herased hothers _ =>
      by_cases hk : i = k
      · subst hk
        exact absurd hi (not_occupied_of_erased herased)
      · exact h.keeps hi (slotKey_of_onlySlot hothers hk)
  | reset _ herased _ _ => exact absurd hi (not_occupied_of_erased (herased i))

theorem storeFrom_run (hempty : ∀ i, ¬ (mem.slotKey i).isOccupied)
    (hrun : Run Device.step (Device.powerUp mem) past d) : StoreFrom past d.flash.mem := by
  induction hrun with
  | nil => exact fun i hi => absurd hi (hempty i)
  | snoc hrun hstep ih => exact ih.step hstep

end

/-! ## The responses -/

/-- Every text of the response is of the protocol or is shown of a stored credential. -/
def TextsOf (m : Mem) (resp : List UInt8) : Prop :=
  ∀ t ∈ responseTexts resp, t ∈ labels ∨
    (∃ i, (m.slotKey i).isOccupied ∧ t = listedName m i) ∨
    ∃ i rpIdHash, (m.slotKey i).isOccupied ∧ passkeyGetByRpIndex m rpIdHash 0 = some i ∧
      t = rpDisplay m rpIdHash

section

variable {env : Env} {d : Device} {reqLen : ℕ} {m : Mem} {i : Slot} {x : Item}

theorem responseTexts_status (status : UInt8) : responseTexts [status] = [] := by
  by_cases hzero : status = 0x00
  · subst hzero
    rfl
  · unfold responseTexts
    split
    · rename_i body hbody
      exact absurd (List.head_eq_of_cons_eq hbody) hzero
    · rfl

theorem responseTexts_item (hx : x.Valid) : responseTexts (0x00 :: x.encode) = x.texts := by
  rw [responseTexts, decode_encode x hx]

theorem textsOf_status (m : Mem) (status : UInt8) : TextsOf m [status] := by
  intro t ht
  rw [responseTexts_status] at ht
  simp at ht

theorem textsEntries_append (xs ys : List Entry) :
    textsEntries (xs ++ ys) = textsEntries xs ++ textsEntries ys := by
  induction xs with
  | nil => rfl
  | cons e xs ih => simp [textsEntries, ih]

theorem textsEntries_begin {begins : Prop} [Decidable begins] (total : ℕ) :
    textsEntries (beginEntries begins total) = [] := by
  unfold beginEntries
  split_ifs <;> rfl

theorem textsEntries_total (total : ℕ) : textsEntries (gaTotalEntries total) = [] := by
  unfold gaTotalEntries
  split_ifs <;> rfl

/-- The account of an assertion names itself only where the list would name it so. -/
theorem textsEntries_user {t : List UInt8} (ht : t ∈ textsEntries (gaUserEntries m i)) :
    t ∈ labels ∨ t = listedName m i := by
  unfold gaUserEntries at ht
  dsimp only at ht
  split_ifs at ht with hid hname
  · rw [listedName, if_pos hname]
    have hmem : t ∈ [ascii "id", ascii "name",
        m.slice (slotAddr i + 166) (m.slotKey i).userNameLen.toNat] := ht
    simp only [List.mem_cons, List.not_mem_nil, or_false] at hmem
    rcases hmem with rfl | rfl | rfl
    · exact .inl (.head _)
    · exact .inl (.tail _ (.head _))
    · exact .inr rfl
  · have hmem : t ∈ [ascii "id"] := ht
    obtain rfl := List.mem_singleton.1 hmem
    exact .inl (.head _)
  · exact absurd ht List.not_mem_nil

theorem gaItem_texts {authData der : List UInt8} {total : ℕ} {t : List UInt8}
    (ht : t ∈ (gaItem m i authData der total).texts) : t ∈ labels ∨ t = listedName m i := by
  have htexts : (gaItem m i authData der total).texts =
      [ascii "id", ascii "type", ascii "public-key"] ++ textsEntries (gaUserEntries m i) := by
    rw [gaItem, Item.texts, gaEntries, textsEntries_append, textsEntries_append,
      textsEntries_total, List.append_nil]
    rfl
  rw [htexts, List.mem_append] at ht
  rcases ht with ht | ht
  · simp only [List.mem_cons, List.not_mem_nil, or_false] at ht
    rcases ht with rfl | rfl | rfl <;> simp [labels]
  · exact textsEntries_user ht

theorem rpItem_texts {display : List UInt8} {rpHash : Bytes 32} {begins : Prop}
    [Decidable begins] {total : ℕ} {t : List UInt8}
    (ht : t ∈ (rpItem display rpHash begins total).texts) : t ∈ labels ∨ t = display := by
  have htexts : (rpItem display rpHash begins total).texts =
      [ascii "id", display, ascii "name", display] := by
    rw [rpItem, Item.texts, textsEntries_append, textsEntries_begin, List.append_nil]
    rfl
  rw [htexts] at ht
  simp only [List.mem_cons, List.not_mem_nil, or_false] at ht
  rcases ht with rfl | rfl | rfl | rfl <;> simp [labels]

theorem credentialItem_texts {begins : Prop} [Decidable begins] {total : ℕ} {t : List UInt8}
    (ht : t ∈ (credentialItem m i begins total).texts) : t ∈ labels ∨ t = listedName m i := by
  have htexts : (credentialItem m i begins total).texts =
      [ascii "id", ascii "name", listedName m i, ascii "id", ascii "type",
        ascii "public-key"] := by
    rw [credentialItem, Item.texts, textsEntries_append, textsEntries_begin, List.append_nil]
    rfl
  rw [htexts] at ht
  simp only [List.mem_cons, List.not_mem_nil, or_false] at ht
  rcases ht with rfl | rfl | rfl | rfl | rfl | rfl <;> simp [labels]

theorem metadataItem_texts : (metadataItem m).texts = [] := by
  simp [metadataItem, Item.texts, textsEntries]

theorem gaBuildResponse_textsOf {rpIdHash : Bytes 32} {flags : UInt8} {cdh : Bytes 32}
    {total : ℕ} (hi : (m.slotKey i).isOccupied) (htotal : total < 2 ^ 32) :
    TextsOf m (gaBuildResponse env m i (authDataHeader rpIdHash flags) cdh total) := by
  intro t ht
  have hauth := authDataHeader_length rpIdHash flags
  have hder : ∀ sig, (ecdsaSigToDer sig).length < 2 ^ 32 := fun sig =>
    (ecdsaSigToDer_length_le sig).trans_lt (by decide)
  rw [gaBuildResponse_eq hauth, responseTexts_item (gaItem_valid (by omega) (hder _) htotal)]
    at ht
  rcases gaItem_texts ht with hlabel | hname
  · exact .inl hlabel
  · exact .inr (.inl ⟨i, hi, hname⟩)

theorem getAssertion_textsOf : (getAssertion env d reqLen).Returns m
    fun o => TextsOf d.flash.mem o.resp := by
  intro o ho
  cases getAssertion_effect o ho with
  | refused status _ hresp _ => exact hresp ▸ textsOf_status _ status
  | asserted ctap plan cdhBuf _ hselect _ _ hresp _ _ =>
      rw [hresp]
      exact gaBuildResponse_textsOf (isOfRp_iff.1 hselect.isOfRp).1 hselect.total_lt

theorem getNextAssertion_textsOf (hcount : d.ctap.gGaCount < 2 ^ 32) :
    TextsOf d.flash.mem (getNextAssertion env d).resp := by
  have heffect : GetNextAssertionEffect env d (getNextAssertion env d) :=
    getNextAssertion_effect
  cases heffect with
  | refused status _ hresp _ => exact hresp ▸ textsOf_status _ status
  | asserted i _ hslot _ hresp _ _ =>
      rw [hresp]
      exact gaBuildResponse_textsOf (isOfRp_iff.1 (isOfRp_of_getByRpIndex hslot)).1 hcount

theorem enumerateRps_textsOf (d : Device) (subCmd : ℕ) :
    TextsOf d.flash.mem (enumerateRps d subCmd).resp := by
  have htotal : passkeyCountUniqueRps d.flash.mem < 2 ^ 32 :=
    List.countP_le_length.trans_lt (by decide)
  unfold enumerateRps
  generalize (if subCmd = 0x02 then 0 else (d.ctap.gEnumRpIdx + 1) % 2 ^ 32) = idx
  dsimp only
  split
  · exact textsOf_status _ _
  · rename_i hmore
    rw [passkeyCountUniqueRps_eq] at hmore
    have hidx : idx < (firstSlots d.flash.mem).length := by omega
    have hfirst := List.mem_filter.1 (List.getElem_mem hidx)
    generalize hi : (firstSlots d.flash.mem)[idx] = i at hfirst
    have hhash : passkeyGetUniqueRpHash d.flash.mem idx =
        some (d.flash.mem.slotKey i).rpIdHash := by
      rw [← hi]
      exact congrArg (Option.map _) (List.getElem?_eq_getElem hidx)
    have hoccupied : (d.flash.mem.slotKey i).isOccupied := by
      have hof := hfirst.2
      rw [isFirstOfRp, decide_eq_true_eq] at hof
      exact hof.1
    have hmem : i ∈ slotsOfRp d.flash.mem (d.flash.mem.slotKey i).rpIdHash :=
      List.mem_filter.2 ⟨mem_slots i, isOfRp_iff.2 ⟨hoccupied, rfl⟩⟩
    rw [hhash, Option.getD_some]
    generalize (d.flash.mem.slotKey i).rpIdHash = rpHash at hmem
    change TextsOf _ (rpResponse (rpDisplay d.flash.mem rpHash) rpHash (subCmd = 0x02)
      (passkeyCountUniqueRps d.flash.mem))
    intro t ht
    rw [rpResponse_eq rpDisplay_length, responseTexts_item (rpItem_valid rpDisplay_length htotal)]
      at ht
    rcases rpItem_texts ht with hlabel | hdisplay
    · exact .inl hlabel
    · have hpos := List.length_pos_of_mem hmem
      have hget : passkeyGetByRpIndex d.flash.mem rpHash 0 =
          some (slotsOfRp d.flash.mem rpHash)[0] := List.getElem?_eq_getElem hpos
      exact .inr (.inr ⟨_, rpHash, (isOfRp_iff.1 (isOfRp_of_getByRpIndex hget)).1, hget,
        hdisplay⟩)

theorem listCredential_textsOf (d : Device) (subCmd : ℕ) :
    TextsOf d.flash.mem (listCredential d subCmd).resp := by
  have htotal : passkeyCountForRp d.flash.mem d.ctap.gEnumRpHash < 2 ^ 32 :=
    List.countP_le_length.trans_lt (by decide)
  unfold listCredential
  dsimp only
  split
  · exact textsOf_status _ _
  · rename_i i hi
    split_ifs
    · exact textsOf_status _ _
    · change TextsOf _ (credentialResponse _ _ _ _)
      intro t ht
      rw [credentialResponse_eq, responseTexts_item (credentialItem_valid htotal)] at ht
      rcases credentialItem_texts ht with hlabel | hname
      · exact .inl hlabel
      · exact .inr (.inl ⟨i, (isOfRp_iff.1 (isOfRp_of_getByRpIndex hi)).1, hname⟩)

theorem enumerateCredentials_textsOf {subCmd : ℕ} :
    (enumerateCredentials env d reqLen subCmd).Returns m
      fun o => TextsOf d.flash.mem o.resp := by
  have hlisted : ∀ ctap : CtapSession,
      TextsOf d.flash.mem (listCredential { d with ctap := ctap } subCmd).resp :=
    fun ctap => listCredential_textsOf { d with ctap := ctap } subCmd
  unfold enumerateCredentials
  exact Returns.ite (fun _ => Returns.bind fun param => Returns.pure (hlisted _))
    fun _ => Returns.pure (hlisted _)

theorem deleteCredential_textsOf : (deleteCredential env d reqLen).Returns m
    fun o => TextsOf d.flash.mem o.resp := by
  unfold deleteCredential
  refine Returns.bind fun target => ?_
  cases target with
  | none => exact Returns.pure (textsOf_status _ _)
  | some t =>
      exact Returns.ite (fun _ => Returns.pure (textsOf_status _ _)) fun _ =>
        Returns.bind fun _ => Returns.pure (textsOf_status _ _)

theorem cmDispatch_textsOf {subCmd : ℕ} : (cmDispatch env d reqLen subCmd).Returns m
    fun o => TextsOf d.flash.mem o.resp := by
  unfold cmDispatch
  refine Returns.bind fun _ => Returns.ite (fun _ => Returns.pure ?_) fun _ =>
    Returns.ite (fun _ => Returns.pure (enumerateRps_textsOf d subCmd)) fun _ =>
    Returns.ite (fun _ => enumerateCredentials_textsOf) fun _ =>
    Returns.ite (fun _ => deleteCredential_textsOf) fun _ => Returns.pure (textsOf_status _ _)
  change TextsOf d.flash.mem (getCredsMetadata d)
  intro t ht
  rw [getCredsMetadata_eq, responseTexts_item metadataItem_valid, metadataItem_texts] at ht
  simp at ht

theorem credentialManagement_textsOf : (credentialManagement env d reqLen).Returns m
    fun o => TextsOf d.flash.mem o.resp := by
  unfold credentialManagement
  refine Returns.bind fun subCmd => Returns.ite (fun _ => Returns.bind fun authorized => ?_)
    fun _ => cmDispatch_textsOf
  exact Returns.ite (fun _ => Returns.pure (textsOf_status _ _)) fun _ =>
    Returns.bind_of cmDispatch_textsOf fun o ho => Returns.pure ho

end

/-! ## Runs -/

/-- The commands whose responses tell of stored credentials. -/
def Command.ShowsCredentials (c : Command) : Prop :=
  c.reqLen ≠ 0 ∧ (c.req 0 = 0x02 ∨ c.req 0 = 0x08 ∨ c.req 0 = 0x0A)

section

variable {mem : Mem} {past : List Command} {d : Device} {c : Command} {o : Outcome}

theorem outcome_textsOf (hcount : d.ctap.gGaCount < 2 ^ 32) (hc : c.ShowsCredentials)
    (ho : d.outcome c = some o) : TextsOf d.flash.mem o.resp := by
  obtain ⟨hlen, hcmd⟩ := hc
  rw [outcome_eq hlen] at ho
  rcases hcmd with hcmd | hcmd | hcmd
  · rw [hcmd] at ho
    exact getAssertion_textsOf (d := d.onChannel c.cid) o ho
  · rw [hcmd] at ho
    obtain rfl : getNextAssertion c.env (d.onChannel c.cid) = o := Option.some.inj ho
    exact getNextAssertion_textsOf (d := d.onChannel c.cid) hcount
  · rw [hcmd] at ho
    exact credentialManagement_textsOf (d := d.onChannel c.cid) o ho

theorem TextsOf.shows {resp t : List UInt8} (h : TextsOf d.flash.mem resp)
    (hfrom : StoreFrom past d.flash.mem)
    (hvalid : ∀ a ∈ past, a.reqLen ≠ 0 → a.req 0 = 0x01 → a.TextsAre ReadText)
    (ht : t ∈ responseTexts resp) : ShowsText past d.flash.mem t := by
  rcases h t ht with hlabel | ⟨i, hi, rfl⟩ | ⟨i, rpIdHash, hi, hfirst, rfl⟩
  · have hall : ∀ t ∈ labels, ValidUtf8 t := by decide
    exact .inl ⟨hlabel, hall t hlabel⟩
  · obtain ⟨a, ha, hmade⟩ := hfrom i hi
    obtain ⟨placeholder, text, hshown⟩ := hmade.listedName
      (hvalid a ha hmade.len hmade.cmd)
    exact .inr ⟨i, a, ha, placeholder, text, hmade, hshown⟩
  · obtain ⟨a, ha, hmade⟩ := hfrom i hi
    obtain ⟨placeholder, text, hshown⟩ :=
      hmade.rpDisplay (hvalid a ha hmade.len hmade.cmd) hfirst
    exact .inr ⟨i, a, ha, placeholder, text, hmade, hshown⟩

end

/-- In a run from an empty store in which every registered text is valid and has at most
255 bytes, the texts of the responses are those of the protocol and the registered ones, cut
after the bytes which are kept.  They are valid where no character is cut in two. -/
theorem texts_shown (mem : Mem) (past : List Command) (d : Device) (c : Command) (o : Outcome)
    (hempty : ∀ i, ¬ (mem.slotKey i).isOccupied)
    (hrun : Run Device.step (Device.powerUp mem) past d)
    (hvalid : ∀ a ∈ past, a.reqLen ≠ 0 → a.req 0 = 0x01 → a.TextsAre ReadText)
    (hc : c.ShowsCredentials) (ho : d.outcome c = some o) :
    ∀ t ∈ responseTexts o.resp, ShowsText past d.flash.mem t :=
  fun _ ht => (outcome_textsOf (gaCount_run hrun) hc ho).shows (storeFrom_run hempty hrun)
    hvalid ht

theorem accountCommand_textsAre {rpId userId : List UInt8} {p : List UInt8 → Prop}
    (hfits : (accountCommand rpId userId).reqLen ≤ 1024) (hrpId : p rpId) (hempty : p []) :
    (accountCommand rpId userId).TextsAre p := by
  have hother : ∀ key : List UInt8, key ≠ ascii "id" →
      EntityString key [(.text (ascii "id"), .bytes userId)] [] := by
    refine fun key hkey => .missing _ fun e he => ?_
    rw [List.mem_singleton] at he
    subst he
    have hid : TextKey (.text (ascii "id")) := ⟨ascii "id", by decide, rfl⟩
    refine hid.other ?_
    rw [ne_eq, Item.text.injEq]
    exact hkey.symm
  exact ⟨rpId, [], [], accountCommand_registersFor hfits, hrpId,
    accountCommand_user hfits (hother _ (by decide)), hempty,
    accountCommand_user hfits (hother _ (by decide)), hempty⟩

/-- 31 letters and a letter of two bytes. -/
def accentedId : List UInt8 := List.replicate 31 0x61 ++ [0xC3, 0xA9]

/-- The listing of relying parties. -/
def listRpsCommand : Command := hostCommand (0x0A :: (Item.map [(.uint 1, .uint 2)]).encode)

theorem erased_not_occupied (i : Slot) :
    ¬ (Mem.slotKey (fun _ => 0xFF) i).isOccupied := by
  rw [isOccupied_iff, erased_magic]
  exact passkeyMagic_ne_emptyMagic.symm

/-- The first letters of the id are shown, and then half of the last one. -/
theorem accentedId_shown : ∃ o o' : Outcome,
    (Device.powerUp fun _ => 0xFF).outcome (accountCommand accentedId [0x01]) = some o ∧
    ((Device.powerUp fun _ => 0xFF).after o).outcome listRpsCommand = some o' ∧
    accentedId.take 32 ∈ responseTexts o'.resp := by
  have hruns : ((Device.powerUp fun _ => 0xFF).outcome (accountCommand accentedId [0x01])).any (fun o =>
      (((Device.powerUp fun _ => 0xFF).after o).outcome listRpsCommand).any fun o' =>
        accentedId.take 32 ∈ responseTexts o'.resp) = true := by
    decide +kernel
  obtain ⟨o, ho, hlisted⟩ := (Option.any_eq_true _ _).1 hruns
  obtain ⟨o', ho', hshown⟩ := (Option.any_eq_true _ _).1 hlisted
  exact ⟨o, o', ho, ho', of_decide_eq_true hshown⟩

theorem accentedId_valid : ValidUtf8 accentedId := by decide

theorem accented_past {p : List UInt8 → Prop} (hrpId : p accentedId) (hempty : p []) :
    ∀ a ∈ [accountCommand accentedId [0x01]], a.reqLen ≠ 0 → a.req 0 = 0x01 →
      a.TextsAre p := by
  intro a ha _ _
  rw [List.mem_singleton] at ha
  subst ha
  exact accountCommand_textsAre (by decide) hrpId hempty

theorem listRpsCommand_shows : listRpsCommand.ShowsCredentials :=
  ⟨by decide, .inr (.inr (by decide))⟩

theorem texts_shown_accented : ∃ (d : Device) (o : Outcome),
    listRpsCommand.ShowsCredentials ∧ d.outcome listRpsCommand = some o ∧
    accentedId.take 32 ∈ responseTexts o.resp ∧
    ∀ t ∈ responseTexts o.resp, ShowsText [accountCommand accentedId [0x01]] d.flash.mem t := by
  obtain ⟨o, o', ho, ho', hshown⟩ := accentedId_shown
  exact ⟨_, o', listRpsCommand_shows, ho', hshown,
    texts_shown _ _ _ _ o' erased_not_occupied (Run.single (step_iff.2 ⟨o, ho, rfl⟩))
      (accented_past ⟨accentedId_valid, by decide⟩ ⟨ByteArray.isValidUTF8_empty, by decide⟩)
      listRpsCommand_shows ho'⟩

/-- The half of the last letter is not valid. -/
theorem texts_not_valid :
    ¬ ∀ (mem : Mem) (past : List Command) (d : Device) (c : Command) (o : Outcome),
      (∀ i, ¬ (mem.slotKey i).isOccupied) → Run Device.step (Device.powerUp mem) past d →
      (∀ a ∈ past, a.reqLen ≠ 0 → a.req 0 = 0x01 → a.TextsAre ValidUtf8) →
      c.ShowsCredentials → d.outcome c = some o → ∀ t ∈ responseTexts o.resp, ValidUtf8 t := by
  intro hall
  obtain ⟨o, o', ho, ho', hshown⟩ := accentedId_shown
  have hvalid := hall _ _ _ _ o' erased_not_occupied (Run.single (step_iff.2 ⟨o, ho, rfl⟩))
    (accented_past accentedId_valid ByteArray.isValidUTF8_empty) listRpsCommand_shows ho' _ hshown
  exact absurd hvalid (by decide +kernel)

end UnsoloKey
