import UnsoloKey.CredentialLists
import UnsoloKey.EntityStrings
import Mathlib.Tactic

/-!
# The identity of the relying party

MakeCredential looks for the id in the rp entity and GetAssertion takes it from its
own parameter.  Both hash the same bytes, and both fall back to a hash of zeros when
there is no id or an empty one.
-/

namespace UnsoloKey

open Rd Cbor

/-- A MakeCredential for the relying party with the id, empty when the request has
none. -/
abbrev Command.RegistersFor (c : Command) (rpId : List UInt8) : Prop :=
  c.EntityHas 2 (ascii "id") rpId

/-- A GetAssertion with the rpId, empty when there is none. -/
inductive Command.AssertsFor (c : Command) : List UInt8 → Prop
  | rpId (entries : List Entry) (rpId : List UInt8) (hcarries : c.Carries 0x02 entries)
      (hrpId : HasEntry entries 1 (.text rpId)) : c.AssertsFor rpId
  | noRpId (entries : List Entry) (hcarries : c.Carries 0x02 entries)
      (hscan : ScannableEntries entries) (hother : ∀ e ∈ entries, e.1 ≠ .uint 1) :
      c.AssertsFor []

/-- The registration has left its credential under the hash in a slot, and every other
slot is as it was. -/
def StoresUnderRp (d : Device) (c : Command) (o : Outcome) (rpIdHash : Bytes 32) : Prop :=
  ∃ i, isOfRp (d.after o).flash.mem rpIdHash i = true ∧
    ((d.after o).flash.mem.slotKey i).credentialId = c.env.rng 0 32 ∧
    ∀ j ≠ i, (d.after o).flash.mem.slotKey j = d.flash.mem.slotKey j

/-- The assertion is for a stored credential of the relying party with the hash. -/
def AssertsUnderRp (d : Device) (c : Command) (o : Outcome) (rpIdHash : Bytes 32) : Prop :=
  ∃ i flags cdh total, isOfRp d.flash.mem rpIdHash i = true ∧
    o.resp = gaBuildResponse c.env d.flash.mem i (authDataHeader rpIdHash flags) cdh total

/-! ## Reading the id -/

section

variable {d : Device} {c : Command} {o : Outcome} {m : Mem} {p : ℕ} {rpId : List UInt8}
  {rpIdHash : Bytes 32} {env : Env} {rp : List Entry}

theorem ReadsString.rpIdHashOf {s : Option (ℕ × ℕ)} (h : ReadsString m s rpId) :
    (rpIdHashOf s).run m = some (rpHash (byteCut rpId)) := by
  cases h with
  | missing => rfl
  | found p _ hm =>
      rw [← byteCut_length rpId]
      refine rpIdHashOf_rpHash ?_
      rw [Mem.Holds, byteCut_length, hm.slice_byteCut]

/-- Of an id with more than 255 bytes MakeCredential hashes what is left of it. -/
theorem mcRpIdHash_registersFor (hc : c.RegistersFor rpId) :
    (mcRpIdHash env c.reqLen).run c.req = some (rpHash (byteCut rpId)) := by
  obtain ⟨item, found, hitem, hfound, hreads⟩ :=
    hc.reads env (by decide) (by omega) (by omega)
  have hrpId : (rpIdOf (item.pointer env)).run c.req = some found := hfound
  rw [mcRpIdHash, run_bind, hitem, Option.bind_some, run_bind, hrpId, Option.bind_some]
  exact hreads.rpIdHashOf

theorem gaRpIdHash_assertsFor (hc : c.AssertsFor rpId) :
    (gaRpIdHash c.reqLen).run c.req = some (rpHash rpId) := by
  cases hc with
  | rpId entries _ hcarries hrpId =>
      have hlen := (hcarries.uintEntry hrpId (by omega) (by omega)).1
      simp only [Item.encode, List.length_append] at hlen
      obtain ⟨p, hm, hread⟩ := hcarries.value (n := rpId.length) hrpId (by omega) (by omega)
        (by omega) (by omega) rfl
      rw [gaRpIdHash, run_bind, hread, Option.bind_some]
      exact rpIdHashOf_rpHash hm
  | noRpId entries hcarries hscan hother =>
      have hmissing : (getCborMapValue 1 (c.reqLen - 1) 0x01).run c.req = some none :=
        hcarries.missing (by omega) (by omega) hscan hother
      rw [gaRpIdHash, run_bind, hmissing]
      rfl

/-! ## The two commands -/

theorem registrationOf_rpIdHash {reqLen : ℕ} :
    (registrationOf env reqLen).Returns m fun r =>
      (mcRpIdHash env reqLen).run m = some r.rpIdHash := by
  unfold registrationOf
  refine Returns.bind_run fun rpItem hrpItem => Returns.bind_run fun rpId hrpId =>
    Returns.bind_run fun hash hhash => Returns.bind fun userItem => Returns.bind fun user =>
    Returns.bind fun readRpId => Returns.bind fun readUserId => Returns.bind fun readName =>
    Returns.pure ?_
  rw [mcRpIdHash, run_bind, hrpItem, Option.bind_some, run_bind, hrpId, Option.bind_some]
  exact hhash

theorem isOfRp_iff_magic {i : Slot} : isOfRp m rpIdHash i = true ↔
    (m.slotKey i).magic = passkeyMagic ∧ (m.slotKey i).rpIdHash = rpIdHash := by
  rw [isOfRp_iff, isOccupied_iff]

/-- A registration stores under the hash which it has read. -/
theorem registration_storesUnderRp (hlen : c.reqLen ≠ 0) (hcmd : c.req 0 = 0x01)
    (hread : (mcRpIdHash c.env c.reqLen).run c.req = some rpIdHash)
    (ho : d.outcome c = some o) (hok : o.status = some 0x00) :
    StoresUnderRp d c o rpIdHash := by
  rw [outcome_eq hlen, hcmd] at ho
  obtain ⟨r, i, hsaved⟩ := makeCredential_saved (d := d.onChannel c.cid) o ho hok
  have hrp : r.rpIdHash = rpIdHash :=
    Option.some.inj ((registrationOf_rpIdHash r hsaved.read).symm.trans hread)
  have hkey : ∀ j, (d.after o).flash.mem.slotKey j =
      if j = i then r.key c.env else d.flash.mem.slotKey j := fun j => by
    rw [Device.after, Flash.run_mem, hsaved.ops]
    exact slotKey_after_write _ i j (show passkeyMagic < 2 ^ 32 by decide)
  have hhere := hkey i
  rw [if_pos rfl] at hhere
  refine ⟨i, isOfRp_iff_magic.2 ?_, by rw [hhere]; rfl, fun j hj => by rw [hkey, if_neg hj]⟩
  rw [hhere]
  exact ⟨rfl, hrp⟩

theorem assertion_assertsUnderRp (hlen : c.reqLen ≠ 0) (hcmd : c.req 0 = 0x02)
    (hread : (gaRpIdHash c.reqLen).run c.req = some rpIdHash)
    (ho : d.outcome c = some o) (hok : o.status = some 0x00) :
    AssertsUnderRp d c o rpIdHash := by
  rw [outcome_eq hlen, hcmd] at ho
  cases getAssertion_effect (d := d.onChannel c.cid) o ho with
  | refused status hstatus hresp _ =>
      rw [Outcome.status, hresp] at hok
      exact absurd (Option.some.inj hok) hstatus
  | asserted ctap plan cdhBuf _ hselect _ _ hresp _ _ =>
      obtain ⟨found, hfound, hhash⟩ := hselect.rpId
      rw [gaRpIdHash, run_bind, hfound, Option.bind_some, hhash, Option.some.injEq] at hread
      subst hread
      exact ⟨plan.slot, _, cdhBuf, plan.total, hselect.isOfRp, hresp⟩

theorem Command.AssertsFor.carries (hc : c.AssertsFor rpId) :
    ∃ entries, c.Carries 0x02 entries := by
  cases hc with
  | rpId entries _ hcarries _ => exact ⟨entries, hcarries⟩
  | noRpId entries hcarries _ _ => exact ⟨entries, hcarries⟩

end

/-- Both commands compute the same hash of the same id, which is the hash of zeros for
an empty or a missing one, and store and assert under it. -/
theorem rp_identity :
    (∀ (d : Device) (c : Command) (o : Outcome) (rpId : List UInt8),
      c.RegistersFor rpId → rpId.length ≤ 255 → d.outcome c = some o →
      o.status = some 0x00 → StoresUnderRp d c o (rpHash rpId)) ∧
    ∀ (d : Device) (c : Command) (o : Outcome) (rpId : List UInt8),
      c.AssertsFor rpId → d.outcome c = some o →
      (gaRpIdHash c.reqLen).run c.req = some (rpHash rpId) ∧
        (o.status = some 0x00 → AssertsUnderRp d c o (rpHash rpId)) := by
  constructor
  · intro d c o rpId hc hshort ho hok
    obtain ⟨entries, hcarries⟩ := hc.carries
    exact registration_storesUnderRp hcarries.reqLen_ne_zero hcarries.cmd_eq
      (byteCut_of_le hshort ▸ mcRpIdHash_registersFor hc) ho hok
  · intro d c o rpId hc ho
    obtain ⟨entries, hcarries⟩ := hc.carries
    have hhash := gaRpIdHash_assertsFor hc
    exact ⟨hhash, assertion_assertsUnderRp hcarries.reqLen_ne_zero hcarries.cmd_eq hhash ho⟩

/-- A registration without an rp entity. -/
def namelessCommand : Command :=
  hostCommand (0x01 :: (Item.map [(.uint 1, .bytes (List.replicate 32 0xC5)),
    (.uint 3, .map [(.text (ascii "id"), .bytes [0x01])])]).encode)

theorem namelessCommand_registersFor : namelessCommand.RegistersFor [] :=
  .noEntity _ ⟨holds_getD _, by decide +kernel, by decide +kernel⟩
    (by simp [ScannableEntries, Scannable, show (ascii "id").length = 2 from rfl]) (by simp)

def accountEntries (rpId userId : List UInt8) : List Entry :=
  [(.uint 1, .bytes (List.replicate 32 0xC5)),
    (.uint 2, .map [(.text (ascii "id"), .text rpId)]),
    (.uint 3, .map [(.text (ascii "id"), .bytes userId)])]

/-- A registration of a user with a relying party. -/
def accountCommand (rpId userId : List UInt8) : Command :=
  hostCommand (0x01 :: (Item.map (accountEntries rpId userId)).encode)

section

variable {rpId userId : List UInt8}

theorem accountCommand_carries (hfits : (accountCommand rpId userId).reqLen ≤ 1024) :
    (accountCommand rpId userId).Carries 0x01 (accountEntries rpId userId) :=
  ⟨holds_getD _, rfl, hfits⟩

theorem accountCommand_rpId_length (hfits : (accountCommand rpId userId).reqLen ≤ 1024) :
    rpId.length < 65536 := by
  have hlen := (accountCommand_carries hfits).value_length_lt [_]
  simp only [Item.encode, encodeEntries, List.length_append] at hlen
  omega

theorem accountCommand_userId_length (hfits : (accountCommand rpId userId).reqLen ≤ 1024) :
    userId.length < 65536 := by
  have hlen := (accountCommand_carries hfits).value_length_lt [_, _]
  simp only [Item.encode, encodeEntries, List.length_append] at hlen
  omega

theorem accountCommand_registersFor (hfits : (accountCommand rpId userId).reqLen ≤ 1024) :
    (accountCommand rpId userId).RegistersFor rpId :=
  .entity _ [(.text (ascii "id"), .text rpId)] rpId (accountCommand_carries hfits)
    ⟨[(.uint 1, .bytes (List.replicate 32 0xC5))], _, rfl,
      by simp [ScannableEntries, Scannable], by simp⟩
    ⟨show (ascii "id").length < 65536 by decide, accountCommand_rpId_length hfits, trivial⟩
    (.found [] [] (.text rpId) (by simp))

/-- Its user entity has the id and nothing else. -/
theorem accountCommand_user {key bs : List UInt8}
    (hfits : (accountCommand rpId userId).reqLen ≤ 1024)
    (hstring : EntityString key [(.text (ascii "id"), .bytes userId)] bs) :
    (accountCommand rpId userId).EntityHas 3 key bs := by
  have hid : (ascii "id").length = 2 := rfl
  refine .entity _ _ bs (accountCommand_carries hfits)
    ⟨[(.uint 1, .bytes (List.replicate 32 0xC5)),
      (.uint 2, .map [(.text (ascii "id"), .text rpId)])], [], rfl, ?_, by simp⟩
    ⟨show (ascii "id").length < 65536 by decide, accountCommand_userId_length hfits, trivial⟩
    hstring
  simp [ScannableEntries, Scannable, hid, accountCommand_rpId_length hfits]

end

theorem signInCommand_assertsFor : signInCommand.AssertsFor [0x61] :=
  .rpId _ _ ⟨holds_getD _, by decide +kernel, by decide +kernel⟩ ⟨[], _, rfl, trivial, by simp⟩

/-- A registration on an empty device, and an assertion for its relying party after it. -/
theorem rp_identity_account : ∃ o o',
    (Device.powerUp fun _ => 0xFF).outcome (accountCommand [0x61] [0x01]) = some o ∧
    StoresUnderRp (Device.powerUp fun _ => 0xFF) (accountCommand [0x61] [0x01]) o
      (rpHash [0x61]) ∧
    ((Device.powerUp fun _ => 0xFF).after o).outcome signInCommand = some o' ∧
    AssertsUnderRp ((Device.powerUp fun _ => 0xFF).after o) signInCommand o'
      (rpHash [0x61]) := by
  have hruns : ((Device.powerUp fun _ => 0xFF).outcome (accountCommand [0x61] [0x01])).any
      (fun o => o.status = some 0x00 ∧ (((Device.powerUp fun _ => 0xFF).after o).outcome
        signInCommand).any (fun o' => o'.status = some 0x00) = true) = true := by
    decide +kernel
  obtain ⟨o, ho, hboth⟩ := (Option.any_eq_true _ _).1 hruns
  obtain ⟨hok, hsignIn⟩ := of_decide_eq_true hboth
  obtain ⟨o', ho', hok'⟩ := (Option.any_eq_true _ _).1 hsignIn
  have hstores := rp_identity.1 _ _ o _ (accountCommand_registersFor (by decide +kernel))
    (by decide) ho hok
  have hasserts := rp_identity.2 _ _ o' _ signInCommand_assertsFor ho'
  exact ⟨o, o', ho, hstores, ho', hasserts.2 (of_decide_eq_true hok')⟩

/-- A relying party id of 256 bytes. -/
def longRpId : List UInt8 := List.replicate 256 0x61

theorem storesUnderRp_unique {d : Device} {c : Command} {o : Outcome}
    {rpIdHash rpIdHash' : Bytes 32} (hfree : ∀ i, (d.flash.mem.slotKey i).magic ≠ passkeyMagic)
    (h : StoresUnderRp d c o rpIdHash) (h' : StoresUnderRp d c o rpIdHash') :
    rpIdHash = rpIdHash' := by
  obtain ⟨i, hi, -, hothers⟩ := h
  obtain ⟨j, hj, -, -⟩ := h'
  by_cases hij : j = i
  · subst hij
    exact (isOfRp_iff.1 hi).2.symm.trans (isOfRp_iff.1 hj).2
  · have hmagic := (isOfRp_iff_magic.1 hj).1
    rw [hothers j hij] at hmagic
    exact absurd hmagic (hfree j)

/-- A registration without any id succeeds, and one for a long id stores under the
hash of fewer bytes. -/
theorem rpId_not_bound :
    (¬ ∀ (d : Device) (c : Command) (o : Outcome) (rpId : List UInt8),
      c.RegistersFor rpId → d.outcome c = some o → o.status = some 0x00 → rpId ≠ []) ∧
    ¬ ∀ (d : Device) (c : Command) (o : Outcome) (rpId : List UInt8),
      c.RegistersFor rpId → rpId ≠ [] → d.outcome c = some o → o.status = some 0x00 →
      StoresUnderRp d c o (sha256 rpId) := by
  have hruns : ∀ c : Command, ((Device.powerUp fun _ => 0xFF).outcome c).any
      (fun o => o.status = some 0x00) = true →
      ∃ o, (Device.powerUp fun _ => 0xFF).outcome c = some o ∧ o.status = some 0x00 := by
    intro c h
    obtain ⟨o, ho, hok⟩ := (Option.any_eq_true _ _).1 h
    exact ⟨o, ho, of_decide_eq_true hok⟩
  constructor
  · intro hall
    obtain ⟨o, ho, hok⟩ := hruns namelessCommand (by decide +kernel)
    exact hall _ _ o _ namelessCommand_registersFor ho hok rfl
  · intro hall
    obtain ⟨o, ho, hok⟩ := hruns (accountCommand longRpId [0x01]) (by decide +kernel)
    have hread : (mcRpIdHash hostEnv (accountCommand longRpId [0x01]).reqLen).run
        (accountCommand longRpId [0x01]).req = some (Bytes.zero 32) := by decide +kernel
    have hzero := registration_storesUnderRp (by decide +kernel) (by decide) hread ho hok
    have hlong := hall _ _ o _ (accountCommand_registersFor (by decide +kernel)) (by decide)
      ho hok
    have hsame : Bytes.zero 32 = sha256 longRpId := by
      refine storesUnderRp_unique (fun i => ?_) hzero hlong
      rw [show (Device.powerUp fun _ => 0xFF).flash.mem = fun _ => 0xFF from rfl, erased_magic]
      exact passkeyMagic_ne_emptyMagic.symm
    exact absurd hsame (by decide +kernel)

end UnsoloKey
