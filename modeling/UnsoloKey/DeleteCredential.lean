import UnsoloKey.CanonicalRequest
import UnsoloKey.PinLockout
import UnsoloKey.Responses
import UnsoloKey.StoreRefinement
import Mathlib.Tactic

/-!
# Deleting a credential

A host names the credential to delete by a descriptor, a map with the text keys
`id` and `type`.  The two outer lookups of deleteCredential find that map; the
third one asks it for the integer key 1 and never finds the id.
-/

namespace UnsoloKey

open Rd Cbor

def descriptor (id : Bytes 32) : Item :=
  .map [(str "id", .bytes id.val), (str "type", str "public-key")]

def deleteParams (id : Bytes 32) : Item := .map [(.uint 2, descriptor id)]

/-- The parameters of deleteCredential, followed by any others. -/
def deleteRequest (id : Bytes 32) (rest : List Entry) : Item :=
  .map ((.uint 1, .uint 6) :: (.uint 2, deleteParams id) :: rest)

/-- A deleteCredential request which passes the pinUvAuthParam check or needs
none. -/
structure DeleteRequest (d : Device) (c : Command) (id : Bytes 32)
    (rest : List Entry) : Prop where
  holds : c.req.Holds 0 (0x0A :: (deleteRequest id rest).encode)
  length : c.reqLen = (deleteRequest id rest).encode.length + 1
  fits : c.reqLen ≤ 1024
  authorized : pinLoad d.flash.mem = none ∨
    (cmAuthorized c.env d.pin c.reqLen 0x06).run c.req = some true

def HoldsCredential (m : Mem) (id : Bytes 32) (i : Slot) : Prop :=
  (m.slotKey i).magic = passkeyMagic ∧ (m.slotKey i).credentialId = id

/-- A stored credential is gone after a successful response and nothing else has
moved; for an unknown id nothing moves at all. -/
def DeletesCredential (d : Device) (c : Command) (id : Bytes 32) : Prop :=
  ∃ o, d.outcome c = some o ∧
    (∀ i, HoldsCredential d.flash.mem id i → o.resp = [0x00] ∧
      (∀ j, ¬ HoldsCredential (d.after o).flash.mem id j) ∧
      ∀ j ≠ i, (d.after o).flash.mem.slice (slotAddr j) passkeyPageSize =
        d.flash.mem.slice (slotAddr j) passkeyPageSize) ∧
    ((∀ i, ¬ HoldsCredential d.flash.mem id i) → o.resp = [0x2E] ∧
      ∀ j, (d.after o).flash.mem.slice (slotAddr j) passkeyPageSize =
        d.flash.mem.slice (slotAddr j) passkeyPageSize)

section

variable {d : Device} {c : Command} {id : Bytes 32} {rest : List Entry}

theorem descriptor_scannable (id : Bytes 32) : Scannable (descriptor id) := by
  simp [descriptor, str, Scannable, ScannableEntries, ascii]

theorem deleteParams_scannable (id : Bytes 32) : Scannable (deleteParams id) := by
  simp [deleteParams, Scannable, ScannableEntries, descriptor_scannable]

namespace DeleteRequest

variable (h : DeleteRequest d c id rest)
include h

theorem carries : c.Carries 0x0A ((.uint 1, .uint 6) :: (.uint 2, deleteParams id) :: rest) :=
  ⟨h.holds, h.length, h.fits⟩

theorem subCmd_entry : UintEntry c.req 1 (c.reqLen - 1) 1 [] (.uint 6)
    ((.uint 2, deleteParams id) :: rest) :=
  Command.Carries.entry [] h.carries (by omega) (by omega) trivial (by simp)

theorem params_entry : UintEntry c.req 1 (c.reqLen - 1) 2 [(.uint 1, .uint 6)]
    (deleteParams id) rest :=
  Command.Carries.entry [_] h.carries (by omega) (by omega)
    (by simp [ScannableEntries, Scannable]) (by simp)

theorem target : (deleteTarget c.env c.reqLen).run c.req = some none := by
  have hfits := h.fits
  obtain ⟨p, hparams, hitem⟩ := h.params_entry.item (deleteParams_scannable id)
  have hlength : (deleteParams id).encode.length < 65536 :=
    Command.Carries.value_length_lt [_] h.carries
  have hentry : UintEntry c.req p (deleteParams id).encode.length 2 []
      (descriptor id) [] :=
    ⟨by omega, by omega, by simp, trivial, by simp, hparams, le_rfl, hlength⟩
  obtain ⟨q, hdescriptor, hinner⟩ := hentry.item (descriptor_scannable id)
  have hwithin : (descriptor id).encode.length < 65536 := by
    simp only [deleteParams, Item.encode, encodeEntries, List.length_append]
      at hlength
    omega
  have hscannable := descriptor_scannable id
  have hmissing : (getCborMapString q (descriptor id).encode.length 0x01).run c.req
      = some none := by
    have hvalue : (getCborMapValue q (descriptor id).encode.length 0x01).run c.req
        = some none :=
      walkMap_uintMissing (by omega) (by omega) hscannable.1 hscannable.2
        (by simp [str]) hdescriptor le_rfl hwithin
    rw [getCborMapString, run_bind, hvalue]
    rfl
  rw [deleteTarget, run_bind, hitem, Option.bind_some]
  simp only [ItemResult.pointer]
  rw [run_bind, hinner, Option.bind_some]
  exact hmissing

theorem dispatch : (cmDispatch c.env (d.onChannel c.cid) c.reqLen 0x06).run c.req =
    some ((d.onChannel c.cid).reply [0x2E]) := by
  obtain ⟨p, -, hvalue⟩ := h.params_entry.value (n := 1)
    (by omega) (by omega) rfl
  rw [cmDispatch, run_bind, hvalue, Option.bind_some]
  simp [deleteCredential, h.target]

theorem outcome : ∃ o, d.outcome c = some o ∧ o.resp = [0x2E] ∧ o.ops = [] := by
  have hlen : c.reqLen ≠ 0 := by
    have hlength := h.length
    omega
  have hcmd : c.req 0 = 0x0A := (Mem.holds_cons.1 h.holds).1
  have hsub := h.subCmd_entry.uint (by omega)
  have hrun : d.outcome c =
      (credentialManagement c.env (d.onChannel c.cid) c.reqLen).run c.req := by
    rw [outcome_eq hlen, hcmd]
    rfl
  have hu8 : u8 6 = 0x06 := rfl
  rw [hrun, credentialManagement, run_bind, hsub, Option.bind_some,
    Option.getD_some, hu8]
  dsimp only
  cases hload : pinLoad d.flash.mem with
  | none =>
      have hunset : ¬ (pinLoad (d.onChannel c.cid).flash.mem).isSome := by
        simp [Device.onChannel, hload]
      rw [if_neg hunset]
      exact ⟨_, h.dispatch, rfl, rfl⟩
  | some p =>
      have hset : (pinLoad (d.onChannel c.cid).flash.mem).isSome := by
        simp [Device.onChannel, hload]
      have hauth : (cmAuthorized c.env (d.onChannel c.cid).pin c.reqLen 0x06).run
          c.req = some true := by
        rcases h.authorized with hnone | hauth
        · rw [hload] at hnone
          cases hnone
        · exact hauth
      rw [if_pos hset, run_bind, hauth, Option.bind_some, if_neg (by simp), run_bind,
        h.dispatch, Option.bind_some]
      exact ⟨_, rfl, rfl, rfl⟩

end DeleteRequest

/-- The command does what it is for only where there is nothing to delete. -/
theorem deletesCredential_iff (h : DeleteRequest d c id rest) :
    DeletesCredential d c id ↔ ∀ i, ¬ HoldsCredential d.flash.mem id i := by
  obtain ⟨o, ho, hresp, hops⟩ := h.outcome
  have hflash : (d.after o).flash.mem = d.flash.mem := by
    rw [Device.after, Flash.run_mem, hops]
    rfl
  constructor
  · rintro ⟨o', ho', hdeletes, -⟩ i hstored
    rw [ho, Option.some.injEq] at ho'
    subst ho'
    have hzero := (hdeletes i hstored).1
    rw [hresp] at hzero
    simp at hzero
  · intro habsent
    refine ⟨o, ho, fun i hstored => absurd hstored (habsent i), fun _ => ⟨hresp, ?_⟩⟩
    intro j
    rw [hflash]

end

theorem oneCredential_holds {rpIdHash id : Bytes 32} {j : Slot}
    (h : HoldsCredential (oneCredential rpIdHash) id j) :
    j = firstSlot ∧ id = storedId := by
  have hj := oneCredential_occupied h.1
  rw [HoldsCredential, hj, oneCredential_slotKey, if_pos rfl] at h
  exact ⟨hj, h.2.symm⟩

theorem oneCredential_unset (rpIdHash : Bytes 32) :
    pinLoad (oneCredential rpIdHash) = none := by
  unfold oneCredential
  rw [← storedPin_eq_none_iff, storedPin_after_below]
  · exact storedPin_of_erased fun _ _ => rfl
  · have hend : passkeyFlashEnd = pinFlashAddr := rfl
    exact writePageOps_below (storedKey rpIdHash).toBytes_length
      (hend ▸ slotAddr_lt firstSlot)

def deleteCommand (id : Bytes 32) : Command :=
  hostCommand (0x0A :: (deleteRequest id []).encode)

theorem deleteCommand_request (id : Bytes 32) :
    DeleteRequest (Device.powerUp (oneCredential (Bytes.zero 32))) (deleteCommand id) id [] where
  holds := holds_getD _
  length := (List.length_cons : (0x0A :: (deleteRequest id []).encode).length = _)
  fits := by
    have hlength : (deleteRequest id []).encode.length ≤ 200 := by
      simp [deleteRequest, deleteParams, descriptor, str, Item.encode,
        encodeEntries, head, ascii]
    change (deleteRequest id []).encode.length + 1 ≤ 1024
    omega
  authorized := .inl (oneCredential_unset _)

theorem deletesCredential_unknown :
    DeletesCredential (Device.powerUp (oneCredential (Bytes.zero 32)))
      (deleteCommand (Bytes.zero 32)) (Bytes.zero 32) := by
  refine (deletesCredential_iff (deleteCommand_request _)).2 fun i hi => ?_
  have hne : Bytes.zero 32 ≠ storedId := by decide
  exact hne (oneCredential_holds hi).2

/-- The only credential of a key without a PIN is not deleted. -/
theorem stored_not_deleted : ¬ ∀ (d : Device) (c : Command) (id : Bytes 32)
    (rest : List Entry),
    (∀ i j id, HoldsCredential d.flash.mem id i → HoldsCredential d.flash.mem id j →
      i = j) →
    DeleteRequest d c id rest → DeletesCredential d c id := by
  intro hclaim
  have hrequest := deleteCommand_request storedId
  obtain ⟨o, ho, hdeletes, -⟩ := hclaim _ _ storedId [] (by
    intro i j id hi hj
    rw [(oneCredential_holds hi).1, (oneCredential_holds hj).1]) hrequest
  obtain ⟨o', ho', hresp, -⟩ := hrequest.outcome
  rw [ho, Option.some.injEq] at ho'
  have hstored : HoldsCredential (oneCredential (Bytes.zero 32)) storedId firstSlot := by
    rw [HoldsCredential, oneCredential_slotKey, if_pos rfl]
    exact ⟨rfl, rfl⟩
  have hzero := (hdeletes firstSlot hstored).1
  rw [ho', hresp] at hzero
  simp at hzero

end UnsoloKey
