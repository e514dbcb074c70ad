import UnsoloKey.Assertion
import UnsoloKey.Management
import UnsoloKey.PowerCut
import UnsoloKey.Registration
import Mathlib.Tactic

/-!
# Which commands change the credential slots

Three commands write credential slots, each only on its way to a successful
response: MakeCredential one slot, deleteCredential one slot, and Reset all of
them.  Every other way through every command leaves the five pages byte for byte
as they were.
-/

namespace UnsoloKey

open Rd Cbor

def Mem.slotBytes (m : Mem) (i : Slot) : List UInt8 :=
  m.slice (slotAddr i) passkeyPageSize

def erasedPage : List UInt8 := List.replicate passkeyPageSize 0xFF

theorem slice_eq_iff {m : Mem} {p n : ℕ} {bs : List UInt8} (hn : bs.length = n) :
    m.slice p n = bs ↔ ∀ i < n, m (p + i) = bs.getD i 0xFF := by
  constructor
  · intro h i hi
    rw [← h]
    simp [List.getD, hi, Mem.slice]
  · intro h
    subst hn
    exact holds_of_getD h

/-! ## First slots -/

def FirstSlot (p : Slot → Prop) (i : Slot) : Prop :=
  p i ∧ ∀ j < i, ¬ p j

theorem firstSlot_of_find {p : Slot → Bool} {i : Slot}
    (h : slots.find? p = some i) : FirstSlot (fun j => p j = true) i := by
  rw [List.find?_eq_some_iff_getElem] at h
  obtain ⟨hp, k, hk, hi, hbefore⟩ := h
  refine ⟨hp, fun j hj => ?_⟩
  simp only [slots, List.getElem_finRange] at hi hbefore
  have hlt : j.val < k := by
    rw [← hi] at hj
    exact hj
  simpa using hbefore j.val hlt

/-- The slot which a registration takes: that of the account, and for a new
account the first one whose magic word is erased. -/
def SlotFor (flash : Mem) (r : Registration) (i : Slot) : Prop :=
  FirstSlot (fun j => holdsUser flash r.rpIdHash r.userId j = true) i ∨
    (∀ j, holdsUser flash r.rpIdHash r.userId j = false) ∧
      FirstSlot (fun j => (flash.slotKey j).magic = emptyMagic) i

theorem slotFor_of_saveSlot {flash : Mem} {r : Registration} {i : Slot}
    (h : saveSlot flash r.rpIdHash r.userId = some i) : SlotFor flash r i := by
  unfold saveSlot at h
  cases hfound : slots.find? (holdsUser flash r.rpIdHash r.userId) with
  | some j =>
      rw [hfound, Option.some_or, Option.some.injEq] at h
      subst h
      exact .inl (firstSlot_of_find hfound)
  | none =>
      rw [hfound, Option.none_or] at h
      refine .inr ⟨fun j => ?_, ?_⟩
      · simpa using List.find?_eq_none.1 hfound j (mem_slots j)
      · simpa [FirstSlot] using firstSlot_of_find h

/-! ## The bytes after the flash steps -/

theorem slotKey_of_slotBytes {m m' : Mem} {j : Slot}
    (h : m'.slotBytes j = m.slotBytes j) : m'.slotKey j = m.slotKey j := by
  have hbytes := (slice_eq_iff (by simp [Mem.slotBytes])).1 h
  refine residentKey_congr fun a ha => ?_
  rw [hbytes a ha]
  simp [Mem.slotBytes, Mem.slice, List.getD, ha]

theorem slotKey_of_written {m : Mem} {i : Slot} {k : ResidentKey}
    (hmagic : k.magic < 2 ^ 32) (h : m.slotBytes i = k.toBytes) :
    m.slotKey i = k := by
  refine residentKey_of_holds hmagic ?_
  rw [Mem.Holds, ResidentKey.toBytes_length]
  exact h

theorem slotKey_magic_of_erased {m : Mem} {i : Slot} (h : m.slotBytes i = erasedPage) :
    (m.slotKey i).magic = emptyMagic := by
  have hsame : m.slotBytes i = Mem.slotBytes (fun _ => 0xFF) i := by
    rw [h]
    refine List.ext_getElem (by simp [erasedPage, Mem.slotBytes]) fun a _ _ => ?_
    simp only [erasedPage, Mem.slotBytes, List.getElem_replicate, Mem.getElem_slice]
  rw [slotKey_of_slotBytes hsame]
  exact erased_magic i

theorem slotBytes_after_write_self (m : Mem) (i : Slot) {page : List UInt8}
    (hpage : page.length = passkeyPageSize) :
    (m.after (writePageOps (slotAddr i) page)).slotBytes i = page := by
  have h := holds_after_writePageOps m (slotAddr i) hpage
  rwa [Mem.Holds, hpage] at h

theorem slotBytes_after_write_of_ne (m : Mem) {i j : Slot} (hji : j ≠ i)
    {page : List UInt8} (hpage : page.length = passkeyPageSize) :
    (m.after (writePageOps (slotAddr i) page)).slotBytes j = m.slotBytes j :=
  slice_after_writePageOps m hpage (slotAddr_disjoint hji)

theorem slotBytes_after_pinCall (m : Mem) (call : PinCall) (i : Slot) :
    (m.after (call.ops m)).slotBytes i = m.slotBytes i := by
  cases hwritten : call.written m with
  | none => rw [PinCall.ops_of_none hwritten, Mem.after_nil]
  | some p =>
      have hend : passkeyFlashEnd = pinFlashAddr := rfl
      rw [(PinCall.ops_of_some hwritten).1]
      exact slice_after_writePageOps m p.toBytes_length (.inl (hend ▸ slotAddr_lt i))

theorem slotBytes_after_erase_self (m : Mem) (i : Slot) :
    (m.after (eraseSlotOps i)).slotBytes i = erasedPage := by
  refine (slice_eq_iff (by simp [erasedPage])).2 fun a ha => ?_
  have hin : slotAddr i ≤ slotAddr i + a ∧
      slotAddr i + a < slotAddr i + passkeyPageSize := by omega
  simp [eraseSlotOps, FlashOp.effect, hin, erasedPage, List.getD, ha]

theorem slotBytes_after_erase_of_ne (m : Mem) {i j : Slot} (hji : j ≠ i) :
    (m.after (eraseSlotOps i)).slotBytes j = m.slotBytes j := by
  refine (slice_eq_iff (by simp [Mem.slotBytes])).2 fun a ha => ?_
  have hout := slotAddr_outside hji ha
  simp [eraseSlotOps, FlashOp.effect, hout, Mem.slotBytes, List.getD, Mem.slice, ha]

theorem after_erasePages (m : Mem) (n a : ℕ) :
    m.after ((List.range n).map fun i =>
        .erasePage (passkeyFlashStart + passkeyPageSize * i)) a =
      if passkeyFlashStart ≤ a ∧ a < passkeyFlashStart + passkeyPageSize * n then 0xFF
      else m a := by
  have hsize : passkeyPageSize = 256 := rfl
  induction n with
  | zero =>
      rw [if_neg (by omega)]
      rfl
  | succ n ih =>
      rw [List.range_succ, List.map_append, Mem.after_append, List.map_singleton,
        Mem.after_cons, Mem.after_nil, FlashOp.effect]
      dsimp only
      rw [ih, hsize]
      split_ifs <;> first | rfl | omega

theorem slice_after_flashFactoryReset (m : Mem) {p : ℕ} (hstart : passkeyFlashStart ≤ p)
    (hend : p + passkeyPageSize ≤ pinFlashAddr + passkeyPageSize) :
    (m.after flashFactoryReset).slice p passkeyPageSize = erasedPage := by
  refine (slice_eq_iff (by simp [erasedPage])).2 fun a ha => ?_
  have hsize : passkeyPageSize = 256 := rfl
  have hlast : passkeyFlashStart + passkeyPageSize * (passkeyNumSlots + 1) =
      pinFlashAddr + passkeyPageSize := rfl
  rw [flashFactoryReset, Mem.after_cons]
  change Mem.after m _ _ = _
  rw [after_erasePages, if_pos (by omega)]
  simp [erasedPage, List.getD, ha]

/-! ## What a command has done to the slots -/

/-- The commands which write credential slots. -/
def Command.WritesSlots (c : Command) : Prop :=
  c.req 0 = 0x01 ∨ c.req 0 = 0x07 ∨
    c.req 0 = 0x0A ∧ (cmSubCmd c.reqLen).run c.req = some 0x06

/-- Between the two memories only slot `i` has changed. -/
def OnlySlot (i : Slot) (m m' : Mem) : Prop :=
  ∀ j ≠ i, m'.slotBytes j = m.slotBytes j

theorem slotKey_of_onlySlot {m m' : Mem} {i j : Slot} (h : OnlySlot i m m') (hj : j ≠ i) :
    m'.slotKey j = m.slotKey j :=
  slotKey_of_slotBytes (h j hj)

/-- What a command has done to the credential slots, from memory `m` to memory
`m'`.  The strings of a registration are those which `passkey_save` receives. -/
inductive SlotChange (c : Command) (o : Outcome) (m m' : Mem) : Prop
  | kept (hkept : ∀ i, m'.slotBytes i = m.slotBytes i)
      (hstatus : c.reqLen ≠ 0 → c.WritesSlots → o.status ≠ some 0x00)
  | registered (r : Registration) (i : Slot) (hcmd : c.req 0 = 0x01)
      (hread : (registrationOf c.env c.reqLen).run c.req = some r)
      (hslot : SlotFor m r i) (hwritten : m'.slotBytes i = (r.key c.env).toBytes)
      (hothers : OnlySlot i m m') (hstatus : o.status = some 0x00)
  | deleted (id : Bytes 32) (p n : ℕ) (i : Slot) (hcmd : c.req 0 = 0x0A)
      (hsub : (cmSubCmd c.reqLen).run c.req = some 0x06)
      (htarget : (deleteTarget c.env c.reqLen).run c.req = some (some (p, n)))
      (hlen : 32 ≤ n) (hid : id.val = c.req.slice p 32)
      (hslot : FirstSlot (fun j => (m.slotKey j).magic = passkeyMagic ∧
        (m.slotKey j).credentialId = id) i)
      (herased : m'.slotBytes i = erasedPage) (hothers : OnlySlot i m m')
      (hstatus : o.status = some 0x00)
  | reset (hcmd : c.req 0 = 0x07) (herased : ∀ i, m'.slotBytes i = erasedPage)
      (hpin : m'.slice pinFlashAddr passkeyPageSize = erasedPage)
      (hstatus : o.status = some 0x00)

section

variable {c : Command} {d : Device} {o : Outcome}

theorem slotChange_of_noOps (hops : o.ops = [])
    (hstatus : c.reqLen ≠ 0 → c.WritesSlots → o.status ≠ some 0x00) :
    SlotChange c o d.flash.mem (d.flash.mem.after o.ops) := by
  rw [hops]
  exact .kept (fun _ => rfl) hstatus

theorem makeCredential_slotChange (hcmd : c.req 0 = 0x01)
    (h : MakeCredentialEffect c.env (d.onChannel c.cid) c.reqLen c.req o) :
    SlotChange c o d.flash.mem (d.flash.mem.after o.ops) := by
  cases h with
  | refused status hstatus _ ho =>
      subst ho
      exact slotChange_of_noOps rfl fun _ _ => by simpa using hstatus
  | untouched cdh verified _ hpresence ho =>
      subst ho
      refine slotChange_of_noOps rfl fun _ _ => ?_
      simpa using mt (presence_status_eq_zero_iff c.env.presence).1 hpresence
  | registered cdh verified _ _ h =>
      cases h with
      | excluded _ ho =>
          subst ho
          exact slotChange_of_noOps rfl fun _ _ => by simp
      | full r _ _ ho =>
          subst ho
          exact slotChange_of_noOps rfl fun _ _ => by simp
      | saved r i cdhBytes _ hread hslot _ ho =>
          subst ho
          have hlength := (r.key c.env).toBytes_length
          exact .registered r i hcmd hread (slotFor_of_saveSlot hslot)
            (slotBytes_after_write_self _ i hlength)
            (fun j hj => slotBytes_after_write_of_ne _ hj hlength) rfl

theorem authenticatorReset_slotChange (hcmd : c.req 0 = 0x07)
    (ho : o = authenticatorReset c.env (d.onChannel c.cid)) :
    SlotChange c o d.flash.mem (d.flash.mem.after o.ops) := by
  subst ho
  unfold authenticatorReset
  split
  · exact slotChange_of_noOps rfl fun _ _ => by simp
  · dsimp only
    split
    · rename_i hrefused
      exact slotChange_of_noOps rfl fun _ _ => by simpa using hrefused
    · refine .reset hcmd (fun i => ?_) ?_ rfl
      · have hend : passkeyFlashEnd = pinFlashAddr := rfl
        have hi := slotAddr_lt i
        exact slice_after_flashFactoryReset _ (Nat.le_add_right _ _) (by omega)
      · exact slice_after_flashFactoryReset _ (by decide) le_rfl

/-! ## CredentialManagement -/

theorem listCredential_ops (d : Device) (subCmd : ℕ) :
    (listCredential d subCmd).ops = [] := by
  unfold listCredential
  dsimp only
  split
  · rfl
  · split_ifs <;> rfl

theorem enumerateRps_ops (d : Device) (subCmd : ℕ) :
    (enumerateRps d subCmd).ops = [] := by
  unfold enumerateRps
  dsimp only
  split_ifs <;> rfl

theorem enumerateCredentials_ops {env : Env} {reqLen subCmd : ℕ} {m : Mem} :
    (enumerateCredentials env d reqLen subCmd).Returns m fun o => o.ops = [] := by
  unfold enumerateCredentials
  apply Returns.ite
  · intro _
    exact Returns.bind fun _ => Returns.pure (listCredential_ops _ _)
  · intro _
    exact Returns.pure (listCredential_ops _ _)

theorem firstSlot_of_passkeyFindByCredId {m : Mem} {id : Bytes 32} {i : Slot}
    (h : passkeyFindByCredId m id = some i) :
    FirstSlot (fun j => (m.slotKey j).magic = passkeyMagic ∧
      (m.slotKey j).credentialId = id) i := by
  unfold passkeyFindByCredId at h
  have hfirst := firstSlot_of_find h
  simpa [FirstSlot, ResidentKey.isOccupied] using hfirst

theorem deleteCredential_slotChange (hcmd : c.req 0 = 0x0A)
    (hsub : (cmSubCmd c.reqLen).run c.req = some 0x06) :
    (deleteCredential c.env (d.onChannel c.cid) c.reqLen).Returns c.req fun o =>
      SlotChange c o d.flash.mem (d.flash.mem.after o.ops) := by
  unfold deleteCredential
  refine Returns.bind_run fun target htarget => ?_
  cases target with
  | none => exact Returns.pure (slotChange_of_noOps rfl fun _ _ => by simp)
  | some found =>
      rcases found with ⟨p, n⟩
      refine Returns.ite
        (fun _ => Returns.pure (slotChange_of_noOps rfl fun _ _ => by simp))
        fun hlen => Returns.bind_run fun id hid => Returns.pure ?_
      rw [run_bytes, Option.some.injEq] at hid
      have hvalue : (Bytes.fill 0 32 id).val = c.req.slice p 32 := by
        rw [← hid]
        exact Bytes.fill_val (by simp)
      have hflash : (d.onChannel c.cid).flash.mem = d.flash.mem := rfl
      rw [hflash, passkeyDeleteByCredId]
      cases hfound : passkeyFindByCredId d.flash.mem (Bytes.fill 0 32 id) with
      | none => exact slotChange_of_noOps rfl fun _ _ => by simp
      | some i =>
          exact .deleted _ p n i hcmd hsub htarget (by omega) hvalue
            (firstSlot_of_passkeyFindByCredId hfound) (slotBytes_after_erase_self _ i)
            (fun j hj => slotBytes_after_erase_of_ne _ hj) rfl

theorem cmDispatch_slotChange {subCmd : ℕ} (hcmd : c.req 0 = 0x0A)
    (hsub : (cmSubCmd c.reqLen).run c.req = some subCmd) :
    (cmDispatch c.env (d.onChannel c.cid) c.reqLen subCmd).Returns c.req fun o =>
      SlotChange c o d.flash.mem (d.flash.mem.after o.ops) := by
  have hother : subCmd ≠ 0x06 → ¬ c.WritesSlots := by
    intro hne hwrites
    simp [Command.WritesSlots, hcmd, hsub, hne] at hwrites
  have hkept : ∀ o : Outcome, o.ops = [] → subCmd ≠ 0x06 →
      SlotChange c o d.flash.mem (d.flash.mem.after o.ops) := by
    intro o hops hne
    exact slotChange_of_noOps hops fun _ hwrites => absurd hwrites (hother hne)
  unfold cmDispatch
  refine Returns.bind fun _ => Returns.ite (fun h => ?_) fun _ =>
    Returns.ite (fun h => ?_) fun _ => Returns.ite (fun h => ?_) fun _ =>
    Returns.ite (fun h => ?_) fun hne => ?_
  · exact Returns.pure (hkept _ rfl (by omega))
  · exact Returns.pure (hkept _ (enumerateRps_ops _ _) (by omega))
  · exact fun o ho => hkept o (enumerateCredentials_ops o ho) (by omega)
  · subst h
    exact deleteCredential_slotChange hcmd hsub
  · exact Returns.pure (hkept _ rfl hne)

theorem SlotChange.congr {o' : Outcome} {m m' : Mem} (h : SlotChange c o' m m')
    (hstatus : o.status = o'.status) : SlotChange c o m m' := by
  cases h with
  | kept hkept hother =>
      exact .kept hkept fun hlen hwrites => hstatus ▸ hother hlen hwrites
  | registered r i hcmd hread hslot hwritten hothers hok =>
      exact .registered r i hcmd hread hslot hwritten hothers (hstatus.trans hok)
  | deleted id p n i hcmd hsub htarget hlen hid hslot herased hothers hok =>
      exact .deleted id p n i hcmd hsub htarget hlen hid hslot herased hothers
        (hstatus.trans hok)
  | reset hcmd herased hpin hok =>
      exact .reset hcmd herased hpin (hstatus.trans hok)

theorem credentialManagement_slotChange (hcmd : c.req 0 = 0x0A) :
    (credentialManagement c.env (d.onChannel c.cid) c.reqLen).Returns c.req fun o =>
      SlotChange c o d.flash.mem (d.flash.mem.after o.ops) := by
  unfold credentialManagement
  refine Returns.bind_run fun sub hread => ?_
  have hsub : (cmSubCmd c.reqLen).run c.req = some (u8 (sub.getD 0)) := by
    simp [cmSubCmd, hread]
  apply Returns.ite
  · intro _
    refine Returns.bind fun authorized => Returns.ite
      (fun _ => Returns.pure (slotChange_of_noOps rfl fun _ _ => by simp)) fun _ => ?_
    refine Returns.bind_of (cmDispatch_slotChange hcmd hsub) fun o' ho' => ?_
    exact Returns.pure (ho'.congr rfl)
  · intro _
    exact cmDispatch_slotChange hcmd hsub

/-! ## All commands -/

theorem processClientPin_slotChange (hlen : c.reqLen ≠ 0) (hcmd : c.req 0 = 0x06) :
    (processClientPin c.env (d.onChannel c.cid) 1 (c.reqLen - 1)).Returns c.req
      fun o => SlotChange c o d.flash.mem (d.flash.mem.after o.ops) := by
  intro o ho
  have hother : ¬ c.WritesSlots := by simp [Command.WritesSlots, hcmd]
  rcases (processClientPin_effect hlen hcmd o ho).1.ops_cases with
    hops | ⟨call, p, hops, -⟩
  · exact slotChange_of_noOps hops fun _ hwrites => absurd hwrites hother
  · rw [hops]
    exact .kept (fun i => slotBytes_after_pinCall _ call i)
      fun _ hwrites => absurd hwrites hother

theorem touchDebug_ops (env : Env) (d : Device) : (touchDebug env d).ops = [] := by
  unfold touchDebug
  split <;> rfl

theorem processCommand_slotChange (hlen : c.reqLen ≠ 0) :
    (processCommand c.env (d.onChannel c.cid) c.reqLen (c.req 0)).Returns c.req
      fun o => SlotChange c o d.flash.mem (d.flash.mem.after o.ops) := by
  have hkept : ∀ o : Outcome, o.ops = [] → ¬ c.WritesSlots →
      SlotChange c o d.flash.mem (d.flash.mem.after o.ops) :=
    fun o hops hother => slotChange_of_noOps hops fun _ hwrites => absurd hwrites hother
  unfold processCommand
  refine Returns.ite (fun hcmd => ?_) fun _ => Returns.ite (fun hcmd => ?_) fun hmake =>
    Returns.ite (fun hcmd => ?_) fun _ => Returns.ite (fun hcmd => ?_) fun _ =>
    Returns.ite (fun hcmd => ?_) fun _ => Returns.ite (fun hcmd => ?_) fun hmanage =>
    Returns.ite (fun hcmd => ?_) fun hreset => Returns.ite (fun hcmd => ?_) fun _ => ?_
  · exact Returns.pure (hkept _ rfl (by simp [Command.WritesSlots, hcmd]))
  · exact fun o ho => makeCredential_slotChange hcmd (makeCredential_effect o ho)
  · intro o ho
    have hops : o.ops = [] := by
      cases getAssertion_effect o ho with
      | refused _ _ _ hops => exact hops
      | asserted _ _ _ _ _ _ _ _ hops => exact hops
    exact hkept o hops (by simp [Command.WritesSlots, hcmd])
  · have hops : (getNextAssertion c.env (d.onChannel c.cid)).ops = [] := by
      cases getNextAssertion_effect (d := d.onChannel c.cid) with
      | refused _ _ _ hops => exact hops
      | asserted _ _ _ _ _ hops => exact hops
    exact Returns.pure (hkept _ hops (by simp [Command.WritesSlots, hcmd]))
  · exact processClientPin_slotChange hlen hcmd
  · exact credentialManagement_slotChange hcmd
  · exact Returns.pure (authenticatorReset_slotChange hcmd rfl)
  · exact Returns.pure (hkept _ (touchDebug_ops _ _)
      (by simp [Command.WritesSlots, hcmd]))
  · exact Returns.pure (hkept _ rfl (by simp [Command.WritesSlots, hmake, hreset, hmanage]))

/-- Every command leaves the slots alone or changes them in one of the three
ways, and then it reports success. -/
theorem credentialSlots_change (ho : d.outcome c = some o) :
    SlotChange c o d.flash.mem (d.after o).flash.mem := by
  rw [Device.after, Flash.run_mem]
  by_cases hlen : c.reqLen = 0
  · unfold Device.outcome fido2ProcessCbor at ho
    rw [if_pos hlen, run_pure, Option.some.injEq] at ho
    subst ho
    exact slotChange_of_noOps rfl fun hne => absurd hlen hne
  · rw [outcome_eq hlen] at ho
    exact processCommand_slotChange hlen o ho

end

/-- MakeCredential for the user `01` of the relying party `a`. -/
def registerCommand : Command :=
  hostCommand (0x01 :: (Item.map [(.uint 1, .bytes (List.replicate 32 0xC5)),
    (.uint 2, .map [(str "id", .text [0x61])]),
    (.uint 3, .map [(str "id", .bytes [0x01])])]).encode)

theorem credentialSlots_change_register : ∃ o,
    (Device.powerUp (fun _ => 0xFF)).outcome registerCommand = some o ∧
      o.status = some 0x00 ∧ SlotChange registerCommand o (fun _ => 0xFF)
        ((Device.powerUp (fun _ => 0xFF)).after o).flash.mem := by
  have hruns : ((Device.powerUp (fun _ => 0xFF)).outcome registerCommand).any
      (fun o => o.status = some 0x00) = true := by decide +kernel
  obtain ⟨o, ho, hstatus⟩ := (Option.any_eq_true _ _).1 hruns
  exact ⟨o, ho, of_decide_eq_true hstatus, credentialSlots_change ho⟩

end UnsoloKey
