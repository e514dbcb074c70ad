import UnsoloKey.RpIdentity
import UnsoloKey.SlotChanges
import UnsoloKey.Trace
import Mathlib.Tactic

/-!
# Registering an account again

The slot of an account is found by the user id in the request, and the store keeps 64
bytes of it.  As long as every user id has at most 64 bytes an account keeps its slot:
a new registration of the account replaces the old one, and no other registration does.
-/

namespace UnsoloKey

open Rd Cbor Trace

/-- A canonical MakeCredential for the account. -/
structure Command.RegistersAccount (c : Command) (rpId userId : List UInt8) : Prop where
  rpId : c.RegistersFor rpId
  userId : c.EntityHas 3 (ascii "id") userId

/-- The command has written a credential to slot `i`. -/
def Outcome.WritesSlot (o : Outcome) (i : Slot) : Prop :=
  ∃ k : ResidentKey, o.ops = writePageOps (slotAddr i) k.toBytes

/-- The step leaves a credential in slot `i`, so it neither deletes it nor resets the
store. -/
def KeepsSlot (i : Slot) (d : Device) (c : Command) : Prop :=
  ∀ d', d.step c = some d' → (d'.flash.mem.slotKey i).magic = passkeyMagic

/-- A user id which MakeCredential reads has at most 64 bytes. -/
def Command.ShortUserId (c : Command) : Prop :=
  c.req 0 = 0x01 → ∀ r, (registrationOf c.env c.reqLen).run c.req = some r →
    r.userId.length ≤ 64

/-- The first slot with the account. -/
def AccountSlot (m : Mem) (rpIdHash : Bytes 32) (userId : List UInt8) (i : Slot) : Prop :=
  FirstSlot (fun j => holdsUser m rpIdHash userId j = true) i

/-! ## Reading the account -/

section

variable {c : Command} {rpId userId : List UInt8}

theorem userStrings_string {m : Mem} {item : Option (ℕ × ℕ)} :
    (userStrings item).Returns m fun user =>
      (entityString (ascii "id") item).run m = some user.1 := by
  cases item with
  | none => exact Returns.pure rfl
  | some found => exact userStrings_id

theorem registrationOf_userId (hc : c.EntityHas 3 (ascii "id") userId) :
    (registrationOf c.env c.reqLen).Returns c.req fun r => r.userId = byteCut userId := by
  obtain ⟨item, found, hitem, hfound, hreads⟩ :=
    hc.reads c.env (by decide) (by omega) (by omega)
  unfold registrationOf
  refine Returns.bind fun rpItem => Returns.bind fun rpId => Returns.bind fun hash =>
    Returns.bind_run fun userItem huserItem => Returns.bind_run fun user huser =>
    Returns.bind fun readRpId => Returns.bind_run fun readUserId hread =>
    Returns.bind fun readName => Returns.pure ?_
  rw [hitem, Option.some.injEq] at huserItem
  subst huserItem
  have hid : user.1 = found := by
    have hrun := userStrings_string user huser
    rw [hfound, Option.some.injEq] at hrun
    exact hrun.symm
  rw [hid, hreads.readString, Option.some.injEq] at hread
  exact hread.symm

theorem Command.RegistersAccount.reads (hc : c.RegistersAccount rpId userId) :
    (registrationOf c.env c.reqLen).Returns c.req fun r =>
      r.rpIdHash = rpHash (byteCut rpId) ∧ r.userId = byteCut userId := by
  intro r hr
  have hhash := (registrationOf_rpIdHash r hr).symm.trans (mcRpIdHash_registersFor hc.rpId)
  exact ⟨Option.some.inj hhash, registrationOf_userId hc.userId r hr⟩

end

/-! ## The slot of an account -/

section

variable {m m' : Mem} {i j : Slot} {rpIdHash : Bytes 32} {userId : List UInt8}
  {r : Registration} {env : Env}

theorem holdsUser_congr (hlen : userId.length ≤ 64) (h : m'.slotKey j = m.slotKey j) :
    holdsUser m' rpIdHash userId j = holdsUser m rpIdHash userId j := by
  simp only [holdsUser, slice_userId _ _ hlen, h]

theorem holdsUser_magic (h : holdsUser m rpIdHash userId i = true) :
    (m.slotKey i).magic = passkeyMagic := by
  simp only [holdsUser, decide_eq_true_eq] at h
  exact h.1

/-- A slot just written holds the account of the registration and no other. -/
theorem holdsUser_written (hr : r.userId.length ≤ 64) (hlen : userId.length ≤ 64)
    (hkey : m.slotKey i = r.key env) :
    holdsUser m rpIdHash userId i = true ↔ r.rpIdHash = rpIdHash ∧ r.userId = userId := by
  have htake : r.userId.take 64 = r.userId := List.take_of_length_le hr
  have hstored : (UInt8.ofNat r.userId.length).toNat = r.userId.length := by
    rw [UInt8.toNat_ofNat']
    omega
  simp only [holdsUser, slice_userId _ _ hlen, hkey, Registration.key, newKey, htake,
    hstored, true_and, decide_eq_true_eq]
  constructor
  · rintro ⟨hhash, hlength, hbytes⟩
    refine ⟨hhash, ?_⟩
    rw [← hbytes, ← hlength]
    exact (Bytes.fill_take hr).symm
  · rintro ⟨hhash, rfl⟩
    exact ⟨hhash, rfl, Bytes.fill_take hr⟩

theorem not_holdsUser_of_erased (h : m.slotBytes i = erasedPage) :
    ¬ holdsUser m rpIdHash userId i = true := by
  intro hholds
  have hmagic := holdsUser_magic hholds
  rw [slotKey_magic_of_erased h] at hmagic
  exact passkeyMagic_ne_emptyMagic hmagic.symm

theorem AccountSlot.holds (h : AccountSlot m rpIdHash userId i) :
    holdsUser m rpIdHash userId i = true :=
  h.1

theorem AccountSlot.before (h : AccountSlot m rpIdHash userId i) (hj : j < i) :
    ¬ holdsUser m rpIdHash userId j = true :=
  h.2 j hj

theorem AccountSlot.congr (hlen : userId.length ≤ 64) (h : AccountSlot m rpIdHash userId i)
    (hsame : ∀ j ≤ i, m'.slotKey j = m.slotKey j) : AccountSlot m' rpIdHash userId i := by
  constructor
  · dsimp only
    rw [holdsUser_congr hlen (hsame i le_rfl)]
    exact h.holds
  · intro j hj
    dsimp only
    rw [holdsUser_congr hlen (hsame j hj.le)]
    exact h.before hj

/-- A registration of an account which has a slot takes that slot. -/
theorem AccountSlot.slotFor (h : AccountSlot m r.rpIdHash r.userId i) (hj : SlotFor m r j) :
    j = i := by
  rcases hj with hj | ⟨hnone, -⟩
  · rcases lt_trichotomy j i with hlt | heq | hlt
    · exact absurd hj.1 (h.before hlt)
    · exact heq
    · exact absurd h.holds (hj.2 i hlt)
  · have hhere := h.holds
    rw [hnone i] at hhere
    exact absurd hhere Bool.false_ne_true

/-- A registration which takes the slot of an account is one of the account. -/
theorem AccountSlot.registration_eq (h : AccountSlot m rpIdHash userId i)
    (hr : r.userId.length ≤ 64) (hlen : userId.length ≤ 64) (hi : SlotFor m r i) :
    r.rpIdHash = rpIdHash ∧ r.userId = userId := by
  have hhere := h.holds
  rcases hi with hi | ⟨-, hi⟩
  · have htaken := hi.1
    simp only [holdsUser, slice_userId _ _ hr, slice_userId _ _ hlen, decide_eq_true_eq]
      at hhere htaken
    obtain ⟨-, hhash, hlength, hbytes⟩ := hhere
    obtain ⟨-, hhash', hlength', hbytes'⟩ := htaken
    refine ⟨hhash'.symm.trans hhash, ?_⟩
    rw [← hbytes, ← hbytes', ← hlength, ← hlength']
  · have hmagic := holdsUser_magic hhere
    rw [hi.1] at hmagic
    exact absurd hmagic.symm passkeyMagic_ne_emptyMagic

/-- An account keeps its slot over a command which leaves a credential there. -/
theorem AccountSlot.change {c : Command} {o : Outcome} (h : AccountSlot m rpIdHash userId i)
    (hlen : userId.length ≤ 64) (hshort : c.ShortUserId) (hchange : SlotChange c o m m')
    (hmagic : (m'.slotKey i).magic = passkeyMagic) : AccountSlot m' rpIdHash userId i := by
  have hnotErased : ¬ m'.slotBytes i = erasedPage := by
    intro herased
    rw [slotKey_magic_of_erased herased] at hmagic
    exact passkeyMagic_ne_emptyMagic hmagic.symm
  cases hchange with
  | kept hkept _ => exact h.congr hlen fun j _ => slotKey_of_slotBytes (hkept j)
  | registered r k hcmd hread hslot hwritten hothers _ =>
      have hr := hshort hcmd r hread
      have hkey := slotKey_of_written (show passkeyMagic < 2 ^ 32 by decide) hwritten
      by_cases hk : k = i
      · subst hk
        have haccount := h.registration_eq hr hlen hslot
        refine ⟨(holdsUser_written hr hlen hkey).2 haccount, fun j hj => ?_⟩
        dsimp only
        rw [holdsUser_congr hlen (slotKey_of_onlySlot hothers hj.ne)]
        exact h.before hj
      · refine ⟨?_, fun j hj => ?_⟩
        · dsimp only
          rw [holdsUser_congr hlen (slotKey_of_onlySlot hothers (Ne.symm hk))]
          exact h.holds
        · dsimp only
          by_cases hjk : j = k
          · -- the slot just written is not one of the account, which would have been found
            subst hjk
            rw [holdsUser_written hr hlen hkey]
            rintro ⟨rfl, rfl⟩
            exact hk (h.slotFor hslot)
          · rw [holdsUser_congr hlen (slotKey_of_onlySlot hothers hjk)]
            exact h.before hj
  | deleted id p n k _ _ _ _ _ _ herased hothers _ =>
      have hk : i ≠ k := by
        rintro rfl
        exact hnotErased herased
      refine ⟨?_, fun j hj => ?_⟩
      · dsimp only
        rw [holdsUser_congr hlen (slotKey_of_onlySlot hothers hk)]
        exact h.holds
      · dsimp only
        by_cases hjk : j = k
        · subst hjk
          exact not_holdsUser_of_erased herased
        · rw [holdsUser_congr hlen (slotKey_of_onlySlot hothers hjk)]
          exact h.before hj
  | reset _ herased _ _ => exact absurd (herased i) hnotErased

/-- A registration leaves its account in the slot which it takes. -/
theorem accountSlot_of_written (hlen : r.userId.length ≤ 64) (hslot : SlotFor m r i)
    (hkey : m'.slotKey i = r.key env) (hothers : ∀ j ≠ i, m'.slotKey j = m.slotKey j) :
    AccountSlot m' r.rpIdHash r.userId i := by
  refine ⟨(holdsUser_written hlen hlen hkey).2 ⟨rfl, rfl⟩, fun j hj => ?_⟩
  dsimp only
  rw [holdsUser_congr hlen (hothers j hj.ne)]
  rcases hslot with hslot | ⟨hnone, -⟩
  · exact hslot.2 j hj
  · rw [hnone j]
    exact Bool.false_ne_true

end

/-! ## The commands -/

/-- A registration puts its credential in the place of the one in slot `i`. -/
structure Replaces (d : Device) (o : Outcome) (i : Slot) : Prop where
  writes : o.WritesSlot i
  others : ∀ j ≠ i, (d.after o).flash.mem.slotKey j = d.flash.mem.slotKey j
  count : passkeyCountAll (d.after o).flash.mem = passkeyCountAll d.flash.mem

section

variable {d d' : Device} {c : Command} {cs : List Command} {o : Outcome} {i j : Slot}
  {rpIdHash : Bytes 32} {rpId userId : List UInt8}

theorem Outcome.WritesSlot.unique (h : o.WritesSlot i) (h' : o.WritesSlot j) : i = j := by
  obtain ⟨k, hops⟩ := h
  obtain ⟨k', hops'⟩ := h'
  have haddr : slotAddr i = slotAddr j := by
    rw [hops] at hops'
    simp only [writePageOps, writeSteps, List.cons_append, List.cons.injEq,
      FlashOp.erasePage.injEq] at hops'
    exact hops'.2.1
  by_contra hne
  have hapart := slotAddr_disjoint hne
  have hsize : passkeyPageSize = 256 := rfl
  omega

theorem accountSlot_run (hlen : userId.length ≤ 64) (hrun : Run Device.step d cs d')
    (hguard : Run.Guarded Device.step (fun d c => KeepsSlot i d c ∧ c.ShortUserId) d cs)
    (h : AccountSlot d.flash.mem rpIdHash userId i) :
    AccountSlot d'.flash.mem rpIdHash userId i := by
  refine Run.invariant_of_guard (P := fun d => AccountSlot d.flash.mem rpIdHash userId i)
    ?_ hrun hguard h
  rintro s c t hs ⟨hkeeps, hshort⟩ hstep
  have hmagic := hkeeps t hstep
  obtain ⟨o, ho, rfl⟩ := Option.map_eq_some_iff.1 hstep
  exact hs.change hlen hshort (credentialSlots_change ho) hmagic

theorem mcDecision_refused {reqLen : ℕ} {m : Mem} :
    (mcDecision d reqLen).Returns m fun decision =>
      ∀ status, decision = .error status → status ≠ 0x28 := by
  unfold mcDecision
  refine Returns.bind fun cdh => Returns.bind fun pinAuth => ?_
  cases pinAuth with
  | some p =>
      refine Returns.ite (fun _ => Returns.pure ?_) fun _ => Returns.bind fun _ =>
        Returns.bind fun valid => Returns.ite (fun _ => Returns.pure ?_) fun _ =>
        Returns.pure (by simp)
      · rintro status ⟨⟩
        split <;> decide
      · rintro status ⟨⟩
        decide
  | none =>
      refine Returns.bind fun options => ?_
      cases options with
      | none => exact Returns.pure (by simp)
      | some v =>
          have hrefused : (optionsRefused (pinLoad d.flash.mem).isSome v.ptr reqLen).Returns m
              fun refused => ∀ status, refused = some status → status ≠ 0x28 := by
            unfold optionsRefused
            refine Returns.bind fun uv => Returns.bind fun rk =>
              Returns.ite (fun _ => Returns.pure ?_) fun _ =>
              Returns.ite (fun _ => Returns.pure ?_) fun _ => Returns.pure (by simp)
            · rintro status ⟨⟩
              split <;> decide
            · rintro status ⟨⟩
              decide
          refine Returns.bind_of hrefused fun refused hstatus => ?_
          cases refused with
          | some status =>
              refine Returns.pure ?_
              rintro status' ⟨⟩
              exact hstatus status rfl
          | none => exact Returns.pure (by simp)

/-- The store is full only where the account has no slot. -/
theorem makeCredential_full {env : Env} {reqLen : ℕ} {m : Mem} :
    (makeCredential env d reqLen).Returns m fun o => o.status = some 0x28 →
      ∃ r, (registrationOf env reqLen).run m = some r ∧
        saveSlot d.flash.mem r.rpIdHash r.userId = none := by
  intro o ho hfull
  cases makeCredential_effect o ho with
  | refused status _ hdecision ho =>
      rw [ho, reply_status] at hfull
      exact absurd (Option.some.inj hfull) (mcDecision_refused _ hdecision status rfl)
  | untouched cdh verified _ _ ho =>
      rw [ho, replyUnder_status] at hfull
      have hne : env.presence.status ≠ 0x28 := by cases env.presence <;> decide
      exact absurd (Option.some.inj hfull) hne
  | registered cdh verified _ _ heffect =>
      cases heffect with
      | excluded _ ho =>
          rw [ho, replyUnder_status] at hfull
          exact absurd (Option.some.inj hfull) (by decide)
      | full r hread hslot _ => exact ⟨r, hread, hslot⟩
      | saved r i cdhBytes _ _ _ _ ho =>
          have hok : o.status = some 0x00 := by
            rw [ho]
            rfl
          rw [hok] at hfull
          exact absurd (Option.some.inj hfull) (by decide)

theorem Command.RegistersAccount.outcome_eq (hc : c.RegistersAccount rpId userId) :
    d.outcome c = (makeCredential c.env (d.onChannel c.cid) c.reqLen).run c.req := by
  obtain ⟨entries, hcarries⟩ := hc.rpId.carries
  rw [UnsoloKey.outcome_eq hcarries.reqLen_ne_zero, hcarries.cmd_eq]
  rfl

/-- What a successful registration of the account has written. -/
theorem Command.RegistersAccount.saved (hc : c.RegistersAccount rpId userId)
    (hlen : userId.length ≤ 64) (ho : d.outcome c = some o) (hok : o.status = some 0x00) :
    ∃ r j, r.rpIdHash = rpHash (byteCut rpId) ∧ r.userId = userId ∧
      SlotFor d.flash.mem r j ∧ o.WritesSlot j ∧
      (d.after o).flash.mem.slotKey j = r.key c.env ∧
      ∀ k ≠ j, (d.after o).flash.mem.slotKey k = d.flash.mem.slotKey k := by
  rw [hc.outcome_eq] at ho
  obtain ⟨r, j, hsaved⟩ := makeCredential_saved o ho hok
  obtain ⟨hhash, huser⟩ := hc.reads r hsaved.read
  rw [byteCut_of_le (by omega)] at huser
  have hkey : ∀ k, (d.after o).flash.mem.slotKey k =
      if k = j then r.key c.env else d.flash.mem.slotKey k := fun k => by
    rw [Device.after, Flash.run_mem, hsaved.ops]
    exact slotKey_after_write _ j k (show passkeyMagic < 2 ^ 32 by decide)
  exact ⟨r, j, hhash, huser, slotFor_of_saveSlot hsaved.slot, ⟨_, hsaved.ops⟩,
    (hkey j).trans (if_pos rfl), fun k hk => (hkey k).trans (if_neg hk)⟩

theorem registersAccount_accountSlot (hc : c.RegistersAccount rpId userId)
    (hlen : userId.length ≤ 64) (ho : d.outcome c = some o) (hok : o.status = some 0x00) :
    ∃ i, o.WritesSlot i ∧
      AccountSlot (d.after o).flash.mem (rpHash (byteCut rpId)) userId i := by
  obtain ⟨r, i, hhash, huser, hslot, hwrites, hkey, hothers⟩ := hc.saved hlen ho hok
  refine ⟨i, hwrites, ?_⟩
  rw [← hhash, ← huser]
  exact accountSlot_of_written (by rw [huser]; exact hlen) hslot hkey hothers

theorem AccountSlot.not_full (h : AccountSlot d.flash.mem (rpHash (byteCut rpId)) userId i)
    (hc : c.RegistersAccount rpId userId) (hlen : userId.length ≤ 64)
    (ho : d.outcome c = some o) : o.status ≠ some 0x28 := by
  intro hfull
  rw [hc.outcome_eq] at ho
  obtain ⟨r, hread, hslot⟩ := makeCredential_full o ho hfull
  obtain ⟨hhash, huser⟩ := hc.reads r hread
  rw [byteCut_of_le (by omega)] at huser
  rw [hhash, huser, saveSlot, Option.or_eq_none_iff, List.find?_eq_none] at hslot
  exact hslot.1 i (mem_slots i) h.holds

theorem countAll_congr {m m' : Mem} (hmagic : ∀ j,
    (m'.slotKey j).magic = passkeyMagic ↔ (m.slotKey j).magic = passkeyMagic) :
    passkeyCountAll m' = passkeyCountAll m := by
  refine List.countP_congr fun j _ => ?_
  rw [isOccupied_iff, isOccupied_iff]
  exact hmagic j

theorem AccountSlot.replaces (h : AccountSlot d.flash.mem (rpHash (byteCut rpId)) userId i)
    (hc : c.RegistersAccount rpId userId) (hlen : userId.length ≤ 64)
    (ho : d.outcome c = some o) (hok : o.status = some 0x00) : Replaces d o i := by
  obtain ⟨r, j, hhash, huser, hslot, hwrites, hkey, hothers⟩ := hc.saved hlen ho hok
  rw [← hhash, ← huser] at h
  obtain rfl := h.slotFor hslot
  refine ⟨hwrites, hothers, countAll_congr fun k => ?_⟩
  by_cases hk : k = j
  · subst hk
    exact iff_of_true (by rw [hkey]; rfl) (holdsUser_magic h.holds)
  · rw [hothers k hk]

theorem AccountSlot.not_taken {userId' : List UInt8}
    (h : AccountSlot d.flash.mem rpIdHash userId i) (hlen : userId.length ≤ 64)
    (hc : c.RegistersAccount rpId userId') (hlen' : userId'.length ≤ 64)
    (hne : userId' ≠ userId) (ho : d.outcome c = some o) (hok : o.status = some 0x00) :
    ¬ o.WritesSlot i := by
  intro hi
  obtain ⟨r, j, -, huser, hslot, hwrites, -, -⟩ := hc.saved hlen' ho hok
  obtain rfl := hi.unique hwrites
  have hsame := (h.registration_eq (by rw [huser]; exact hlen') hlen hslot).2
  exact hne (huser.symm.trans hsame)

theorem Command.RegistersAccount.magic_kept (hc : c.RegistersAccount rpId userId)
    (hlen : userId.length ≤ 64) (ho : d.outcome c = some o) (hok : o.status = some 0x00)
    (hmagic : (d.flash.mem.slotKey i).magic = passkeyMagic ∨ o.WritesSlot i) :
    ((d.after o).flash.mem.slotKey i).magic = passkeyMagic := by
  obtain ⟨r, j, -, -, -, hwrites, hkey, hothers⟩ := hc.saved hlen ho hok
  by_cases hi : i = j
  · subst hi
    rw [hkey]
    rfl
  · rw [hothers i hi]
    exact hmagic.resolve_right fun h => hi (h.unique hwrites)

theorem Command.RegistersAccount.shortUserId (hc : c.RegistersAccount rpId userId)
    (hlen : userId.length ≤ 64) : c.ShortUserId := by
  intro _ r hr
  rw [(hc.reads r hr).2, byteCut_of_le (by omega)]
  exact hlen

end

/-- In a run in which every user id has at most 64 bytes, an account keeps its slot as
long as its credential is there: registering it again replaces that credential, and
registering another user does not. -/
theorem account_keeps_slot (d : Device) (c : Command) (o : Outcome)
    (rpId userId : List UInt8) (hc : c.RegistersAccount rpId userId)
    (hlen : userId.length ≤ 64) (ho : d.outcome c = some o) (hok : o.status = some 0x00) :
    ∃ i, o.WritesSlot i ∧ ∀ (cs : List Command) (d' : Device),
      Run Device.step (d.after o) cs d' →
      Run.Guarded Device.step (fun s a => KeepsSlot i s a ∧ a.ShortUserId) (d.after o) cs →
      ∀ (c' : Command) (o' : Outcome) (rpId' userId' : List UInt8),
        c'.RegistersAccount rpId' userId' → userId'.length ≤ 64 →
        d'.outcome c' = some o' →
        (rpId' = rpId → userId' = userId →
          o'.status ≠ some 0x28 ∧ (o'.status = some 0x00 → Replaces d' o' i)) ∧
        (userId' ≠ userId → o'.status = some 0x00 → ¬ o'.WritesSlot i) := by
  obtain ⟨i, hwrites, haccount⟩ := registersAccount_accountSlot hc hlen ho hok
  refine ⟨i, hwrites, fun cs d' hrun hguard c' o' rpId' userId' hc' hlen' ho' => ?_⟩
  have hkept := accountSlot_run hlen hrun hguard haccount
  refine ⟨?_, fun hne hok' => hkept.not_taken hlen hc' hlen' hne ho' hok'⟩
  rintro rfl rfl
  exact ⟨hkept.not_full hc' hlen ho', hkept.replaces hc' hlen ho'⟩

theorem accountCommand_registersAccount {rpId userId : List UInt8}
    (hfits : (accountCommand rpId userId).reqLen ≤ 1024) :
    (accountCommand rpId userId).RegistersAccount rpId userId where
  rpId := accountCommand_registersFor hfits
  userId := accountCommand_user hfits (.found [] [] (.bytes userId) (by simp))

theorem account_keeps_slot_other_between : ∃ o₁ o₂ o₃ i,
    (Device.powerUp fun _ => 0xFF).outcome (accountCommand [0x61] [0x01]) = some o₁ ∧
      ((Device.powerUp fun _ => 0xFF).after o₁).outcome
        (accountCommand [0x62] [0x02]) = some o₂ ∧
      o₂.status = some 0x00 ∧
      (((Device.powerUp fun _ => 0xFF).after o₁).after o₂).outcome
        (accountCommand [0x61] [0x01]) = some o₃ ∧
      Replaces (((Device.powerUp fun _ => 0xFF).after o₁).after o₂) o₃ i := by
  have hruns : ((Device.powerUp fun _ => 0xFF).outcome (accountCommand [0x61] [0x01])).any
      (fun o₁ => decide (o₁.status = some 0x00) &&
        (((Device.powerUp fun _ => 0xFF).after o₁).outcome (accountCommand [0x62] [0x02])).any
          fun o₂ => decide (o₂.status = some 0x00) &&
            ((((Device.powerUp fun _ => 0xFF).after o₁).after o₂).outcome
              (accountCommand [0x61] [0x01])).any fun o₃ => o₃.status = some 0x00) = true := by
    decide +kernel
  obtain ⟨o₁, ho₁, hrest⟩ := (Option.any_eq_true _ _).1 hruns
  obtain ⟨hok₁, hrest⟩ := Bool.and_eq_true_iff.1 hrest
  obtain ⟨o₂, ho₂, hrest⟩ := (Option.any_eq_true _ _).1 hrest
  obtain ⟨hok₂, hrest⟩ := Bool.and_eq_true_iff.1 hrest
  obtain ⟨o₃, ho₃, hok₃⟩ := (Option.any_eq_true _ _).1 hrest
  rw [decide_eq_true_eq] at hok₁ hok₂ hok₃
  have hc : (accountCommand [0x61] [0x01]).RegistersAccount [0x61] [0x01] :=
    accountCommand_registersAccount (by decide +kernel)
  have hother : (accountCommand [0x62] [0x02]).RegistersAccount [0x62] [0x02] :=
    accountCommand_registersAccount (by decide +kernel)
  obtain ⟨i, hwrites, hkeeps⟩ := account_keeps_slot _ _ o₁ _ _ hc (by decide) ho₁ hok₁
  have hstep : ((Device.powerUp fun _ => 0xFF).after o₁).step (accountCommand [0x62] [0x02]) =
      some (((Device.powerUp fun _ => 0xFF).after o₁).after o₂) := by
    rw [Device.step, ho₂, Option.map_some]
  have hmagic := hc.magic_kept (by decide) ho₁ hok₁ (.inr hwrites)
  have hkept : KeepsSlot i ((Device.powerUp fun _ => 0xFF).after o₁)
      (accountCommand [0x62] [0x02]) := by
    intro d' hd'
    rw [hstep, Option.some.injEq] at hd'
    subst hd'
    exact hother.magic_kept (by decide) ho₂ hok₂ (.inl hmagic)
  have hagain := (hkeeps _ _ (.single hstep)
    (.single ⟨hkept, hother.shortUserId (by decide)⟩) _ o₃ _ _ hc (by decide) ho₃).1 rfl rfl
  exact ⟨o₁, o₂, o₃, i, ho₁, ho₂, hok₂, ho₃, hagain.2 hok₃⟩

/-- With a user id of 65 bytes the account takes a second slot. -/
theorem longUser_takes_slot :
    ¬ ∀ (d : Device) (c : Command) (o o' : Outcome) (rpId userId : List UInt8),
      c.RegistersAccount rpId userId → d.outcome c = some o → o.status = some 0x00 →
      (d.after o).outcome c = some o' → o'.status = some 0x00 →
      passkeyCountAll ((d.after o).after o').flash.mem =
        passkeyCountAll (d.after o).flash.mem := by
  intro hall
  have hruns : ((Device.powerUp fun _ => 0xFF).outcome
      (accountCommand [0x61] (List.replicate 65 0x01))).any (fun o =>
      decide (o.status = some 0x00) && (((Device.powerUp fun _ => 0xFF).after o).outcome
        (accountCommand [0x61] (List.replicate 65 0x01))).any fun o' =>
        decide (o'.status = some 0x00) && decide
          (passkeyCountAll (((Device.powerUp fun _ => 0xFF).after o).after o').flash.mem ≠
            passkeyCountAll ((Device.powerUp fun _ => 0xFF).after o).flash.mem)) = true := by
    decide +kernel
  obtain ⟨o, ho, hboth⟩ := (Option.any_eq_true _ _).1 hruns
  rw [Bool.and_eq_true, decide_eq_true_eq] at hboth
  obtain ⟨o', ho', hok'⟩ := (Option.any_eq_true _ _).1 hboth.2
  rw [Bool.and_eq_true, decide_eq_true_eq, decide_eq_true_eq] at hok'
  exact hok'.2 (hall _ _ o o' _ _ (accountCommand_registersAccount (by decide +kernel)) ho
    hboth.1 ho'
    hok'.1)

end UnsoloKey
