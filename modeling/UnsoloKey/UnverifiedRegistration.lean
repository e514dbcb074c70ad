import UnsoloKey.SlotChanges
import Mathlib.Tactic

/-!
# Registrations without the PIN

MakeCredential asks for a pinUvAuthParam only when the options ask for `rk` or
`uv`.  Its only store, however, is the one which GetAssertion and the enumeration
search, so a request which asks for neither also leaves a discoverable credential
there.
-/

namespace UnsoloKey

open Rd

/-- The pinUvAuthParam of a MakeCredential request verifies. -/
def Command.ValidPinAuth (c : Command) (s : PinSession) : Prop :=
  ∃ cdh p n, (getCborMapString 1 (c.reqLen - 1) 0x01).run c.req = some cdh ∧
    (getCborMapString 1 (c.reqLen - 1) 0x08).run c.req = some (some (p, n)) ∧
    (pinAuthValid s cdh p n).run c.req = some true

def Command.HasPinAuth (c : Command) : Prop :=
  ∃ p, (getCborMapString 1 (c.reqLen - 1) 0x08).run c.req = some (some p)

/-- The options of the request set `key` to true. -/
def Command.AsksFor (c : Command) (key : String) : Prop :=
  ∃ options, (getCborMapValue 1 (c.reqLen - 1) 0x07).run c.req = some (some options) ∧
    (hasOption options.ptr (searchLen c.reqLen options.ptr) key 0xF5).run c.req =
      some true

/-- The command saves a credential which the lookup of GetAssertion and of
enumerateCredentials then finds for its relying party. -/
def SavesCredential (d : Device) (o : Outcome) : Prop :=
  ∃ i k n, o.ops = writePageOps (slotAddr i) k.toBytes ∧
    passkeyGetByRpIndex (d.after o).flash.mem k.rpIdHash n = some i ∧
    (d.after o).flash.mem.slotKey i = k

/-- What keeps a MakeCredential request from saving a credential. -/
inductive RegistrationStopped (d : Device) (c : Command) : Prop
  | pinAuth (h : c.HasPinAuth)
  | options (h : c.AsksFor "uv" ∨ c.AsksFor "rk")
  | touch (h : c.env.presence ≠ .confirmed)
  | excluded (h : (registrationExcluded c.env d.flash.mem c.reqLen).run c.req =
      some true)
  | full (r : Registration) (hread : (registrationOf c.env c.reqLen).run c.req = some r)
      (hslot : saveSlot d.flash.mem r.rpIdHash r.userId = none)

section

variable {d : Device} {c : Command} {o : Outcome}

theorem optionsRefused_iff {options reqLen : ℕ} {m : Mem} :
    (optionsRefused true options reqLen).Returns m fun refused => refused.isSome ↔
      (hasOption options (searchLen reqLen options) "uv" 0xF5).run m = some true ∨
      (hasOption options (searchLen reqLen options) "rk" 0xF5).run m = some true := by
  unfold optionsRefused
  refine Returns.bind_run fun uv huv => Returns.bind_run fun rk hrk => ?_
  rw [huv, hrk]
  refine Returns.ite (fun h => Returns.pure (by simp [h])) fun h =>
    Returns.ite (fun h' => Returns.pure (by simp [h'])) fun h' => Returns.pure ?_
  simp_all

theorem mcDecision_pinSet (hset : (pinLoad d.flash.mem).isSome) :
    (mcDecision d c.reqLen).Returns c.req fun decision => match decision with
      | .error _ => c.HasPinAuth ∨ c.AsksFor "uv" ∨ c.AsksFor "rk"
      | .ok _ => c.ValidPinAuth d.pin ∨
          ¬ c.HasPinAuth ∧ ¬ c.AsksFor "uv" ∧ ¬ c.AsksFor "rk" := by
  unfold mcDecision
  refine Returns.bind_run fun cdh hcdh => Returns.bind_run fun pinAuth hpinAuth => ?_
  cases pinAuth with
  | some p =>
      have hhas : c.HasPinAuth := ⟨p, hpinAuth⟩
      refine Returns.ite (fun _ => Returns.pure (.inl hhas)) fun _ =>
        Returns.bind fun _ => Returns.bind_run fun valid hvalid =>
        Returns.ite (fun _ => Returns.pure (.inl hhas)) fun hok => Returns.pure ?_
      rw [not_not] at hok
      subst hok
      exact .inl ⟨cdh, p.1, p.2, hcdh, hpinAuth, hvalid⟩
  | none =>
      have hnone : ¬ c.HasPinAuth := by
        rintro ⟨p, hp⟩
        rw [hpinAuth] at hp
        cases hp
      refine Returns.bind_run fun options hoptions => ?_
      have hasks : ∀ key, c.AsksFor key ↔ ∃ v, options = some v ∧
          (hasOption v.ptr (searchLen c.reqLen v.ptr) key 0xF5).run c.req =
            some true := by
        intro key
        simp [Command.AsksFor, hoptions]
      cases options with
      | none => exact Returns.pure (.inr ⟨hnone, by simp [hasks], by simp [hasks]⟩)
      | some v =>
          rw [hset]
          refine Returns.bind_of optionsRefused_iff fun refused hrefused => ?_
          cases refused with
          | some status =>
              refine Returns.pure (.inr ?_)
              simpa [hasks] using hrefused
          | none =>
              refine Returns.pure (.inr ⟨hnone, ?_⟩)
              simpa [hasks] using hrefused

theorem not_saves_of_noOps (h : o.ops = []) : ¬ SavesCredential d o := by
  rintro ⟨i, k, n, hops, -⟩
  rw [h] at hops
  simp [writePageOps] at hops

theorem saves_of_write {i : Slot} {k : ResidentKey} (hmagic : k.magic = passkeyMagic)
    (h : o.ops = writePageOps (slotAddr i) k.toBytes) : SavesCredential d o := by
  have hkey : (d.after o).flash.mem.slotKey i = k := by
    rw [Device.after, Flash.run_mem, h,
      slotKey_after_write _ i i (by rw [hmagic]; decide), if_pos rfl]
  have hmem : i ∈ slots.filter (isOfRp (d.after o).flash.mem k.rpIdHash) := by
    simp [mem_slots, isOfRp, ResidentKey.isOccupied, hkey, hmagic]
  obtain ⟨n, hn⟩ := List.mem_iff_getElem?.1 hmem
  exact ⟨i, k, n, h, hn, hkey⟩

/-- A request without a valid pinUvAuthParam saves no discoverable credential
exactly when something stops it. -/
theorem unverified_not_saved_iff (hset : d.storedPin.isSome) (hlen : c.reqLen ≠ 0)
    (hcmd : c.req 0 = 0x01) (ho : d.outcome c = some o)
    (hinvalid : ¬ c.ValidPinAuth d.pin) :
    ¬ SavesCredential d o ↔ RegistrationStopped d c := by
  have hload : (pinLoad d.flash.mem).isSome := storedPin_isSome_iff.1 hset
  rw [outcome_eq hlen, hcmd] at ho
  have heffect : MakeCredentialEffect c.env (d.onChannel c.cid) c.reqLen c.req o :=
    makeCredential_effect o ho
  cases heffect with
  | refused status _ hdecision ho =>
      have hwhy := mcDecision_pinSet (d := d.onChannel c.cid) hload _ hdecision
      subst ho
      refine iff_of_true (not_saves_of_noOps rfl) ?_
      rcases hwhy with h | h
      · exact .pinAuth h
      · exact .options h
  | untouched cdh verified _ hpresence ho =>
      subst ho
      exact iff_of_true (not_saves_of_noOps rfl) (.touch hpresence)
  | registered cdh verified hdecision hpresence h =>
      have hwhy := (mcDecision_pinSet (d := d.onChannel c.cid) hload _
        hdecision).resolve_left hinvalid
      cases h with
      | excluded hex ho =>
          subst ho
          exact iff_of_true (not_saves_of_noOps rfl) (.excluded hex)
      | full r hread hslot ho =>
          subst ho
          exact iff_of_true (not_saves_of_noOps rfl) (.full r hread hslot)
      | saved r i cdhBytes hex hread hslot _ ho =>
          subst ho
          refine iff_of_false (not_not.2 (saves_of_write rfl rfl)) fun hstopped => ?_
          obtain ⟨hpinAuth, huv, hrk⟩ := hwhy
          cases hstopped with
          | pinAuth h => exact hpinAuth h
          | options h => exact h.elim huv hrk
          | touch h => exact h hpresence
          | excluded h =>
              have hfalse : some false = some true := hex.symm.trans h
              cases hfalse
          | full r' hread' hslot' =>
              have hsame : r = r' := Option.some.inj (hread.symm.trans hread')
              have hnone : saveSlot d.flash.mem r.rpIdHash r.userId = some i := hslot
              rw [hsame, hslot'] at hnone
              cases hnone

theorem saves_of_success (hlen : c.reqLen ≠ 0) (hcmd : c.req 0 = 0x01)
    (ho : d.outcome c = some o) (hstatus : o.status = some 0x00) :
    SavesCredential d o := by
  rw [outcome_eq hlen, hcmd] at ho
  have heffect : MakeCredentialEffect c.env (d.onChannel c.cid) c.reqLen c.req o :=
    makeCredential_effect o ho
  cases heffect with
  | refused status hnonzero _ ho =>
      subst ho
      exact absurd (Option.some.inj hstatus) hnonzero
  | untouched cdh verified _ hpresence ho =>
      subst ho
      exact absurd ((presence_status_eq_zero_iff _).1 (Option.some.inj hstatus)) hpresence
  | registered cdh verified _ _ h =>
      cases h with
      | excluded _ ho =>
          subst ho
          simp at hstatus
      | full r _ _ ho =>
          subst ho
          simp at hstatus
      | saved r i cdhBytes _ _ _ _ ho =>
          subst ho
          exact saves_of_write rfl rfl

end

theorem not_validPinAuth {c : Command} {s : PinSession}
    (h : (getCborMapString 1 (c.reqLen - 1) 0x08).run c.req = some none) :
    ¬ c.ValidPinAuth s := by
  rintro ⟨cdh, p, n, -, hfound, -⟩
  rw [h] at hfound
  cases hfound

/-- MakeCredential with the options `{"rk": true}`. -/
def residentCommand : Command :=
  hostCommand [0x01, 0xA1, 0x07, 0xA1, 0x62, 0x72, 0x6B, 0xF5]

theorem residentCommand_not_saved : ∃ o,
    (Device.powerUp (pinFlash 8)).outcome residentCommand = some o ∧
      ¬ SavesCredential (Device.powerUp (pinFlash 8)) o := by
  have hruns : ((Device.powerUp (pinFlash 8)).outcome residentCommand).isSome := by
    decide +kernel
  obtain ⟨o, ho⟩ := Option.isSome_iff_exists.1 hruns
  have hset : (Device.powerUp (pinFlash 8)).storedPin.isSome := by
    rw [pinFlash_storedPin]
    rfl
  have hstopped : RegistrationStopped (Device.powerUp (pinFlash 8)) residentCommand :=
    .options (.inr ⟨⟨4, 1, 0xA0⟩, by decide +kernel, by decide +kernel⟩)
  refine ⟨o, ho, (unverified_not_saved_iff hset (by decide) (by decide) ho ?_).2 hstopped⟩
  exact not_validPinAuth (by decide +kernel)

/-- A touched request without any options is registered and stored. -/
theorem unverified_saved : ¬ ∀ (mem : Mem) (before : List Command) (d : Device)
    (c : Command) (o : Outcome), Trace.Run Device.step (Device.powerUp mem) before d →
    d.storedPin.isSome → c.reqLen ≠ 0 → c.req 0 = 0x01 → d.outcome c = some o →
    ¬ c.ValidPinAuth d.pin → ¬ SavesCredential d o := by
  intro hclaim
  have hruns : ((Device.powerUp (pinFlash 8)).outcome registerCommand).any
      (fun o => o.status = some 0x00) = true := by decide +kernel
  obtain ⟨o, ho, hstatus⟩ := (Option.any_eq_true _ _).1 hruns
  have hset : (Device.powerUp (pinFlash 8)).storedPin.isSome := by
    rw [pinFlash_storedPin]
    rfl
  refine hclaim (pinFlash 8) [] _ registerCommand o (.nil _) hset (by decide)
    (by decide) ho (not_validPinAuth (by decide +kernel)) ?_
  exact saves_of_success (by decide) (by decide) ho (of_decide_eq_true hstatus)

end UnsoloKey
