import UnsoloKey.Login
import Mathlib.Tactic

/-!
# Credential lists

Neither list of credential descriptors is taken apart.  GetAssertion looks for the id
of each stored credential in the bytes of the whole request, and MakeCredential takes
every 32 bytes of the encoded excludeList for an id.  So every listed credential is
found, and so is one whose id stands anywhere else in these bytes.
-/

namespace UnsoloKey

open Rd Cbor

/-! ## Bytes inside a memory -/

theorem infix_slice_iff {m : Mem} {p n : ℕ} {bs : List UInt8} :
    bs <:+: m.slice p n ↔
      ∃ j, j + bs.length ≤ n ∧ m.slice (p + j) bs.length = bs := by
  constructor
  · rintro ⟨front, back, hslice⟩
    have hlen := congrArg List.length hslice
    simp only [List.length_append, Mem.slice_length] at hlen
    refine ⟨front.length, by omega, ?_⟩
    rw [← hlen, Nat.add_assoc, Mem.slice_add, Mem.slice_add] at hslice
    rw [List.append_assoc] at hslice
    have hrest := (List.append_inj hslice (by simp)).2
    exact (List.append_inj hrest (by simp)).1.symm
  · rintro ⟨j, hle, hslice⟩
    obtain ⟨k, rfl⟩ := Nat.exists_eq_add_of_le hle
    refine ⟨m.slice p j, m.slice (p + (j + bs.length)) k, ?_⟩
    rw [Mem.slice_add, Mem.slice_add, hslice]

section

variable {m flash : Mem} {rpIdHash : Bytes 32} {left ptr reqLen : ℕ}

theorem exists_lt_succ_window {P : ℕ → Prop} :
    (∃ j < left + 1, P (ptr + j)) ↔ P ptr ∨ ∃ j < left, P (ptr + 1 + j) := by
  constructor
  · rintro ⟨j, hj, hP⟩
    cases j with
    | zero => exact .inl hP
    | succ j => exact .inr ⟨j, by omega, by rwa [Nat.add_assoc, Nat.add_comm 1 j]⟩
  · rintro (hP | ⟨j, hj, hP⟩)
    · exact ⟨0, Nat.succ_pos _, hP⟩
    · exact ⟨j + 1, by omega, by rwa [Nat.add_assoc, Nat.add_comm 1 j] at hP⟩

theorem occursInRequest_run (wanted : Bytes 32) (left ptr : ℕ) :
    (occursInRequest wanted left ptr).run m =
      some (decide (∃ j < left, m.slice (ptr + j) 32 = wanted.val)) := by
  induction left generalizing ptr with
  | zero => simp [occursInRequest]
  | succ left ih =>
      rw [occursInRequest, run_bind, run_bytes, Option.bind_some, run_ite, run_pure, ih]
      simp only [exists_lt_succ_window (P := fun q => m.slice q 32 = wanted.val)]
      by_cases hhere : m.slice ptr 32 = wanted.val <;> simp [hhere]

/-- The search runs over the whole request. -/
theorem occursInRequest_all (wanted : Bytes 32) :
    (occursInRequest wanted (reqLen - 31) 0).run m =
      some (decide (wanted.val <:+: m.slice 0 reqLen)) := by
  have hwindows : (∃ j < reqLen - 31, m.slice (0 + j) 32 = wanted.val) ↔
      wanted.val <:+: m.slice 0 reqLen := by
    rw [infix_slice_iff, wanted.property]
    constructor
    · rintro ⟨j, hj, hslice⟩
      exact ⟨j, by omega, hslice⟩
    · rintro ⟨j, hj, hslice⟩
      exact ⟨j, by omega, hslice⟩
  rw [occursInRequest_run]
  exact congrArg some (decide_eq_decide.2 hwindows)

theorem findListed_run (candidates : List Slot) :
    (findListed flash rpIdHash reqLen candidates).run m = some (candidates.find? fun i =>
      isOfRp flash rpIdHash i ∧ (flash.slotKey i).credentialId.val <:+: m.slice 0 reqLen) := by
  induction candidates with
  | nil => rfl
  | cons i rest ih =>
      rw [findListed, run_ite, run_bind, occursInRequest_all, Option.bind_some, run_ite,
        run_pure, ih, List.find?_cons]
      by_cases hrp : isOfRp flash rpIdHash i = true <;>
        by_cases hoccurs : (flash.slotKey i).credentialId.val <:+: m.slice 0 reqLen <;>
        simp [hrp, hoccurs]

end

/-! ## The allowList -/

/-- GetAssertion with an allowList which is not an empty array, for the relying party
with this hash, as the command reads them. -/
structure Command.ListedAssertion (c : Command) (rpIdHash : Bytes 32) : Prop where
  len : c.reqLen ≠ 0
  cmd : c.req 0 = 0x02
  hash : (gaRpIdHash c.reqLen).run c.req = some rpIdHash
  allowList : ∃ v, (getCborMapValue 1 (c.reqLen - 1) 0x03).run c.req = some (some v) ∧
    ¬ (v.type = 0x80 ∧ v.len = 0)

/-- The bytes of the request. -/
def Command.message (c : Command) : List UInt8 := c.req.slice 0 c.reqLen

/-- The first credential of the relying party whose id stands somewhere in the
request. -/
def Device.occurringSlot (d : Device) (c : Command) (rpIdHash : Bytes 32) : Option Slot :=
  slots.find? fun i => isOfRp d.flash.mem rpIdHash i ∧
    (d.flash.mem.slotKey i).credentialId.val <:+: c.message

/-- The answer says that there is no credential, or else is not that one, and if it is
an assertion then for the credential. -/
def AnswersSlot (env : Env) (flash : Mem) (o : Outcome) : Option Slot → Prop
  | none => o.resp = [0x2E]
  | some i => o.resp ≠ [0x2E] ∧ (o.status = some 0x00 →
      ∃ authData cdh, o.resp = gaBuildResponse env flash i authData cdh 1)

section

variable {d : Device} {c : Command} {o : Outcome} {rpIdHash : Bytes 32} {env : Env}
  {m : Mem} {reqLen : ℕ} {cdh : Option (ℕ × ℕ)}

theorem answersSlot_error {i : Slot} {flash : Mem} {status : UInt8}
    (hresp : o.resp = [status]) (hzero : status ≠ 0x00) (hne : status ≠ 0x2E) :
    AnswersSlot env flash o (some i) := by
  constructor
  · rw [hresp]
    exact fun h => hne (List.singleton_inj.1 h)
  · intro hok
    rw [Outcome.status, hresp] at hok
    exact absurd (Option.some.inj hok) hzero

theorem assertionOptions_status {pinSet hasPinAuth : Bool} {options : Option MapValue} :
    (assertionOptions pinSet hasPinAuth options reqLen).Returns m fun decision =>
      ∀ status, decision = .error status → status = 0x35 ∨ status = 0x36 := by
  unfold assertionOptions
  cases options with
  | none => exact Returns.pure (by simp)
  | some v =>
      refine Returns.bind fun uv => Returns.ite (fun _ => Returns.pure ?_) fun _ =>
        Returns.bind fun preflight => Returns.pure (by simp)
      rintro status ⟨⟩
      cases pinSet
      · exact .inl rfl
      · exact .inr rfl

theorem presence_status_ne (presence : Presence) : presence.status ≠ 0x2E := by
  cases presence <;> decide

theorem assertCredential_answers {i : Slot} {verified : Option (List UInt8)}
    {hasPinAuth : Bool} :
    (assertCredential env d reqLen rpIdHash cdh i 1 verified hasPinAuth).Returns m
      fun o => AnswersSlot env d.flash.mem o (some i) := by
  unfold assertCredential
  refine Returns.bind fun options =>
    Returns.bind_of assertionOptions_status fun decision hdecision => ?_
  cases decision with
  | error status =>
      rcases hdecision status rfl with rfl | rfl
      · exact Returns.pure (answersSlot_error rfl (by decide) (by decide))
      · exact Returns.pure (answersSlot_error rfl (by decide) (by decide))
  | ok upRequired =>
      have hflash : (if upRequired then d.waited env else d).flash.mem = d.flash.mem := by
        split <;> rfl
      refine Returns.ite (fun hrefused => Returns.pure ?_) fun _ =>
        Returns.bind fun cdhBuf => Returns.pure ?_
      · exact answersSlot_error rfl hrefused.2 (presence_status_ne _)
      · rw [hflash]
        exact ⟨fun h => absurd (List.head_eq_of_cons_eq h) (by decide),
          fun _ => ⟨_, cdhBuf, rfl⟩⟩

theorem assertSelected_answers {selected : Option Slot} :
    (assertSelected env d reqLen rpIdHash cdh (selected.map fun i => (i, 1))).Returns m
      fun o => AnswersSlot env d.flash.mem o selected := by
  unfold assertSelected
  cases selected with
  | none => exact Returns.pure rfl
  | some i =>
      refine Returns.bind fun param => ?_
      cases param with
      | none => exact assertCredential_answers
      | some p =>
          refine Returns.bind fun valid => Returns.ite (fun _ => Returns.pure ?_) fun _ =>
            assertCredential_answers
          exact answersSlot_error rfl (by decide) (by decide)

theorem selectCredential_listed {v : MapValue} (hv : ¬ (v.type = 0x80 ∧ v.len = 0)) :
    (selectCredential d reqLen rpIdHash cdh (some v)).run m =
      some ((slots.find? fun i => isOfRp d.flash.mem rpIdHash i ∧
        (d.flash.mem.slotKey i).credentialId.val <:+: m.slice 0 reqLen).map fun i => (i, 1),
        { d.ctap with gGaCount := 0 }) := by
  unfold selectCredential
  rw [if_neg (by simpa using hv), run_bind, findListed_run]
  rfl

/-- The credential selected is the first one whose id stands in the request. -/
theorem listedAssertion_answers (hc : c.ListedAssertion rpIdHash)
    (ho : d.outcome c = some o) :
    AnswersSlot c.env d.flash.mem o (d.occurringSlot c rpIdHash) := by
  obtain ⟨v, hallow, hv⟩ := hc.allowList
  rw [outcome_eq hc.len, hc.cmd] at ho
  change (getAssertion c.env (d.onChannel c.cid) c.reqLen).run c.req = some o at ho
  simp only [getAssertion, run_bind_eq_some] at ho
  obtain ⟨rpId, hrpId, cdh, -, allowList, hallow', hash, hhash, selection, hselect, ho⟩ := ho
  rw [hallow, Option.some.injEq] at hallow'
  subst hallow'
  have hrp : hash = rpIdHash := by
    have hread := hc.hash
    rw [gaRpIdHash, run_bind, hrpId, Option.bind_some, hhash, Option.some.injEq] at hread
    exact hread
  subst hrp
  rw [selectCredential_listed hv, Option.some.injEq] at hselect
  subst hselect
  have hanswer : ∀ d' : Device, d'.flash = d.flash →
      (assertSelected c.env d' c.reqLen hash cdh
        ((d.occurringSlot c hash).map fun i => (i, 1))).Returns c.req
        fun o => AnswersSlot c.env d.flash.mem o (d.occurringSlot c hash) := by
    intro d' hflash
    rw [← hflash]
    exact assertSelected_answers
  exact hanswer
    { d.onChannel c.cid with ctap := { (d.onChannel c.cid).ctap with gGaCount := 0 } } rfl o ho

/-! ## Listed ids -/

theorem infix_encodeItems {x : Item} {items : List Item} (h : x ∈ items) :
    x.encode <:+: encodeItems items := by
  induction items with
  | nil => simp at h
  | cons y rest ih =>
      rw [encodeItems]
      rcases List.mem_cons.1 h with rfl | hrest
      · exact (List.prefix_append _ _).isInfix
      · exact (ih hrest).trans (List.suffix_append _ _).isInfix

theorem infix_encodeEntries {e : Entry} {entries : List Entry} (h : e ∈ entries) :
    e.2.encode <:+: encodeEntries entries := by
  induction entries with
  | nil => simp at h
  | cons e' rest ih =>
      obtain ⟨k, v⟩ := e'
      rw [encodeEntries]
      rcases List.mem_cons.1 h with rfl | hrest
      · exact (List.suffix_append _ _).isInfix.trans (List.prefix_append _ _).isInfix
      · exact (ih hrest).trans (List.suffix_append _ _).isInfix

/-- One of the descriptors has this id. -/
def Lists (descriptors : List Item) (id : List UInt8) : Prop :=
  ∃ descriptor, .map descriptor ∈ descriptors ∧ (.text (ascii "id"), .bytes id) ∈ descriptor

theorem Lists.infix_encode {descriptors : List Item} {id : List UInt8}
    (h : Lists descriptors id) : id <:+: (Item.array descriptors).encode := by
  obtain ⟨descriptor, hmem, hid⟩ := h
  have hbytes : id <:+: (Item.bytes id).encode := (List.suffix_append _ _).isInfix
  have hentry : (Item.bytes id).encode <:+: (Item.map descriptor).encode :=
    (infix_encodeEntries hid).trans (List.suffix_append _ _).isInfix
  have hitem : (Item.map descriptor).encode <:+: (Item.array descriptors).encode :=
    (infix_encodeItems hmem).trans (List.suffix_append _ _).isInfix
  exact hbytes.trans (hentry.trans hitem)

theorem Command.Carries.message_eq {cmd : UInt8} {entries : List Entry}
    (h : c.Carries cmd entries) : c.message = cmd :: (Item.map entries).encode := by
  have hholds := h.holds
  rw [Mem.Holds, List.length_cons, ← h.length] at hholds
  exact hholds

theorem Command.Carries.infix_message {cmd : UInt8} {entries : List Entry} {key : ℕ}
    {v : Item} (h : c.Carries cmd entries) (hv : HasEntry entries key v) :
    v.encode <:+: c.message := by
  obtain ⟨before, after, rfl, -, -⟩ := hv
  rw [h.message_eq]
  have hmap : v.encode <:+: (Item.map (before ++ (.uint key, v) :: after)).encode :=
    (infix_encodeEntries (e := (.uint key, v)) (by simp)).trans
      (List.suffix_append _ _).isInfix
  exact hmap.trans (List.suffix_cons _ _).isInfix

end

/-! ## The excludeList -/

/-- The first credential with this id belongs to the relying party. -/
def ExcludedId (flash : Mem) (rpIdHash : Bytes 32) (id : Bytes 32) : Prop :=
  ∃ i, passkeyFindByCredId flash id = some i ∧ (flash.slotKey i).rpIdHash = rpIdHash

/-- Some 32 bytes of the encoded list are such an id. -/
def ExcludedBy (flash : Mem) (rpIdHash : Bytes 32) (list : List UInt8) : Prop :=
  32 < list.length ∧ ∃ id : Bytes 32, id.val <:+: list ∧ ExcludedId flash rpIdHash id

/-- The relying party for which MakeCredential stores and excludes. -/
def mcRpIdHash (env : Env) (reqLen : ℕ) : Rd (Bytes 32) := do
  let rpItem ← getCborMapItem 1 (reqLen - 1) 0x02
  let rpId ← rpIdOf (rpItem.pointer env)
  rpIdHashOf rpId

/-- A touched MakeCredential which is not refused before the touch. -/
structure Device.CollectsTouch (d : Device) (c : Command) : Prop where
  len : c.reqLen ≠ 0
  cmd : c.req 0 = 0x01
  decision : ∃ go, (mcDecision (d.onChannel c.cid) c.reqLen).run c.req = some (.ok go)
  presence : c.env.presence = .confirmed

section

variable {d : Device} {c : Command} {o : Outcome} {flash m : Mem} {rpIdHash : Bytes 32}
  {env : Env} {reqLen : ℕ} {cdh : Option (ℕ × ℕ)} {verified : Option (List UInt8)}

theorem excluded_run (flash : Mem) (rpIdHash : Bytes 32) (left ptr : ℕ) :
    ∃ hit, (excluded flash rpIdHash left ptr).run m = some hit ∧ (hit = true ↔
      ∃ j < left, ExcludedId flash rpIdHash (Bytes.fill 0 32 (m.slice (ptr + j) 32))) := by
  induction left generalizing ptr with
  | zero => exact ⟨false, rfl, by simp⟩
  | succ left ih =>
      obtain ⟨hit, hrun, hiff⟩ := ih (ptr + 1)
      simp only [exists_lt_succ_window
        (P := fun q => ExcludedId flash rpIdHash (Bytes.fill 0 32 (m.slice q 32)))]
      rw [excluded, run_bind, run_bytes, Option.bind_some]
      cases hfound : passkeyFindByCredId flash (Bytes.fill 0 32 (m.slice ptr 32)) with
      | none =>
          have hhere : ¬ ExcludedId flash rpIdHash (Bytes.fill 0 32 (m.slice ptr 32)) := by
            rintro ⟨i, hi, -⟩
            rw [hfound] at hi
            cases hi
          exact ⟨hit, hrun, by rw [hiff]; simp [hhere]⟩
      | some i =>
          have hhere : ExcludedId flash rpIdHash (Bytes.fill 0 32 (m.slice ptr 32)) ↔
              (flash.slotKey i).rpIdHash = rpIdHash := by
            simp [ExcludedId, hfound]
          by_cases hrp : (flash.slotKey i).rpIdHash = rpIdHash
          · exact ⟨true, by simp [hrp], by simp [hhere, hrp]⟩
          · exact ⟨hit, by simp [hrp, hrun], by rw [hiff]; simp [hhere, hrp]⟩

theorem excludeListHit_run (flash : Mem) (rpIdHash : Bytes 32) {p : ℕ}
    {list : List UInt8} (hm : m.Holds p list) :
    ∃ hit, (excludeListHit flash rpIdHash (some (p, list.length))).run m = some hit ∧
      (hit = true ↔ ExcludedBy flash rpIdHash list) := by
  unfold excludeListHit
  dsimp only
  by_cases hlong : list.length > 32
  · obtain ⟨hit, hrun, hiff⟩ := excluded_run flash rpIdHash
      (m := m) (list.length - 31) p
    rw [if_pos hlong]
    refine ⟨hit, hrun, hiff.trans ?_⟩
    have hwithin : ∀ id : Bytes 32, id.val <:+: list ↔
        ∃ j, j + id.val.length ≤ list.length ∧ m.slice (p + j) id.val.length = id.val := by
      intro id
      rw [← infix_slice_iff, hm.slice_eq rfl]
    rw [ExcludedBy, and_iff_right hlong]
    constructor
    · rintro ⟨j, hj, hid⟩
      refine ⟨_, (hwithin _).2 ⟨j, ?_, ?_⟩, hid⟩
      · rw [Bytes.length_val]
        omega
      · rw [Bytes.length_val, Bytes.fill_val (by simp)]
    · rintro ⟨id, hoccurs, hid⟩
      obtain ⟨j, hj, hslice⟩ := (hwithin id).1 hoccurs
      rw [id.length_val] at hj hslice
      have hwindow : Bytes.fill 0 32 (m.slice (p + j) 32) = id :=
        Subtype.ext (by rw [Bytes.fill_val (by simp), hslice])
      exact ⟨j, by omega, by rw [hwindow]; exact hid⟩
  · rw [if_neg hlong]
    exact ⟨false, rfl, by simp [ExcludedBy, hlong]⟩

theorem registerCredential_excluded :
    (registerCredential env d reqLen cdh verified).Returns m fun o =>
      ∀ item rpIdHash, (mcRpIdHash env reqLen).run m = some rpIdHash →
        (getCborMapItem 1 (reqLen - 1) 0x05).run m = some item →
        ∃ hit, (excludeListHit d.flash.mem rpIdHash (item.pointer env)).run m = some hit ∧
          (o.status = some 0x2C ↔ hit = true) := by
  unfold registerCredential
  refine Returns.bind_run fun rpItem hrpItem => Returns.bind_run fun rpId hrpId =>
    Returns.bind_run fun rpIdHash hhash => Returns.bind_run fun exItem hexItem =>
    Returns.bind_run fun hit hhit => ?_
  have hsame : ∀ o : Outcome, (o.status = some 0x2C ↔ hit = true) →
      ∀ item hash, (mcRpIdHash env reqLen).run m = some hash →
        (getCborMapItem 1 (reqLen - 1) 0x05).run m = some item →
        ∃ hit, (excludeListHit d.flash.mem hash (item.pointer env)).run m = some hit ∧
          (o.status = some 0x2C ↔ hit = true) := by
    intro o ho item hash hread hitem
    rw [mcRpIdHash, run_bind, hrpItem, Option.bind_some, run_bind, hrpId, Option.bind_some,
      hhash, Option.some.injEq] at hread
    rw [hexItem, Option.some.injEq] at hitem
    subst hread hitem
    exact ⟨hit, hhit, ho⟩
  refine Returns.ite (fun htrue => Returns.pure (hsame _ ?_)) fun hfalse =>
    Returns.bind fun userItem => Returns.bind fun user => Returns.bind fun saved =>
    Returns.ite (fun _ => Returns.pure (hsame _ ?_)) fun _ =>
    Returns.bind fun cdhBytes => Returns.pure (hsame _ ?_)
  · simp [htrue]
  · simp [hfalse]
  · have hok : (d.replyUnder verified saved.2
        (attestation env rpIdHash verified.isSome cdhBytes)).status = some 0x00 := rfl
    simp [hok, hfalse]

/-- What MakeCredential reads as its excludeList. -/
inductive ReadsExcludeList (c : Command) : List UInt8 → Prop
  | item (p : ℕ) (list : List UInt8) (hm : c.req.Holds p list)
      (hread : (getCborMapItem 1 (c.reqLen - 1) 0x05).run c.req =
        some (.item p list.length)) : ReadsExcludeList c list
  | missing (item : ItemResult) (hread : (getCborMapItem 1 (c.reqLen - 1) 0x05).run c.req =
      some item) (hitem : item = .null ∨ item = .fallsOff) : ReadsExcludeList c []

theorem collectsTouch_excluded {list : List UInt8} (hc : d.CollectsTouch c)
    (hrp : (mcRpIdHash c.env c.reqLen).run c.req = some rpIdHash)
    (hlist : ReadsExcludeList c list) (ho : d.outcome c = some o) :
    o.status = some 0x2C ↔ ExcludedBy d.flash.mem rpIdHash list := by
  obtain ⟨⟨cdh, verified⟩, hdecision⟩ := hc.decision
  rw [outcome_eq hc.len, hc.cmd] at ho
  change (makeCredential c.env (d.onChannel c.cid) c.reqLen).run c.req = some o at ho
  rw [makeCredential_run, run_bind, hdecision, Option.bind_some, mcFinish, waitAndRegister,
    if_neg (not_not.2 ((presence_status_eq_zero_iff _).2 hc.presence))] at ho
  have hexcluded := registerCredential_excluded o ho
  cases hlist with
  | item p list hm hread =>
      obtain ⟨hit, hrun, hstatus⟩ := hexcluded _ _ hrp hread
      obtain ⟨hit', hrun', hiff⟩ := excludeListHit_run d.flash.mem rpIdHash hm
      obtain rfl : hit = hit' := Option.some.inj (hrun.symm.trans hrun')
      exact hstatus.trans hiff
  | missing item hread hitem =>
      obtain ⟨hit, hrun, hstatus⟩ := hexcluded _ _ hrp hread
      have hshort : ¬ ExcludedBy d.flash.mem rpIdHash [] := fun h => by
        have hlen := h.1
        simp at hlen
      have hmiss : hit = false := by
        rcases hitem with rfl | rfl
        · exact (Option.some.inj hrun).symm
        · cases hstray : c.env.strayItem with
          | none =>
              simp only [ItemResult.pointer, hstray, Option.map_none] at hrun
              exact (Option.some.inj hrun).symm
          | some p =>
              simp only [ItemResult.pointer, hstray, Option.map_some] at hrun
              exact (Option.some.inj hrun).symm
      rw [hstatus, hmiss]
      simp [hshort]

end

/-! ## Canonical requests -/

/-- The hash which stands for the relying party with this id, or for none when it is
empty. -/
def rpHash (rpId : List UInt8) : Bytes 32 :=
  if rpId = [] then Bytes.zero 32 else sha256 rpId

/-- A GetAssertion for the relying party with this allowList. -/
structure Command.Allows (c : Command) (rpId : List UInt8) (descriptors : List Item) :
    Prop where
  carries : ∃ entries, c.Carries 0x02 entries ∧ HasEntry entries 1 (.text rpId) ∧
    HasEntry entries 3 (.array descriptors)
  descriptors : descriptors ≠ []

/-- A MakeCredential with this excludeList, or without one. -/
def Command.Excludes (c : Command) (descriptors : List Item) : Prop :=
  ∃ entries, c.Carries 0x01 entries ∧
    (HasEntry entries 5 (.array descriptors) ∧ Scannable (.array descriptors) ∨
      descriptors = [] ∧ ScannableEntries entries ∧ ∀ e ∈ entries, e.1 ≠ .uint 5)

section

variable {d : Device} {c : Command} {o : Outcome} {rpId : List UInt8}
  {descriptors : List Item} {rpIdHash : Bytes 32} {m : Mem} {p : ℕ}

theorem rpIdHashOf_rpHash (hm : m.Holds p rpId) :
    (rpIdHashOf (some (p, rpId.length))).run m = some (rpHash rpId) := by
  by_cases hempty : rpId = []
  · subst hempty
    rfl
  · rw [rpHash, if_neg hempty]
    exact rpIdHashOf_holds (List.length_pos_iff.2 hempty) hm

theorem Command.Allows.listed (h : c.Allows rpId descriptors) :
    c.ListedAssertion (rpHash rpId) := by
  obtain ⟨entries, hcarries, hrp, hlist⟩ := h.carries
  have hrpLen : rpId.length < 65536 := by
    have hlen := (hcarries.uintEntry hrp (by omega) (by omega)).1
    simp only [Item.encode, List.length_append] at hlen
    omega
  have hcount : descriptors.length < 65536 := by
    have hlen := (hcarries.uintEntry hlist (by omega) (by omega)).1
    have hitems : descriptors.length ≤ (encodeItems descriptors).length :=
      length_le_encodeItems descriptors
    simp only [Item.encode, List.length_append] at hlen
    omega
  obtain ⟨p, hm, hread⟩ := hcarries.value hrp (by omega) (by omega) (by omega) hrpLen rfl
  obtain ⟨q, -, hallow⟩ := hcarries.value hlist (by omega) (by omega) (by omega) hcount rfl
  refine ⟨hcarries.reqLen_ne_zero, hcarries.cmd_eq, ?_, _, hallow, ?_⟩
  · rw [gaRpIdHash, run_bind, hread, Option.bind_some]
    exact rpIdHashOf_rpHash hm
  · rintro ⟨-, hzero⟩
    exact h.descriptors (List.eq_nil_of_length_eq_zero hzero)

theorem Command.Excludes.reads (h : c.Excludes descriptors) :
    ∃ list, ReadsExcludeList c list ∧
      (∀ flash rpIdHash, ExcludedBy flash rpIdHash list ↔
        ExcludedBy flash rpIdHash (Item.array descriptors).encode) := by
  obtain ⟨entries, hcarries, ⟨hlist, hscan⟩ | ⟨rfl, hscan, hother⟩⟩ := h
  · obtain ⟨-, p, hm, hread⟩ := hcarries.item hlist (by omega) (by omega) hscan
    exact ⟨_, .item p _ hm hread, fun _ _ => Iff.rfl⟩
  · have hmissing : (getCborMapItem 1 (c.reqLen - 1) 0x05).run c.req = some .fallsOff :=
      hcarries.missing (by omega) (by omega) hscan hother
    refine ⟨[], .missing _ hmissing (.inr rfl), fun flash rpIdHash => ?_⟩
    have hshort : ∀ list : List UInt8, list.length ≤ 32 →
        ¬ ExcludedBy flash rpIdHash list := fun list hlen h => by
      have hlong := h.1
      omega
    exact iff_of_false (hshort _ (by decide)) (hshort _ (by decide))

theorem Lists.excludedBy {flash : Mem} {id : Bytes 32} (h : Lists descriptors id.val)
    (hid : ExcludedId flash rpIdHash id) :
    ExcludedBy flash rpIdHash (Item.array descriptors).encode := by
  refine ⟨?_, id, h.infix_encode, hid⟩
  obtain ⟨descriptor, hmem, hentry⟩ := h
  have hbytes : (Item.bytes id.val).encode.length ≤ (encodeItems descriptors).length :=
    (((infix_encodeEntries hentry).trans (List.suffix_append _ _).isInfix).trans
      (infix_encodeItems hmem)).length_le
  have hpos := head_length_pos 4 descriptors.length
  have hhead := head_length_pos 2 id.val.length
  simp only [Item.encode, List.length_append, id.length_val] at hbytes ⊢
  omega

end

/-- GetAssertion selects the first credential of the relying party whose id stands in
the request, and MakeCredential is excluded by 32 bytes of the encoded excludeList.
The listed ids are among these bytes. -/
theorem lists_matched_in_bytes :
    (∀ (d : Device) (c : Command) (o : Outcome) (rpId : List UInt8)
      (descriptors : List Item), c.Allows rpId descriptors → d.outcome c = some o →
      AnswersSlot c.env d.flash.mem o (d.occurringSlot c (rpHash rpId)) ∧
        ∀ id, Lists descriptors id → id <:+: c.message) ∧
    ∀ (d : Device) (c : Command) (o : Outcome) (rpIdHash : Bytes 32)
      (descriptors : List Item), d.CollectsTouch c → c.Excludes descriptors →
      (mcRpIdHash c.env c.reqLen).run c.req = some rpIdHash → d.outcome c = some o →
      (o.status = some 0x2C ↔
        ExcludedBy d.flash.mem rpIdHash (Item.array descriptors).encode) ∧
      ∀ id : Bytes 32, Lists descriptors id.val → ExcludedId d.flash.mem rpIdHash id →
        o.status = some 0x2C := by
  constructor
  · intro d c o rpId descriptors hc ho
    refine ⟨listedAssertion_answers hc.listed ho, fun id hid => ?_⟩
    obtain ⟨entries, hcarries, -, hlist⟩ := hc.carries
    exact hid.infix_encode.trans (hcarries.infix_message hlist)
  · intro d c o rpIdHash descriptors htouch hc hrp ho
    obtain ⟨list, hreads, hsame⟩ := hc.reads
    have hiff : o.status = some 0x2C ↔
        ExcludedBy d.flash.mem rpIdHash (Item.array descriptors).encode :=
      (collectsTouch_excluded htouch hrp hreads ho).trans (hsame _ _)
    exact ⟨hiff, fun id hid hexcluded => hiff.2 (hid.excludedBy hexcluded)⟩

def descriptorOf (id : List UInt8) : Item :=
  .map [(.text (ascii "id"), .bytes id), (.text (ascii "type"), .text (ascii "public-key"))]

/-- An allowList with one id of zeros. -/
def otherDescriptor : Item := descriptorOf (List.replicate 32 0)

/-- GetAssertion for that list, with a stored id as its clientDataHash. -/
def disguisedCommand : Command :=
  hostCommand (0x02 :: (Item.map [(.uint 1, .text [0x61]),
    (.uint 2, .bytes storedId.val), (.uint 3, .array [otherDescriptor])]).encode)

theorem disguisedCommand_allows : disguisedCommand.Allows [0x61] [otherDescriptor] where
  carries := ⟨_, ⟨holds_getD _, by decide +kernel, by decide +kernel⟩,
    ⟨[], _, rfl, trivial, by simp⟩,
    ⟨[(.uint 1, .text [0x61]), (.uint 2, .bytes storedId.val)], [], rfl,
      by simp [ScannableEntries, Scannable], by simp⟩⟩
  descriptors := by simp

theorem disguisedCommand_answered :
    ((Device.powerUp (oneCredential (sha256 [0x61]))).outcome disguisedCommand).any
      (fun o => o.status = some 0x00) = true := by
  decide +kernel

/-- MakeCredential for the relying party, which lists the stored id. -/
def excludingCommand : Command :=
  hostCommand (0x01 :: (Item.map [(.uint 2, .map [(.text (ascii "id"), .text [0x61])]),
    (.uint 5, .array [descriptorOf storedId.val])]).encode)

theorem excludingCommand_runs :
    ((Device.powerUp (oneCredential (sha256 [0x61]))).outcome excludingCommand).isSome ∧
      ((mcDecision ((Device.powerUp (oneCredential (sha256 [0x61]))).onChannel
        excludingCommand.cid) excludingCommand.reqLen).run excludingCommand.req).any
          (fun decision => decision.toBool) = true ∧
      (mcRpIdHash excludingCommand.env excludingCommand.reqLen).run excludingCommand.req =
        some (sha256 [0x61]) := by
  decide +kernel

theorem excludingCommand_excludes :
    excludingCommand.Excludes [descriptorOf storedId.val] :=
  ⟨_, ⟨holds_getD _, by decide +kernel, by decide +kernel⟩,
    .inl ⟨⟨[(.uint 2, .map [(.text (ascii "id"), .text [0x61])])], [], rfl,
      by simp [ScannableEntries, Scannable, ascii], by simp⟩,
      by simp [descriptorOf, Scannable, ScannableItems, ScannableEntries, ascii]⟩⟩

theorem storedId_excluded (rpIdHash : Bytes 32) :
    ExcludedId (oneCredential rpIdHash) rpIdHash storedId := by
  have hkey : (oneCredential rpIdHash).slotKey firstSlot = storedKey rpIdHash := by
    rw [oneCredential_slotKey, if_pos rfl]
  refine ⟨firstSlot, List.find?_cons_of_pos ?_, by rw [hkey]; rfl⟩
  change decide (((oneCredential rpIdHash).slotKey firstSlot).isOccupied = true ∧
    ((oneCredential rpIdHash).slotKey firstSlot).credentialId = storedId) = true
  rw [hkey]
  exact decide_eq_true ⟨rfl, rfl⟩

theorem lists_matched_in_bytes_stored :
    (∃ o, (Device.powerUp (oneCredential (sha256 [0x61]))).outcome disguisedCommand = some o ∧
      AnswersSlot disguisedCommand.env (oneCredential (sha256 [0x61])) o
        ((Device.powerUp (oneCredential (sha256 [0x61]))).occurringSlot disguisedCommand
          (rpHash [0x61]))) ∧
    ∃ o, (Device.powerUp (oneCredential (sha256 [0x61]))).outcome excludingCommand = some o ∧
      o.status = some 0x2C := by
  constructor
  · obtain ⟨o, ho, -⟩ := (Option.any_eq_true _ _).1 disguisedCommand_answered
    exact ⟨o, ho, (lists_matched_in_bytes.1 _ _ o _ _ disguisedCommand_allows ho).1⟩
  · obtain ⟨hruns, hdecision, hrp⟩ := excludingCommand_runs
    obtain ⟨o, ho⟩ := Option.isSome_iff_exists.1 hruns
    obtain ⟨decision, hgo, hok⟩ := (Option.any_eq_true _ _).1 hdecision
    have htouch : (Device.powerUp (oneCredential (sha256 [0x61]))).CollectsTouch
        excludingCommand := by
      cases decision with
      | error status => cases hok
      | ok go => exact ⟨by decide +kernel, rfl, ⟨go, hgo⟩, rfl⟩
    have hlists : Lists [descriptorOf storedId.val] storedId.val :=
      ⟨_, List.mem_singleton_self _, List.mem_cons_self⟩
    exact ⟨o, ho, (lists_matched_in_bytes.2 _ _ o _ _ htouch excludingCommand_excludes hrp
      ho).2 storedId hlists (storedId_excluded _)⟩

/-- A credential which is not listed is selected because its id is the
clientDataHash. -/
theorem unlisted_selected :
    ¬ ∀ (d : Device) (c : Command) (o : Outcome) (rpId : List UInt8)
      (descriptors : List Item), c.Allows rpId descriptors → d.outcome c = some o →
      (∀ i, isOfRp d.flash.mem (rpHash rpId) i = true →
        ¬ Lists descriptors (d.flash.mem.slotKey i).credentialId.val) →
      o.resp = [0x2E] := by
  intro hall
  obtain ⟨o, ho, hok⟩ := (Option.any_eq_true _ _).1 disguisedCommand_answered
  have hnone : o.resp = [0x2E] := by
    refine hall _ _ o _ _ disguisedCommand_allows ho fun i hi hlists => ?_
    obtain rfl := oneCredential_occupied (isOccupied_iff.1 (isOfRp_iff.1 hi).1)
    obtain ⟨descriptor, hmem, hid⟩ := hlists
    obtain rfl : descriptor = [(.text (ascii "id"), .bytes (List.replicate 32 0)),
        (.text (ascii "type"), .text (ascii "public-key"))] := by
      simpa [otherDescriptor, descriptorOf] using hmem
    have hsame : ((oneCredential (sha256 [0x61])).slotKey firstSlot).credentialId.val =
        List.replicate 32 0 := by
      rw [List.mem_cons, Prod.mk.injEq, Item.bytes.injEq] at hid
      rcases hid with ⟨-, hsame⟩ | hid
      · exact hsame
      · simp at hid
    rw [oneCredential_slotKey, if_pos rfl] at hsame
    exact absurd hsame (by decide)
  have hstatus := of_decide_eq_true hok
  rw [Outcome.status, hnone] at hstatus
  exact absurd (Option.some.inj hstatus) (by decide)

end UnsoloKey
