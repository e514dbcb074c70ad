import UnsoloKey.Assertion
import UnsoloKey.PinLockout
import UnsoloKey.StoreRefinement
import Mathlib.Tactic

/-!
# The assertion walk

A GetAssertion without an allowList answers for the first credential of its
relying party, and every GetNextAssertion for the next one.  The number of
credentials and the credential at an index come from two different scans of the
slots.  The walk lists every credential of the relying party once.
-/

namespace UnsoloKey

open Rd Cbor

/-- The credentials of a relying party, in the order of the slots. -/
def slotsOfRp (m : Mem) (rpIdHash : Bytes 32) : List Slot :=
  slots.filter (isOfRp m rpIdHash)

theorem isOfRp_iff {m : Mem} {rpIdHash : Bytes 32} {i : Slot} : isOfRp m rpIdHash i = true ↔
    (m.slotKey i).isOccupied ∧ (m.slotKey i).rpIdHash = rpIdHash := by
  simp [isOfRp]

theorem isOfRp_of_getByRpIndex {m : Mem} {rpIdHash : Bytes 32} {targetIndex : ℕ} {i : Slot}
    (h : passkeyGetByRpIndex m rpIdHash targetIndex = some i) : isOfRp m rpIdHash i = true :=
  (List.mem_filter.1 (List.mem_of_getElem? h)).2

theorem findListed_isOfRp {m flash : Mem} {rpIdHash : Bytes 32} {reqLen : ℕ}
    {list : List Slot} :
    (findListed flash rpIdHash reqLen list).Returns m
      fun found => ∀ i, found = some i → isOfRp flash rpIdHash i = true := by
  induction list with
  | nil => exact Returns.pure (by simp)
  | cons j rest ih =>
      unfold findListed
      refine Returns.ite (fun hof => Returns.bind fun hit => Returns.ite (fun _ => ?_)
        fun _ => ih) fun _ => ih
      refine Returns.pure fun i hi => ?_
      obtain rfl := Option.some.inj hi
      exact hof

/-- The credential selected is one of the relying party. -/
theorem selectCredential_isOfRp {d : Device} {m : Mem} {reqLen : ℕ} {rpIdHash : Bytes 32}
    {cdh : Option (ℕ × ℕ)} {allowList : Option MapValue} :
    (selectCredential d reqLen rpIdHash cdh allowList).Returns m fun selection =>
      ∀ i total, selection.1 = some (i, total) → isOfRp d.flash.mem rpIdHash i = true := by
  unfold selectCredential
  refine Returns.ite (fun _ => ?_) fun _ => ?_
  · dsimp only
    split
    · exact Returns.pure (by simp)
    · rename_i j hfirst
      have hof := isOfRp_of_getByRpIndex hfirst
      refine Returns.ite (fun _ => Returns.pure (by simp)) fun _ =>
        Returns.bind fun gGaCdh => Returns.pure fun i total hi => ?_
      obtain rfl : j = i := (Prod.mk.inj (Option.some.inj hi)).1
      exact hof
  · refine Returns.bind_of findListed_isOfRp fun found hfound => Returns.pure ?_
    intro i total hi
    obtain ⟨j, hj, hpair⟩ := Option.map_eq_some_iff.1 hi
    exact (Prod.mk.inj hpair).1 ▸ hfound j hj

theorem Selected.isOfRp {d : Device} {m : Mem} {reqLen : ℕ} {ctap : CtapSession}
    {plan : AssertionPlan} (h : Selected d reqLen m ctap plan) :
    isOfRp d.flash.mem plan.rpIdHash plan.slot = true := by
  obtain ⟨allowList, -, hselection⟩ := h.selection
  exact selectCredential_isOfRp _ hselection _ _ rfl

theorem passkeyCountForRp_eq (m : Mem) (rpIdHash : Bytes 32) :
    passkeyCountForRp m rpIdHash = (slotsOfRp m rpIdHash).length :=
  List.countP_eq_length_filter

def Device.responses (d : Device) : List Command → Option (List (List UInt8))
  | [] => some []
  | c :: rest => (d.outcome c).bind fun o =>
      ((d.after o).responses rest).map (o.resp :: ·)

/-! ## One walk -/

/-- The walk stands at the credential with this index. -/
structure Walking (m : Mem) (rpIdHash cdh : Bytes 32) (d : Device) (k : ℕ) :
    Prop where
  flash : d.flash.mem = m
  hash : d.ctap.gGaRpHash = rpIdHash
  count : d.ctap.gGaCount = (slotsOfRp m rpIdHash).length
  idx : d.ctap.gGaIdx = k
  cdh : d.ctap.gGaCdh = cdh

structure Command.TouchedNext (c : Command) : Prop where
  len : c.reqLen ≠ 0
  cmd : c.req 0 = 0x08
  presence : c.env.presence = .confirmed

section

variable {m : Mem} {rpIdHash cdh : Bytes 32} {d : Device} {k : ℕ} {c : Command}

theorem outcome_next (h : c.TouchedNext) :
    d.outcome c = some (getNextAssertion c.env (d.onChannel c.cid)) := by
  rw [outcome_eq h.len, h.cmd]
  rfl

theorem Walking.onChannel (h : Walking m rpIdHash cdh d k) (cid : ℕ) :
    Walking m rpIdHash cdh (d.onChannel cid) k :=
  ⟨h.flash, h.hash, h.count, h.idx, h.cdh⟩

theorem Walking.next (h : Walking m rpIdHash cdh d k) (hc : c.TouchedNext)
    {i : Slot} (hi : (slotsOfRp m rpIdHash)[k + 1]? = some i) :
    ∃ o, d.outcome c = some o ∧
      o.resp = gaBuildResponse c.env m i (authDataHeader rpIdHash 0x01) cdh
        (slotsOfRp m rpIdHash).length ∧
      Walking m rpIdHash cdh (d.after o) (k + 1) := by
  have hlt : k + 1 < (slotsOfRp m rpIdHash).length :=
    (List.getElem?_eq_some_iff.1 hi).1
  have hw := h.onChannel c.cid
  have hmore := getNextAssertion_more (d := d.onChannel c.cid)
    (by rw [hw.idx, hw.count]; exact hlt)
    (by rw [hw.flash, hw.hash, hw.idx]; exact hi) hc.presence
  rw [hw.flash, hw.hash, hw.cdh, hw.count, hw.idx] at hmore
  refine ⟨_, outcome_next hc, by rw [hmore]; rfl, ?_⟩
  rw [hmore]
  exact ⟨hw.flash, hw.hash, hw.count, rfl, hw.cdh⟩

theorem Walking.last (h : Walking m rpIdHash cdh d k) (hc : c.TouchedNext)
    (hend : (slotsOfRp m rpIdHash).length ≤ k + 1) :
    ∃ o, d.outcome c = some o ∧ o.resp = [0x2E] := by
  have hw := h.onChannel c.cid
  refine ⟨_, outcome_next hc, ?_⟩
  rw [getNextAssertion_done (by rw [hw.idx, hw.count]; exact hend)]
  rfl

theorem Walking.responses (h : Walking m rpIdHash cdh d k) {nexts : List Command}
    (hnexts : ∀ c ∈ nexts, c.TouchedNext) (hk : k < (slotsOfRp m rpIdHash).length)
    (hlength : nexts.length + k = (slotsOfRp m rpIdHash).length) :
    ∃ rs, d.responses nexts = some (rs ++ [[0x2E]]) ∧
      List.Forall₂ (fun i r => ∃ c ∈ nexts, r = gaBuildResponse c.env m i
        (authDataHeader rpIdHash 0x01) cdh (slotsOfRp m rpIdHash).length)
        ((slotsOfRp m rpIdHash).drop (k + 1)) rs := by
  induction nexts generalizing d k with
  | nil =>
      rw [List.length_nil] at hlength
      omega
  | cons c rest ih =>
      rw [List.length_cons] at hlength
      have hc := hnexts c List.mem_cons_self
      by_cases hmore : k + 1 < (slotsOfRp m rpIdHash).length
      · obtain ⟨o, ho, hresp, hwalk⟩ := h.next hc (List.getElem?_eq_getElem hmore)
        obtain ⟨rs, hrs, hall⟩ := ih hwalk
          (fun c hc => hnexts c (List.mem_cons_of_mem _ hc)) hmore (by omega)
        refine ⟨o.resp :: rs, ?_, ?_⟩
        · rw [Device.responses, ho, Option.bind_some, hrs]
          rfl
        · rw [List.drop_eq_getElem_cons hmore]
          refine .cons ⟨c, List.mem_cons_self, hresp⟩ (hall.imp ?_)
          rintro i r ⟨c', hc', hr⟩
          exact ⟨c', List.mem_cons_of_mem _ hc', hr⟩
      · have hrest : rest = [] := List.eq_nil_of_length_eq_zero (by omega)
        subst hrest
        obtain ⟨o, ho, hresp⟩ := h.last hc (by omega)
        refine ⟨[], ?_, ?_⟩
        · rw [Device.responses, ho, Option.bind_some, hresp]
          rfl
        · rw [List.drop_eq_nil_of_le (by omega)]
          exact .nil

end

/-! ## The first assertion -/

def gaRpIdHash (reqLen : ℕ) : Rd (Bytes 32) := do
  let rpId ← getCborMapValue 1 (reqLen - 1) 0x01
  rpIdHashOf (rpId.map fun v => (v.ptr, v.len))

/-- A GetAssertion without an allowList or with an empty one. -/
structure Command.BareAssertion (c : Command) (rpIdHash : Bytes 32) : Prop where
  len : c.reqLen ≠ 0
  cmd : c.req 0 = 0x02
  hash : (gaRpIdHash c.reqLen).run c.req = some rpIdHash
  allowList : ∃ allowList,
    (getCborMapValue 1 (c.reqLen - 1) 0x03).run c.req = some allowList ∧
      ∀ v, allowList = some v → v.type = 0x80 ∧ v.len = 0

section

variable {d : Device} {reqLen : ℕ} {rpIdHash : Bytes 32} {cdh : Option (ℕ × ℕ)}
  {allowList : Option MapValue} {m : Mem}

theorem selectCredential_bare
    (hbare : ∀ v, allowList = some v → v.type = 0x80 ∧ v.len = 0) :
    (selectCredential d reqLen rpIdHash cdh allowList).Returns m fun selection =>
      ∀ i total, selection.1 = some (i, total) →
        (slotsOfRp d.flash.mem rpIdHash)[0]? = some i ∧
        total = (slotsOfRp d.flash.mem rpIdHash).length ∧
        selection.2.gGaRpHash = rpIdHash ∧
        selection.2.gGaCount = (slotsOfRp d.flash.mem rpIdHash).length ∧
        selection.2.gGaIdx = 0 ∧
        (storedCdh cdh).run m = some selection.2.gGaCdh := by
  unfold selectCredential
  apply Returns.ite
  · intro _
    dsimp only
    split
    · exact Returns.pure (by simp)
    · rename_i i hfirst
      apply Returns.ite
      · intro _
        exact Returns.pure (by simp)
      · intro _
        refine Returns.bind_run fun gGaCdh hcdh => Returns.pure fun j total h => ?_
        rw [Option.some.injEq, Prod.mk.injEq] at h
        obtain ⟨rfl, rfl⟩ := h
        exact ⟨hfirst, passkeyCountForRp_eq _ _, rfl, passkeyCountForRp_eq _ _, rfl,
          hcdh⟩
  · intro hlisted
    cases allowList with
    | none => exact absurd rfl hlisted
    | some v => exact absurd (decide_eq_true (hbare v rfl)) hlisted

end

/-- What a successful GetAssertion for a bare relying party has done: its
response is for the first credential, and the walk stands there. -/
structure FirstAssertion (d : Device) (c : Command) (o : Outcome)
    (rpIdHash : Bytes 32) (plan : AssertionPlan) (signed stored : Bytes 32) :
    Prop where
  first : (slotsOfRp d.flash.mem rpIdHash)[0]? = some plan.slot
  total : plan.total = (slotsOfRp d.flash.mem rpIdHash).length
  hash : plan.rpIdHash = rpIdHash
  cdh : (getCborMapString 1 (c.reqLen - 1) 0x02).run c.req = some plan.cdh
  signs : (signedCdh plan.cdh).run c.req = some signed
  stores : (storedCdh plan.cdh).run c.req = some stored
  resp : o.resp = plan.response c.env d.flash.mem signed
  walking : Walking d.flash.mem rpIdHash stored (d.after o) 0

theorem firstAssertion {d : Device} {c : Command} {o : Outcome}
    {rpIdHash : Bytes 32} (hc : c.BareAssertion rpIdHash)
    (ho : d.outcome c = some o) (hok : o.status = some 0x00) :
    ∃ plan signed stored, FirstAssertion d c o rpIdHash plan signed stored := by
  rw [outcome_eq hc.len, hc.cmd] at ho
  cases getAssertion_effect o ho with
  | refused status hstatus hresp =>
      rw [Outcome.status, hresp] at hok
      exact absurd (Option.some.inj hok) hstatus
  | asserted ctap plan cdhBuf hdecision hselect htouch hsigned hresp hops hctap =>
      obtain ⟨allowList, hallow, hbare⟩ := hc.allowList
      obtain ⟨rpId, hrpId, hhash⟩ := hselect.rpId
      obtain ⟨allowList', hallow', hselection⟩ := hselect.selection
      rw [hallow, Option.some.injEq] at hallow'
      subst hallow'
      have hrp : plan.rpIdHash = rpIdHash := by
        have hread := hc.hash
        rw [gaRpIdHash, run_bind, hrpId, Option.bind_some, hhash,
          Option.some.injEq] at hread
        exact hread
      obtain ⟨hfirst, htotal, hgHash, hgCount, hgIdx, hgCdh⟩ :=
        selectCredential_bare hbare _ hselection plan.slot plan.total rfl
      rw [hrp] at hfirst htotal hgHash hgCount
      have hflash : (d.after o).flash.mem = d.flash.mem := by
        rw [Device.after, Flash.run_mem, hops]
        rfl
      have hkept : ∀ {α : Type} (f : CtapSession → α),
          (∀ s : CtapSession, f (s.waited c.env) = f s) →
          f (d.after o).ctap = f ctap := by
        intro α f hf
        change f o.ctap = f ctap
        rw [hctap, AssertionPlan.ctap]
        split
        · exact hf ctap
        · rfl
      refine ⟨plan, cdhBuf, ctap.gGaCdh, hfirst, htotal, hrp, hselect.cdh, hsigned,
        hgCdh, hresp, hflash, ?_, ?_, ?_, ?_⟩
      · exact (hkept CtapSession.gGaRpHash fun _ => rfl).trans hgHash
      · exact (hkept CtapSession.gGaCount fun _ => rfl).trans hgCount
      · exact (hkept CtapSession.gGaIdx fun _ => rfl).trans hgIdx
      · exact hkept CtapSession.gGaCdh fun _ => rfl

/-- The response is for the credential in slot `i`, to one of the commands. -/
def AnswersFor (commands : List Command) (m : Mem) (rpIdHash : Bytes 32)
    (cdhs : List (Bytes 32)) (i : Slot) (r : List UInt8) : Prop :=
  ∃ c ∈ commands, ∃ flags, ∃ cdh ∈ cdhs, r = gaBuildResponse c.env m i
    (authDataHeader rpIdHash flags) cdh (slotsOfRp m rpIdHash).length

theorem FirstAssertion.responses {d : Device} {c : Command} {o : Outcome}
    {rpIdHash : Bytes 32} {plan : AssertionPlan} {signed stored : Bytes 32}
    (h : FirstAssertion d c o rpIdHash plan signed stored)
    (ho : d.outcome c = some o) {nexts : List Command}
    (hnexts : ∀ c ∈ nexts, c.TouchedNext)
    (hlength : nexts.length = (slotsOfRp d.flash.mem rpIdHash).length) :
    ∃ rs, d.responses (c :: nexts) = some (rs ++ [[0x2E]]) ∧
      List.Forall₂ (AnswersFor (c :: nexts) d.flash.mem rpIdHash [signed, stored])
        (slotsOfRp d.flash.mem rpIdHash) rs := by
  have hpos : 0 < (slotsOfRp d.flash.mem rpIdHash).length :=
    (List.getElem?_eq_some_iff.1 h.first).1
  have hslots : slotsOfRp d.flash.mem rpIdHash =
      plan.slot :: (slotsOfRp d.flash.mem rpIdHash).drop (0 + 1) := by
    have hfirst := h.first
    rw [List.getElem?_eq_getElem hpos, Option.some.injEq] at hfirst
    rw [← hfirst, ← List.drop_eq_getElem_cons hpos, List.drop_zero]
  obtain ⟨rs, hrs, hall⟩ := h.walking.responses hnexts hpos
    (by rw [hlength, Nat.add_zero])
  refine ⟨o.resp :: rs, ?_, ?_⟩
  · rw [Device.responses, ho, Option.bind_some, hrs]
    rfl
  · rw [hslots]
    refine .cons ?_ (hall.imp ?_)
    · refine ⟨c, List.mem_cons_self, gaFlags plan.upRequired plan.verified.isSome,
        signed, List.mem_cons_self, ?_⟩
      rw [h.resp, AssertionPlan.response, h.hash, h.total]
    · rintro i r ⟨c', hc', hr⟩
      exact ⟨c', List.mem_cons_of_mem _ hc', 0x01, stored,
        List.mem_cons_of_mem _ List.mem_cons_self, hr⟩

/-! ## What the host reads -/

theorem slotsOfRp_length_lt (m : Mem) (rpIdHash : Bytes 32) :
    (slotsOfRp m rpIdHash).length < 2 ^ 32 := by
  have hle : (slotsOfRp m rpIdHash).length ≤ slots.length :=
    List.length_filter_le _ _
  have hslots : slots.length = 5 := by decide
  omega

def idsOfRp (m : Mem) (rpIdHash : Bytes 32) : List (List UInt8) :=
  (slotsOfRp m rpIdHash).map fun i => (m.slotKey i).credentialId.val

theorem mem_idsOfRp {m : Mem} {rpIdHash : Bytes 32} {id : Bytes 32} :
    id.val ∈ idsOfRp m rpIdHash ↔ ∃ i, (m.slotKey i).magic = passkeyMagic ∧
      (m.slotKey i).rpIdHash = rpIdHash ∧ (m.slotKey i).credentialId = id := by
  simp [idsOfRp, slotsOfRp, mem_slots, isOfRp, isOccupied_iff, Subtype.ext_iff,
    and_assoc]

def DistinctIdsOfRp (m : Mem) (rpIdHash : Bytes 32) : Prop :=
  ∀ i j, isOfRp m rpIdHash i = true → isOfRp m rpIdHash j = true →
    (m.slotKey i).credentialId = (m.slotKey j).credentialId → i = j

theorem nodup_idsOfRp {m : Mem} {rpIdHash : Bytes 32}
    (h : DistinctIdsOfRp m rpIdHash) : (idsOfRp m rpIdHash).Nodup := by
  refine List.Nodup.map_on ?_ ((List.nodup_finRange _).filter _)
  intro i hi j hj hij
  exact h i j (List.mem_filter.1 hi).2 (List.mem_filter.1 hj).2 (Subtype.ext hij)

theorem distinctIds_of_nodup {m : Mem} {rpIdHash : Bytes 32}
    (h : (idsOfRp m rpIdHash).Nodup) : DistinctIdsOfRp m rpIdHash := by
  intro i j hi hj hij
  exact List.inj_on_of_nodup_map h (List.mem_filter.2 ⟨mem_slots i, hi⟩)
    (List.mem_filter.2 ⟨mem_slots j, hj⟩) (congrArg Subtype.val hij)

/-- The responses of a walk announce the credentials `ids`. -/
structure Enumerates (rs : List (List UInt8)) (ids : List (List UInt8)) : Prop where
  credentials : rs.map responseCredentialId = ids.map some
  totals : ∀ r ∈ rs, responseTotal r =
    if ids.length > 1 then some (.uint ids.length) else none

theorem map_eq_of_forall₂ {α β γ : Type} {P : α → β → Prop} {f : β → γ} {g : α → γ}
    {xs : List α} {ys : List β} (h : List.Forall₂ P xs ys)
    (hP : ∀ x y, P x y → f y = g x) : ys.map f = xs.map g := by
  induction h with
  | nil => rfl
  | cons hxy _ ih => rw [List.map_cons, List.map_cons, hP _ _ hxy, ih]

theorem AnswersFor.credentialId {commands : List Command} {m : Mem}
    {rpIdHash : Bytes 32} {cdhs : List (Bytes 32)} {i : Slot} {r : List UInt8}
    (h : AnswersFor commands m rpIdHash cdhs i r) :
    responseCredentialId r = some (m.slotKey i).credentialId.val := by
  obtain ⟨c, -, flags, cdh, -, rfl⟩ := h
  exact gaResponse_credentialId (authDataHeader_length _ _)
    (slotsOfRp_length_lt m rpIdHash)

theorem AnswersFor.total {commands : List Command} {m : Mem} {rpIdHash : Bytes 32}
    {cdhs : List (Bytes 32)} {i : Slot} {r : List UInt8}
    (h : AnswersFor commands m rpIdHash cdhs i r) : responseTotal r =
      if (slotsOfRp m rpIdHash).length > 1 then
        some (.uint (slotsOfRp m rpIdHash).length) else none := by
  obtain ⟨c, -, flags, cdh, -, rfl⟩ := h
  exact gaResponse_total (authDataHeader_length _ _)
    (slotsOfRp_length_lt m rpIdHash)

/-- A GetAssertion for a relying party and the GetNextAssertions after it list
its credentials, each once. -/
theorem assertionWalk_enumerates {d : Device} {c : Command} {o : Outcome}
    {rpIdHash : Bytes 32} {nexts : List Command}
    (hids : DistinctIdsOfRp d.flash.mem rpIdHash) (hc : c.BareAssertion rpIdHash)
    (ho : d.outcome c = some o) (hok : o.status = some 0x00)
    (hnexts : ∀ c ∈ nexts, c.TouchedNext)
    (hlength : nexts.length = (idsOfRp d.flash.mem rpIdHash).length) :
    ∃ rs, d.responses (c :: nexts) = some (rs ++ [[0x2E]]) ∧
      Enumerates rs (idsOfRp d.flash.mem rpIdHash) ∧
      (idsOfRp d.flash.mem rpIdHash).Nodup ∧
      ∀ id : Bytes 32, id.val ∈ idsOfRp d.flash.mem rpIdHash ↔
        ∃ i, (d.flash.mem.slotKey i).magic = passkeyMagic ∧
          (d.flash.mem.slotKey i).rpIdHash = rpIdHash ∧
          (d.flash.mem.slotKey i).credentialId = id := by
  have hcount : (idsOfRp d.flash.mem rpIdHash).length =
      (slotsOfRp d.flash.mem rpIdHash).length := List.length_map _
  obtain ⟨plan, signed, stored, hfirst⟩ := firstAssertion hc ho hok
  obtain ⟨rs, hrs, hall⟩ := hfirst.responses ho hnexts (by rw [hlength, hcount])
  refine ⟨rs, hrs, ⟨?_, ?_⟩, nodup_idsOfRp hids, fun id => mem_idsOfRp⟩
  · rw [idsOfRp, List.map_map]
    exact map_eq_of_forall₂ hall fun i r h => h.credentialId
  · intro r hr
    have htotals := map_eq_of_forall₂ hall fun i r h => h.total
    have hmem := List.mem_map_of_mem (f := responseTotal) hr
    rw [htotals, List.map_const', List.mem_replicate] at hmem
    rw [hmem.2, hcount]

/-- GetAssertion for the relying party `a`. -/
def signInCommand : Command :=
  hostCommand (0x02 :: (Item.map [(.uint 1, .text [0x61]),
    (.uint 2, .bytes (List.replicate 32 0xC5))]).encode)

def nextCommand : Command := hostCommand [0x08]

theorem signInCommand_bare : signInCommand.BareAssertion (sha256 [0x61]) where
  len := by decide
  cmd := by decide
  hash := by decide +kernel
  allowList := ⟨none, by decide +kernel, by simp⟩

def secondSlot : Slot := ⟨1, by decide⟩

def thirdSlot : Slot := ⟨2, by decide⟩

def otherId : Bytes 32 := Bytes.fill 0xC3 32 []

/-- Credentials of one relying party in the first and in the third slot, with one of
another relying party between them. -/
@[irreducible]
def interleaved (rpIdHash otherHash : Bytes 32) : Mem :=
  Mem.after
    (Mem.after (oneCredential rpIdHash)
      (writePageOps (slotAddr secondSlot)
        (newKey otherHash [] [0x02] [] (Bytes.fill 0xC2 32 []) (Bytes.fill 4 32 [])).toBytes))
    (writePageOps (slotAddr thirdSlot)
      (newKey rpIdHash [] [0x03] [] otherId (Bytes.fill 5 32 [])).toBytes)

theorem interleaved_signIn :
    ((Device.powerUp (interleaved (sha256 [0x61]) (sha256 [0x62]))).outcome
      signInCommand).any (fun o => o.status = some 0x00) = true ∧
    idsOfRp (interleaved (sha256 [0x61]) (sha256 [0x62])) (sha256 [0x61]) =
      [storedId.val, otherId.val] := by
  decide +kernel

theorem interleaved_distinct :
    DistinctIdsOfRp (interleaved (sha256 [0x61]) (sha256 [0x62])) (sha256 [0x61]) := by
  refine distinctIds_of_nodup ?_
  rw [interleaved_signIn.2]
  decide

theorem assertionWalk_enumerates_two : ∃ rs,
    (Device.powerUp (interleaved (sha256 [0x61]) (sha256 [0x62]))).responses
      (signInCommand :: [nextCommand, nextCommand]) = some (rs ++ [[0x2E]]) ∧
    Enumerates rs [storedId.val, otherId.val] := by
  obtain ⟨hruns, hids⟩ := interleaved_signIn
  obtain ⟨o, ho, hok⟩ := (Option.any_eq_true _ _).1 hruns
  have hnexts : ∀ c ∈ [nextCommand, nextCommand], c.TouchedNext := by
    intro c hc
    rw [List.eq_of_mem_replicate (n := 2) hc]
    exact ⟨by decide, by decide, rfl⟩
  have hlength : [nextCommand, nextCommand].length =
      (idsOfRp (interleaved (sha256 [0x61]) (sha256 [0x62])) (sha256 [0x61])).length := by
    rw [hids]
    rfl
  obtain ⟨rs, hrs, hall, -⟩ := assertionWalk_enumerates interleaved_distinct
    signInCommand_bare ho (of_decide_eq_true hok) hnexts hlength
  exact ⟨rs, hrs, hids ▸ hall⟩

end UnsoloKey
