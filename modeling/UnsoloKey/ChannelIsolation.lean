import UnsoloKey.PacketCases
import UnsoloKey.TouchWait
import Mathlib.Tactic

/-!
# Channels

All channels share one message buffer.  A continuation packet of another channel
is ignored, but an initialization packet of any channel takes the buffer over, and
a CANCEL is not compared with the channel whose request is waiting.  Where neither
happens, what a channel is handed does not depend on the packets of the others.
-/

namespace UnsoloKey

open Trace

/-! ## One packet -/

section

variable {s : Hid} {r : Report} {cid : ℕ}

/-- What a packet of another channel does to a message in progress: nothing, unless
it is an accepted initialization packet. -/
theorem processCtaphid_other (hpending : s.Assembling cid) (hother : r.cid ≠ cid)
    (hrefused : ¬ r.Accepted) :
    (processCtaphid s r).2 = none ∧ (processCtaphid s r).1.assembly = s.assembly := by
  have hcases := processCtaphid_cases s r
  generalize processCtaphid s r = result at hcases
  cases hcases with
  | short => exact ⟨rfl, rfl⟩
  | cancel => exact ⟨rfl, rfl⟩
  | dropped => exact ⟨rfl, rfl⟩
  | accepted h => exact absurd h hrefused
  | ignored => exact ⟨rfl, rfl⟩
  | outOfOrder _ hmine => exact absurd (hmine.2.symm.trans hpending.2) hother
  | copied _ hmine => exact absurd (hmine.2.symm.trans hpending.2) hother

/-- The packets of another channel which a message in progress survives are exactly
those which are not accepted as initialization packets. -/
theorem assembly_kept_iff (hpending : s.Assembling cid) (hother : r.cid ≠ cid) :
    (processCtaphid s r).1.assembly = s.assembly ↔ ¬ r.Accepted := by
  constructor
  · intro hkept haccepted
    have hcid : (processCtaphid s r).1.assembly.cid = s.assembly.cid := by rw [hkept]
    rw [processCtaphid_accepted haccepted] at hcid
    change (complete (s.started r) r.cid).1.cid = s.cid at hcid
    rw [complete_cid, hpending.2] at hcid
    exact hother hcid
  · exact fun hrefused => (processCtaphid_other hpending hother hrefused).2

end

/-! ## What a channel is handed -/

/-- Channel, command and payload of a message. -/
def Message.content (msg : Message) : ℕ × UInt8 × List UInt8 :=
  (msg.cid, msg.cmd, msg.payload)

/-- The contents of the messages of one channel. -/
def contentsOn (cid : ℕ) (msgs : List Message) : List (ℕ × UInt8 × List UInt8) :=
  (msgs.filter fun msg => msg.cid = cid).map Message.content

/-- The two states hold the same part of the same message. -/
structure SamePart (s s' : Hid) : Prop where
  cid : s.cid = s'.cid
  cmd : s.cmd = s'.cmd
  expectedLen : s.expectedLen = s'.expectedLen
  reqLen : s.reqLen = s'.reqLen
  seq : s.seq = s'.seq
  data : s.reqBuf.slice 0 s.reqLen = s'.reqBuf.slice 0 s'.reqLen

/-- Of the channel's messages the two states remember the same. -/
structure SameMessage (cid : ℕ) (s s' : Hid) : Prop where
  assembling : s.Assembling cid ↔ s'.Assembling cid
  part : s.Assembling cid → SamePart s s'

section

variable {s s' t t' : Hid} {r : Report} {cid : ℕ}

theorem sameMessage_none (h : ¬ s.Assembling cid) (h' : ¬ s'.Assembling cid) :
    SameMessage cid s s' :=
  ⟨iff_of_false h h', fun hs => absurd hs h⟩

theorem SamePart.sameMessage (h : SamePart s s') : SameMessage cid s s' where
  assembling := by rw [Hid.Assembling, Hid.Assembling, h.cid, h.expectedLen]
  part _ := h

theorem samePart_of_assembly (h : s.assembly = s'.assembly) : SamePart s s' := by
  simp only [Hid.assembly, Hid.mk.injEq] at h
  obtain ⟨hbuf, hreqLen, hexpected, hseq, hcid, hcmd, -⟩ := h
  exact ⟨hcid, hcmd, hexpected, hreqLen, hseq, by rw [hbuf, hreqLen]⟩

theorem SamePart.symm (h : SamePart s s') : SamePart s' s :=
  ⟨h.cid.symm, h.cmd.symm, h.expectedLen.symm, h.reqLen.symm, h.seq.symm, h.data.symm⟩

theorem SamePart.trans (h : SamePart s s') (h' : SamePart s' t) : SamePart s t :=
  ⟨h.cid.trans h'.cid, h.cmd.trans h'.cmd, h.expectedLen.trans h'.expectedLen,
    h.reqLen.trans h'.reqLen, h.seq.trans h'.seq, h.data.trans h'.data⟩

theorem assembling_of_assembly (h : t.assembly = s.assembly) :
    t.Assembling cid ↔ s.Assembling cid :=
  (samePart_of_assembly h).sameMessage.assembling

theorem SameMessage.congr (h : SameMessage cid s s') (ht : t.assembly = s.assembly)
    (ht' : t'.assembly = s'.assembly) : SameMessage cid t t' where
  assembling := (assembling_of_assembly ht).trans
    (h.assembling.trans (assembling_of_assembly ht').symm)
  part hpending := (samePart_of_assembly ht).trans
    ((h.part ((assembling_of_assembly ht).1 hpending)).trans
      (samePart_of_assembly ht').symm)

/-- The completeness test on two states which hold the same part. -/
theorem SamePart.complete (h : SamePart s s') (cid : ℕ) :
    contentsOn cid (complete s cid).2.toList =
        contentsOn cid (complete s' cid).2.toList ∧
      SameMessage cid (complete s cid).1 (complete s' cid).1 := by
  unfold UnsoloKey.complete
  rw [← h.reqLen, ← h.expectedLen, ← h.cmd]
  split
  · rename_i hdone
    constructor
    · have hdata := h.data
      rw [← h.reqLen, hdone.1] at hdata
      simp [contentsOn, Message.content, Message.payload, hdata]
    · exact sameMessage_none (fun hpending => hpending.1 rfl)
        fun hpending => hpending.1 rfl
  · exact ⟨rfl, h.sameMessage⟩

theorem Report.initLen_le (r : Report) : r.initLen ≤ r.initData.length := by
  have hlen : r.initData.length = r.len - 7 := by simp [Report.initData, Report.len]
  unfold Report.initLen
  rw [hlen]
  split_ifs <;> omega

theorem Hid.copyLen_le (s : Hid) (r : Report) :
    s.copyLen r ≤ r.continuationData.length := by
  have hlen : r.continuationData.length = r.len - 5 := by
    simp [Report.continuationData, Report.len]
  unfold Hid.copyLen
  rw [hlen]
  dsimp only
  split_ifs <;> omega

theorem slice_write_take (m : Mem) (p : ℕ) {bs : List UInt8} {n : ℕ}
    (hn : n ≤ bs.length) :
    (m.write p (bs.take n)).slice 0 (p + n) = m.slice 0 p ++ bs.take n := by
  have hlen : (bs.take n).length = n := by
    rw [List.length_take]
    omega
  have hslice := Mem.slice_write m p (bs.take n)
  rwa [hlen] at hslice

theorem started_data (s : Hid) (r : Report) :
    (s.started r).reqBuf.slice 0 (s.started r).reqLen = r.initData.take r.initLen := by
  have hslice := slice_write_take s.reqBuf 0 r.initLen_le
  rw [Nat.zero_add] at hslice
  exact hslice

theorem samePart_started (s s' : Hid) (r : Report) :
    SamePart (s.started r) (s'.started r) where
  cid := rfl
  cmd := rfl
  expectedLen := rfl
  reqLen := rfl
  seq := rfl
  data := by rw [started_data, started_data]

theorem continued_data (s : Hid) (r : Report) :
    (s.continued r).reqBuf.slice 0 (s.continued r).reqLen =
      (s.reqBuf.slice 0 s.reqLen ++ r.continuationData.take (s.copyLen r)).take
        (s.continued r).reqLen := by
  have hle : (s.continued r).reqLen ≤ s.reqLen + s.copyLen r := Nat.mod_le _ _
  rw [← slice_write_take s.reqBuf s.reqLen (s.copyLen_le r), Mem.slice_take _ _ _ _ hle]
  rfl

theorem SamePart.continued (h : SamePart s s') (r : Report) :
    SamePart (s.continued r) (s'.continued r) := by
  have hcopy : s.copyLen r = s'.copyLen r := by
    rw [Hid.copyLen, Hid.copyLen, h.expectedLen, h.reqLen]
  have hreqLen : (s.continued r).reqLen = (s'.continued r).reqLen := by
    simp only [Hid.continued, h.reqLen, hcopy]
  refine ⟨h.cid, h.cmd, h.expectedLen, hreqLen, ?_, ?_⟩
  · simp only [Hid.continued, h.seq]
  · rw [continued_data, continued_data, h.data, hcopy, hreqLen]

/-- A packet of the channel does the same to both states. -/
theorem SameMessage.own (h : SameMessage cid s s') (hr : r.cid = cid) :
    contentsOn cid (processCtaphid s r).2.toList =
        contentsOn cid (processCtaphid s' r).2.toList ∧
      SameMessage cid (processCtaphid s r).1 (processCtaphid s' r).1 := by
  subst hr
  have hcases := processCtaphid_cases s r
  generalize processCtaphid s r = result at hcases
  cases hcases with
  | short hlen =>
      rw [processCtaphid_short hlen]
      exact ⟨rfl, h⟩
  | cancel hinit hcancel =>
      rw [processCtaphid_cancel hinit hcancel]
      exact ⟨rfl, h.congr rfl rfl⟩
  | dropped hstart hdropped =>
      rw [processCtaphid_dropped hstart hdropped]
      exact ⟨rfl, h.congr rfl rfl⟩
  | accepted haccepted =>
      rw [processCtaphid_accepted haccepted]
      exact (samePart_started s s' r).complete r.cid
  | ignored hcont hother =>
      have hnone : ¬ s.Assembling r.cid := fun hpending =>
        hother.elim (fun hne => hne hpending.2.symm) hpending.1
      have hnone' : ¬ s'.Assembling r.cid := mt h.assembling.2 hnone
      have hother' : r.cid ≠ s'.cid ∨ s'.expectedLen = 0 := by
        by_contra hnot
        rw [not_or, not_not] at hnot
        exact hnone' ⟨hnot.2, hnot.1.symm⟩
      rw [processCtaphid_ignored hcont hother']
      exact ⟨rfl, sameMessage_none hnone hnone'⟩
  | outOfOrder hcont hpending hne =>
      have hpart := h.part hpending
      rw [processCtaphid_outOfOrder hcont (h.assembling.1 hpending) (hpart.seq ▸ hne)]
      exact ⟨rfl, sameMessage_none (fun hs => hs.1 rfl) fun hs => hs.1 rfl⟩
  | copied hcont hpending heq =>
      have hpart := h.part hpending
      rw [processCtaphid_copied hcont (h.assembling.1 hpending) (hpart.seq ▸ heq)]
      exact (hpart.continued r).complete r.cid

theorem contentsOn_other {msg : Option Message}
    (h : ∀ m, msg = some m → m.cid ≠ cid) : contentsOn cid msg.toList = [] := by
  cases msg with
  | none => rfl
  | some m => simp [contentsOn, h m rfl]

theorem not_assembling_complete (s : Hid) (h : s.cid ≠ cid) (cid' : ℕ) :
    ¬ (complete s cid').1.Assembling cid := by
  intro hpending
  rw [Hid.Assembling, complete_cid] at hpending
  exact h hpending.2

/-- A packet of another channel is not seen by the channel, unless it is an accepted
initialization packet which comes while a message of the channel is in progress. -/
theorem SameMessage.other (h : SameMessage cid s s') (hr : r.cid ≠ cid)
    (hrefused : s.Assembling cid → ¬ r.Accepted) :
    contentsOn cid (processCtaphid s r).2.toList = [] ∧
      SameMessage cid (processCtaphid s r).1 s' := by
  by_cases hpending : s.Assembling cid
  · obtain ⟨hnone, hkept⟩ := processCtaphid_other hpending hr (hrefused hpending)
    rw [hnone]
    exact ⟨rfl, h.congr hkept rfl⟩
  have hnone' : ¬ s'.Assembling cid := mt h.assembling.2 hpending
  have hcases := processCtaphid_cases s r
  generalize processCtaphid s r = result at hcases
  cases hcases with
  | short => exact ⟨rfl, h⟩
  | cancel => exact ⟨rfl, h.congr rfl rfl⟩
  | dropped => exact ⟨rfl, h.congr rfl rfl⟩
  | accepted =>
      refine ⟨contentsOn_other fun msg hmsg => ?_,
        sameMessage_none (not_assembling_complete (s.started r) hr _) hnone'⟩
      rw [complete_message hmsg]
      exact hr
  | ignored => exact ⟨rfl, h.congr rfl rfl⟩
  | outOfOrder => exact ⟨rfl, sameMessage_none (fun hs => hs.1 rfl) hnone'⟩
  | copied _ hmine =>
      have hother : (s.continued r).cid ≠ cid := by
        change s.cid ≠ cid
        rw [hmine.2]
        exact hr
      refine ⟨contentsOn_other fun msg hmsg => ?_,
        sameMessage_none (not_assembling_complete _ hother _) hnone'⟩
      rw [complete_message hmsg]
      exact hr

end

/-! ## The packets of a run -/

section

/-- The packet which `ProcessCTAPHID` is given by this step. -/
def System.taken (c : System) : Action → Option Report
  | .run _ => match c.phase with
    | .main => if c.ring.remainPack = 0 then none else some c.ring.head
    | .setReport => if c.hidSetReportFlag then some c.hidReportBuffer else none
    | _ => none
  | _ => none

/-- The packet which `Process_OOB_Commands` looks at in this step. -/
def System.polled (c : System) : Action → Option Report
  | .run _ => match c.phase with
    | .poll _ _ => if c.ring.remainPack = 0 then none else some c.ring.head
    | _ => none
  | _ => none

/-- No packet of another channel takes over a message of the channel, and no CANCEL of
another channel is taken while a request of the channel waits. -/
structure Isolates (cid : ℕ) (c : System) (a : Action) : Prop where
  refused : ∀ r, c.taken a = some r → r.cid ≠ cid → c.hid.Assembling cid → ¬ r.Accepted
  cancel : ∀ r, c.polled a = some r → c.hid.currentCid = cid → r.IsCancel → r.cid = cid

instance (cid : ℕ) (c : System) (a : Action) : Decidable (Isolates cid c a) :=
  decidable_of_iff ((∀ r ∈ c.taken a, r.cid ≠ cid → c.hid.Assembling cid → ¬ r.Accepted) ∧
      ∀ r ∈ c.polled a, c.hid.currentCid = cid → 5 ≤ r.len ∧ r.byte 4 = 0x91 → r.cid = cid)
    ⟨fun h => ⟨h.1, h.2⟩, fun h => ⟨h.refused, h.cancel⟩⟩

/-- The packets which a list of actions hands to `ProcessCTAPHID`, in order. -/
def System.packets (c : System) : List Action → List Report
  | [] => []
  | a :: rest => (c.taken a).toList ++ ((c.step a).map fun c' => c'.packets rest).getD []

/-- The messages which a list of actions dispatches, in order. -/
def System.dispatched (c : System) : List Action → List Message
  | [] => []
  | a :: rest =>
      ((c.taken a).bind fun r => (processCtaphid c.hid r).2).toList ++
        ((c.step a).map fun c' => c'.dispatched rest).getD []

variable {c c' : System} {a : Action} {cid : ℕ}

/-- What `Process_OOB_Commands` may change: the channel variable of INIT, and the flag
for a CANCEL or for an INIT on the current channel. -/
theorem oobCommand_keeps {q : Ring} {s s' : Hid}
    {reply : Option (ℕ × UInt8 × List UInt8)} (h : oobCommand q s = some (s', reply)) :
    s'.assembly = s.assembly ∧ s'.currentCid = s.currentCid ∧
      (s'.cancelRequested = s.cancelRequested ∨ q.head.IsCancel ∨
        q.head.byte 4 = 0x86 ∧ q.head.cid = s.currentCid) := by
  simp only [oobCommand] at h
  split_ifs at h with hempty hkind hwink hcancel hinit hshort hbroadcast
  · obtain ⟨rfl, -⟩ := Prod.mk.inj (Option.some.inj h)
    exact ⟨rfl, rfl, .inl rfl⟩
  · obtain ⟨rfl, -⟩ := Prod.mk.inj (Option.some.inj h)
    rw [not_or] at hkind
    exact ⟨rfl, rfl, .inr (.inl ⟨Nat.le_of_not_lt hkind.1, hcancel⟩)⟩
  · obtain ⟨rfl, -⟩ := Prod.mk.inj (Option.some.inj h)
    exact ⟨rfl, rfl, .inl rfl⟩
  · obtain ⟨rfl, -⟩ := Prod.mk.inj (Option.some.inj h)
    exact ⟨rfl, rfl, .inl rfl⟩
  · obtain ⟨rfl, -⟩ := Prod.mk.inj (Option.some.inj h)
    refine ⟨rfl, rfl, ?_⟩
    by_cases hmine : q.head.cid = s.currentCid
    · exact .inr (.inr ⟨hinit, hmine⟩)
    · left
      simp [hmine]

/-- A step gives one packet to `ProcessCTAPHID`, or leaves the messages alone. -/
theorem step_hid (h : c.step a = some c') :
    (∀ r, c.taken a = some r → c'.hid = (processCtaphid c.hid r).1) ∧
      (c.taken a = none → c'.hid.assembly = c.hid.assembly ∧
        c'.hid.currentCid = c.hid.currentCid) := by
  cases a with
  | enqueue r =>
      simp only [System.step] at h
      split_ifs at h
      cases h
      exact ⟨by simp [System.taken], fun _ => ⟨rfl, rfl⟩⟩
  | arriveReport r =>
      cases h
      exact ⟨by simp [System.taken], fun _ => ⟨rfl, rfl⟩⟩
  | wait =>
      refine ⟨by simp [System.taken], fun _ => ?_⟩
      cases hphase : c.phase with
      | handler src cid cmd =>
          simp only [System.step, hphase] at h
          split_ifs at h
          cases h
          exact ⟨rfl, rfl⟩
      | _ => simp [System.step, hphase] at h
  | run val =>
      cases hphase : c.phase with
      | main =>
          simp only [System.step, hphase] at h
          simp only [System.taken, hphase]
          split_ifs at h ⊢ <;> cases h
          · exact ⟨by simp, fun _ => ⟨rfl, rfl⟩⟩
          · exact ⟨by rintro r ⟨⟩; rfl, by simp⟩
      | setReport =>
          simp only [System.step, hphase] at h
          simp only [System.taken, hphase]
          split_ifs at h ⊢ <;> cases h
          · exact ⟨by rintro r ⟨⟩; rfl, by simp⟩
          · exact ⟨by simp, fun _ => ⟨rfl, rfl⟩⟩
      | sample src w =>
          refine ⟨by simp [System.taken, hphase], fun _ => ?_⟩
          simp only [System.step, hphase] at h
          split_ifs at h <;> cases h <;> exact ⟨rfl, rfl⟩
      | poll src w =>
          refine ⟨by simp [System.taken, hphase], fun _ => ?_⟩
          simp only [System.step, hphase] at h
          cases hoob : oobCommand c.ring c.hid with
          | none =>
              rw [hoob] at h
              cases h
              exact ⟨rfl, rfl⟩
          | some x =>
              rw [hoob] at h
              cases h
              have hkeeps := oobCommand_keeps hoob
              exact ⟨hkeeps.1, hkeeps.2.1⟩
      | check src w =>
          refine ⟨by simp [System.taken, hphase], fun _ => ?_⟩
          simp only [System.step, hphase] at h
          split_ifs at h <;> cases h <;> exact ⟨rfl, rfl⟩
      | release src =>
          refine ⟨by simp [System.taken, hphase], fun _ => ?_⟩
          cases src <;> simp only [System.step, hphase] at h <;> cases h <;> exact ⟨rfl, rfl⟩
      | _ =>
          refine ⟨by simp [System.taken, hphase], fun _ => ?_⟩
          simp only [System.step, hphase] at h
          cases h
          exact ⟨rfl, rfl⟩

/-! ## What a run hands over -/

theorem contentsOn_append (cid : ℕ) (xs ys : List Message) :
    contentsOn cid (xs ++ ys) = contentsOn cid xs ++ contentsOn cid ys := by
  simp [contentsOn]

/-- A channel is handed what it would be handed without the packets of the others. -/
theorem contentsOn_dispatched {actions : List Action} {s' : Hid}
    (hrun : Run System.step c actions c')
    (hguard : Run.Guarded System.step (Isolates cid) c actions)
    (hsame : SameMessage cid c.hid s') :
    contentsOn cid (c.dispatched actions) =
      contentsOn cid (messages s' ((c.packets actions).filter fun r => r.cid = cid)) := by
  induction actions generalizing c s' with
  | nil => rfl
  | cons a actions ih =>
      obtain ⟨t, hstep, hrest⟩ := Run.cons_iff.1 hrun
      obtain ⟨hisolates, hguarded⟩ := Run.guarded_cons.1 hguard
      have hhid := step_hid hstep
      simp only [System.dispatched, System.packets, hstep, Option.map_some,
        Option.getD_some]
      cases htaken : c.taken a with
      | none =>
          have hkept := hsame.congr (hhid.2 htaken).1 rfl
          simpa [contentsOn] using ih hrest (hguarded t hstep) hkept
      | some r =>
          have hnext := hhid.1 r htaken
          by_cases hmine : r.cid = cid
          · obtain ⟨hmsg, hkept⟩ := hsame.own hmine
            rw [← hnext] at hkept
            have hfilter : (([r] : List Report) ++ t.packets actions).filter
                (fun r => r.cid = cid) =
                r :: (t.packets actions).filter fun r => r.cid = cid := by
              simp [hmine]
            rw [Option.toList_some, hfilter, messages, contentsOn_append, contentsOn_append,
              Option.bind_some, hmsg, ih hrest (hguarded t hstep) hkept]
          · obtain ⟨hmsg, hkept⟩ := hsame.other hmine (hisolates.refused r htaken hmine)
            rw [← hnext] at hkept
            have hfilter : (([r] : List Report) ++ t.packets actions).filter
                (fun r => r.cid = cid) =
                (t.packets actions).filter fun r => r.cid = cid := by
              simp [hmine]
            rw [Option.toList_some, hfilter, contentsOn_append, Option.bind_some, hmsg,
              List.nil_append, ih hrest (hguarded t hstep) hkept]

/-! ## The touch wait -/

/-- In the wait for a touch, before it returns. -/
def Phase.waits : Phase → Bool
  | .calibrate _ | .sample _ _ | .poll _ _ | .consume _ _ | .check _ _ => true
  | _ => false

/-- Since the wait started in `t`, a CANCEL or an INIT of the channel has been taken. -/
def OwnCancel (cid : ℕ) (t : System) (waited : List Action) : Prop :=
  ∃ before a after u r, waited = before ++ a :: after ∧
    Run System.step t (.wait :: before) u ∧ u.polled a = some r ∧ r.cid = cid ∧
    (r.IsCancel ∨ r.byte 4 = 0x86)

variable {t : System} {waited : List Action}

theorem OwnCancel.snoc (h : OwnCancel cid t waited) (a : Action) :
    OwnCancel cid t (waited ++ [a]) := by
  obtain ⟨before, b, after, u, r, hsplit, hrest⟩ := h
  exact ⟨before, b, after ++ [a], u, r, by simp [hsplit], hrest⟩

structure WaitInvariant (cid : ℕ) (t : System) (waited : List Action) (c : System) :
    Prop where
  channel : c.phase.waits = true → c.hid.currentCid = cid
  flag : c.phase.waits = true → c.hid.cancelRequested = true → OwnCancel cid t waited
  ended : ∀ src, c.phase = .returned src 0x2D → OwnCancel cid t waited

/-- A poll in the wait sets the flag for a packet of the channel only. -/
theorem ownCancel_of_poll {src : Source} {w : TouchWait} {val : ℕ} {s' : Hid}
    {reply : Option (ℕ × UInt8 × List UInt8)} (h : WaitInvariant cid t waited c)
    (hrun : Run System.step t (.wait :: waited) c) (hphase : c.phase = .poll src w)
    (hguard : Isolates cid c (.run val)) (hoob : oobCommand c.ring c.hid = some (s', reply))
    (hflag : s'.cancelRequested = true) : OwnCancel cid t (waited ++ [.run val]) := by
  have hwaits : c.phase.waits = true := by rw [hphase]; rfl
  have hchannel := h.channel hwaits
  have hpolled : c.polled (.run val) = some c.ring.head := by
    simp only [System.polled, hphase]
    rw [if_neg (by have := oobCommand_pos hoob; omega)]
  have hnew : c.ring.head.cid = cid →
      c.ring.head.IsCancel ∨ c.ring.head.byte 4 = 0x86 →
      OwnCancel cid t (waited ++ [.run val]) := fun hmine hkind =>
    ⟨waited, .run val, [], c, c.ring.head, rfl, hrun, hpolled, hmine, hkind⟩
  rcases (oobCommand_keeps hoob).2.2 with hsame | hcancel | ⟨hinit, hmine⟩
  · exact (h.flag hwaits (hsame ▸ hflag)).snoc _
  · exact hnew (hguard.cancel _ hpolled hchannel hcancel) (.inl hcancel)
  · exact hnew (hmine.trans hchannel) (.inr hinit)

theorem dispatchPhase_outside (src : Source) (msg : Option Message) :
    (dispatchPhase src msg).waits = false ∧
      ∀ src' status, dispatchPhase src msg ≠ .returned src' status := by
  rcases dispatchPhase_cases src msg with h | ⟨cid, cmd, h⟩
  · rw [h]
    exact ⟨rfl, fun _ _ => Phase.noConfusion⟩
  · rw [h]
    exact ⟨rfl, fun _ _ => Phase.noConfusion⟩

theorem waitInvariant_step (h : WaitInvariant cid t waited c)
    (hrun : Run System.step t (.wait :: waited) c) (hguard : Isolates cid c a)
    (hwait : a ≠ .wait) (hstep : c.step a = some c') :
    WaitInvariant cid t (waited ++ [a]) c' := by
  have hinside : c.phase.waits = true → c'.hid = c.hid →
      (∀ src, c'.phase ≠ .returned src 0x2D) → WaitInvariant cid t (waited ++ [a]) c' := by
    intro hwaits hhid hnot
    refine ⟨fun _ => ?_, fun _ hset => ?_, fun src hend => absurd hend (hnot src)⟩
    · rw [hhid]
      exact h.channel hwaits
    · rw [hhid] at hset
      exact (h.flag hwaits hset).snoc a
  have houtside : c'.phase.waits = false → (∀ src, c'.phase ≠ .returned src 0x2D) →
      WaitInvariant cid t (waited ++ [a]) c' := by
    intro hnone hnot
    exact ⟨by simp [hnone], by simp [hnone], fun src hend => absurd hend (hnot src)⟩
  cases a with
  | enqueue r =>
      simp only [System.step] at hstep
      split_ifs at hstep
      cases hstep
      exact ⟨h.channel, fun hw hset => (h.flag hw hset).snoc _,
        fun src hend => (h.ended src hend).snoc _⟩
  | arriveReport r =>
      cases hstep
      exact ⟨h.channel, fun hw hset => (h.flag hw hset).snoc _,
        fun src hend => (h.ended src hend).snoc _⟩
  | wait => exact absurd rfl hwait
  | run val =>
      cases hphase : c.phase with
      | main =>
          simp only [System.step, hphase] at hstep
          split_ifs at hstep <;> cases hstep
          · exact houtside rfl fun _ => Phase.noConfusion
          · have hout := dispatchPhase_outside .ring (processCtaphid c.hid c.ring.head).2
            exact houtside hout.1 fun src => hout.2 src _
      | setReport =>
          simp only [System.step, hphase] at hstep
          split_ifs at hstep <;> cases hstep
          · have hout := dispatchPhase_outside .report
              (processCtaphid c.hid c.hidReportBuffer).2
            exact houtside hout.1 fun src => hout.2 src _
          · exact houtside rfl fun _ => Phase.noConfusion
      | calibrate src =>
          simp only [System.step, hphase] at hstep
          cases hstep
          exact hinside (by rw [hphase]; rfl) rfl fun _ => Phase.noConfusion
      | sample src w =>
          have hwaits : c.phase.waits = true := by rw [hphase]; rfl
          simp only [System.step, hphase] at hstep
          split_ifs at hstep <;> cases hstep
          · exact houtside rfl (by simp)
          · exact hinside hwaits rfl fun _ => Phase.noConfusion
          · exact hinside hwaits rfl fun _ => Phase.noConfusion
      | poll src w =>
          have hwaits : c.phase.waits = true := by rw [hphase]; rfl
          have hpoll := hstep
          simp only [System.step, hphase] at hpoll
          cases hoob : oobCommand c.ring c.hid with
          | none =>
              rw [hoob] at hpoll
              cases hpoll
              exact hinside hwaits rfl fun _ => Phase.noConfusion
          | some x =>
              rw [hoob] at hpoll
              cases hpoll
              refine ⟨fun _ => ?_, fun _ hset => ?_, fun _ => Phase.noConfusion⟩
              · exact (oobCommand_keeps hoob).2.1.trans (h.channel hwaits)
              · exact ownCancel_of_poll h hrun hphase hguard hoob hset
      | consume src w =>
          simp only [System.step, hphase] at hstep
          cases hstep
          exact hinside (by rw [hphase]; rfl) rfl fun _ => Phase.noConfusion
      | check src w =>
          have hwaits : c.phase.waits = true := by rw [hphase]; rfl
          simp only [System.step, hphase] at hstep
          split_ifs at hstep with hset hlate <;> cases hstep
          · exact ⟨by simp [Phase.waits], by simp [Phase.waits],
              fun _ _ => (h.flag hwaits hset).snoc _⟩
          · exact houtside rfl (by simp)
          · exact hinside hwaits rfl fun _ => Phase.noConfusion
      | release src =>
          cases src <;> simp only [System.step, hphase] at hstep <;> cases hstep <;>
            exact houtside rfl fun _ => Phase.noConfusion
      | _ =>
          simp only [System.step, hphase] at hstep
          cases hstep
          exact houtside rfl fun _ => Phase.noConfusion

theorem processCtaphid_message {s : Hid} {r : Report} {msg : Message}
    (h : (processCtaphid s r).2 = some msg) :
    msg.cid = r.cid ∧ (processCtaphid s r).1.currentCid = r.cid := by
  have hcases := processCtaphid_cases s r
  generalize processCtaphid s r = result at h hcases
  cases hcases with
  | accepted => exact ⟨by rw [complete_message h], complete_currentCid _ _⟩
  | copied => exact ⟨by rw [complete_message h], complete_currentCid _ _⟩
  | _ => simp at h

/-- The command which is running came on the current channel. -/
def OnCurrentChannel (c : System) : Prop :=
  ∀ src cid cmd, c.phase = .handler src cid cmd → c.hid.currentCid = cid

theorem onCurrentChannel_process (c : System) (src : Source) (r : Report) :
    OnCurrentChannel (c.process src r) := by
  intro src' cid cmd hphase
  change dispatchPhase src (processCtaphid c.hid r).2 = _ at hphase
  change (processCtaphid c.hid r).1.currentCid = cid
  cases hmsg : (processCtaphid c.hid r).2 with
  | none =>
      rw [hmsg] at hphase
      cases hphase
  | some msg =>
      have hspec := processCtaphid_message hmsg
      rw [hmsg, dispatchPhase] at hphase
      split_ifs at hphase
      rw [Phase.handler.injEq] at hphase
      rw [hspec.2, ← hspec.1, hphase.2.1]

theorem onCurrentChannel_step (h : OnCurrentChannel c) (hstep : c.step a = some c') :
    OnCurrentChannel c' := by
  have hout : (∀ src cid cmd, c'.phase ≠ .handler src cid cmd) → OnCurrentChannel c' :=
    fun hnot src cid cmd hphase => absurd hphase (hnot src cid cmd)
  cases a with
  | enqueue r =>
      simp only [System.step] at hstep
      split_ifs at hstep
      cases hstep
      exact h
  | arriveReport r =>
      cases hstep
      exact h
  | wait =>
      cases hphase : c.phase with
      | handler src cid cmd =>
          simp only [System.step, hphase] at hstep
          split_ifs at hstep
          cases hstep
          exact hout fun _ _ _ => Phase.noConfusion
      | _ => simp [System.step, hphase] at hstep
  | run val =>
      cases hphase : c.phase with
      | main =>
          simp only [System.step, hphase] at hstep
          split_ifs at hstep <;> cases hstep
          · exact hout fun _ _ _ => Phase.noConfusion
          · exact onCurrentChannel_process _ _ _
      | setReport =>
          simp only [System.step, hphase] at hstep
          split_ifs at hstep <;> cases hstep
          · exact onCurrentChannel_process _ _ _
          · exact hout fun _ _ _ => Phase.noConfusion
      | sample src w =>
          simp only [System.step, hphase] at hstep
          split_ifs at hstep <;> cases hstep <;> exact hout fun _ _ _ => Phase.noConfusion
      | poll src w =>
          simp only [System.step, hphase] at hstep
          cases hoob : oobCommand c.ring c.hid with
          | none =>
              rw [hoob] at hstep
              cases hstep
              exact hout fun _ _ _ => Phase.noConfusion
          | some x =>
              rw [hoob] at hstep
              cases hstep
              exact hout fun _ _ _ => Phase.noConfusion
      | check src w =>
          simp only [System.step, hphase] at hstep
          split_ifs at hstep <;> cases hstep <;> exact hout fun _ _ _ => Phase.noConfusion
      | release src =>
          cases src <;> simp only [System.step, hphase] at hstep <;> cases hstep <;>
            exact hout fun _ _ _ => Phase.noConfusion
      | _ =>
          simp only [System.step, hphase] at hstep
          cases hstep
          exact hout fun _ _ _ => Phase.noConfusion

/-- A wait of the channel which returns as cancelled has been cancelled by the
channel. -/
theorem ownCancel_of_cancelled {before : List Action} {src src' : Source} {cmd : UInt8}
    (hbefore : Run System.step System.powerUp before t)
    (hphase : t.phase = .handler src cid cmd) (hwait : Action.wait ∉ waited)
    (hrun : Run System.step t (.wait :: waited) c)
    (hguard : Run.Guarded System.step (Isolates cid) t (.wait :: waited))
    (hdone : c.phase = .returned src' 0x2D) : OwnCancel cid t waited := by
  have hchannel : t.hid.currentCid = cid := by
    refine hbefore.invariant (fun _ _ _ h hstep => onCurrentChannel_step h hstep) ?_ _ _ _
      hphase
    exact fun _ _ _ => Phase.noConfusion
  have hinv : WaitInvariant cid t waited c := by
    clear hdone
    induction waited using List.reverseRecOn generalizing c with
    | nil =>
        obtain ⟨u, hstep, hnil⟩ := Run.cons_iff.1 hrun
        obtain rfl := Run.nil_iff.1 hnil
        simp only [System.step, hphase] at hstep
        split_ifs at hstep
        cases hstep
        exact ⟨fun _ => hchannel, fun _ hset => absurd hset (by simp),
          fun _ => Phase.noConfusion⟩
    | append_singleton waited a ih =>
        rw [← List.cons_append] at hrun hguard
        obtain ⟨u, hu, hstep⟩ := Run.snoc_iff.1 hrun
        rw [List.mem_append, List.mem_singleton, not_or] at hwait
        exact waitInvariant_step (ih hwait.1 hu hguard.left) hu
          (hguard _ a [] u rfl hu) (fun ha => hwait.2 ha.symm) hstep
  exact hinv.ended src' hdone

/-! ## Isolation -/

/-- What a channel notices of the others in a run: nothing. -/
structure Isolated (cid : ℕ) (actions : List Action) (c : System) : Prop where
  /-- A message in progress is changed by packets of its own channel only. -/
  message : ∀ before a after t u, actions = before ++ a :: after →
    Run System.step System.powerUp before t → t.step a = some u →
    t.hid.Assembling cid → (∀ r, t.taken a = some r → r.cid ≠ cid) →
    u.hid.assembly = t.hid.assembly
  /-- A wait is cancelled by packets of its own channel only. -/
  wait : ∀ before waited t src src' cmd, actions = before ++ .wait :: waited →
    Run System.step System.powerUp before t → t.phase = .handler src cid cmd →
    Action.wait ∉ waited → c.phase = .returned src' 0x2D → OwnCancel cid t waited
  /-- The channel is handed the messages of its own packets. -/
  handed : contentsOn cid (System.powerUp.dispatched actions) =
    contentsOn cid (messages Hid.powerUp
      ((System.powerUp.packets actions).filter fun r => r.cid = cid))

/-- In every run in which no other channel takes over its message or cancels its
wait, a channel is isolated. -/
theorem channel_isolated {actions : List Action}
    (hrun : Run System.step System.powerUp actions c)
    (hguard : Run.Guarded System.step (Isolates cid) System.powerUp actions) :
    Isolated cid actions c where
  message := by
    intro before a after t u hsplit hbefore hstep hpending hothers
    have hisolates := hguard before a after t hsplit hbefore
    have hhid := step_hid hstep
    cases htaken : t.taken a with
    | none => exact (hhid.2 htaken).1
    | some r =>
        have hother := hothers r htaken
        rw [hhid.1 r htaken]
        exact (processCtaphid_other hpending hother
          (hisolates.refused r htaken hother hpending)).2
  wait := by
    intro before waited t src src' cmd hsplit hbefore hphase hwait hdone
    subst hsplit
    obtain ⟨t', ht', hwaited⟩ := Run.append_iff.1 hrun
    obtain rfl := hbefore.unique ht'
    exact ownCancel_of_cancelled hbefore hphase hwait hwaited (hguard.right hbefore) hdone
  handed := contentsOn_dispatched hrun hguard (samePart_of_assembly rfl).sameMessage

end

/-! ## Two channels -/

/-- A PING of 58 bytes on channel `05060708`. -/
def otherInit : Report where
  bytes := [5, 6, 7, 8, 0x81, 0, 58] ++ List.replicate 57 0xCC
  fits := by decide

def otherContinuation : Report where
  bytes := [5, 6, 7, 8, 0, 0xDD]
  fits := by decide

def otherCancel : Report where
  bytes := [5, 6, 7, 8, 0x91, 0, 0]
  fits := by decide

/-- The first packet of a message comes in and goes through the main loop. -/
def pingStarts : List Action := [.enqueue pingInit, .run 0, .run 0, .run 0, .run 0]

def pingInterrupted (r : Report) : List Action :=
  pingStarts ++ [.enqueue r, .run 0]

theorem channel_isolated_ping : ∃ c,
    Run System.step System.powerUp (pingInterrupted otherContinuation) c ∧
      Isolated pingInit.cid (pingInterrupted otherContinuation) c := by
  have hruns : (exec System.step System.powerUp
      (pingInterrupted otherContinuation)).isSome = true := rfl
  obtain ⟨c, hexec⟩ := Option.isSome_iff_exists.1 hruns
  have hrun := Run.exec_iff.1 hexec
  exact ⟨c, hrun, channel_isolated hrun (Run.guarded_of_check (by decide))⟩

/-- An initialization packet of another channel takes the message over. -/
theorem channel_taken_over : ¬ ∀ (cid : ℕ) (actions : List Action) (c : System),
    Run System.step System.powerUp actions c → Isolated cid actions c := by
  intro h
  have hone : (exec System.step System.powerUp (pingStarts ++ [.enqueue otherInit])).map
      (fun t => (t.hid.expectedLen, t.hid.cid, (t.taken (.run 0)).map Report.cid)) =
      some (58, pingInit.cid, some otherInit.cid) := rfl
  have htwo : (exec System.step System.powerUp (pingInterrupted otherInit)).map
      (fun u => u.hid.cid) = some otherInit.cid := rfl
  obtain ⟨t, ht, hpending⟩ := Option.map_eq_some_iff.1 hone
  obtain ⟨u, hu, htaken⟩ := Option.map_eq_some_iff.1 htwo
  simp only [Prod.mk.injEq] at hpending
  have hrun := Run.exec_iff.1 hu
  have hbefore := Run.exec_iff.1 ht
  have hsplit : pingInterrupted otherInit =
      (pingStarts ++ [.enqueue otherInit]) ++ .run 0 :: [] := rfl
  have hstep : t.step (.run 0) = some u := by
    rw [hsplit] at hrun
    obtain ⟨t', ht', hstep⟩ := Run.snoc_iff.1 hrun
    rw [hbefore.unique ht']
    exact hstep
  have hkept := (h pingInit.cid _ u hrun).message _ _ _ t u hsplit hbefore hstep
    ⟨by rw [hpending.1]; decide, hpending.2.1⟩ (by
      intro r hr
      rw [hr, Option.map_some, Option.some.injEq] at hpending
      rw [hpending.2.2]
      decide)
  have hcid : u.hid.assembly.cid = t.hid.assembly.cid := by rw [hkept]
  change u.hid.cid = t.hid.cid at hcid
  rw [htaken, hpending.2.1] at hcid
  exact absurd hcid (by decide)

/-- An authenticatorReset by SET_REPORT on channel `01020304`. -/
def resetReport : Report where
  bytes := resetPacket.bytes ++ List.replicate 56 0
  fits := by decide

def resetReported : List Action := [.arriveReport resetReport, .run 0, .run 0]

/-- The wait polls once, after a CANCEL on channel `05060708` has arrived. -/
def waitDisturbed : List Action :=
  [.run 1000, .enqueue otherCancel, .run 1000, .run 0, .run 0, .run 0]

def PolledOther (cid : ℕ) (c : System) (a : Action) : Prop :=
  ∀ r ∈ c.polled a, r.cid ≠ cid

instance (cid : ℕ) (c : System) (a : Action) : Decidable (PolledOther cid c a) :=
  inferInstanceAs (Decidable (∀ r ∈ c.polled a, r.cid ≠ cid))

theorem not_ownCancel {cid : ℕ} {t : System} {waited : List Action}
    (h : Run.Guarded System.step (PolledOther cid) t (.wait :: waited)) :
    ¬ OwnCancel cid t waited := by
  rintro ⟨before, a, after, u, r, rfl, hrun, hpolled, hmine, -⟩
  exact h (.wait :: before) a after u rfl hrun r hpolled hmine

/-- A CANCEL of another channel ends the wait of a request. -/
theorem otherCancel_ends_wait : ∃ t c,
    Run System.step System.powerUp resetReported t ∧
      t.phase = .handler .report resetReport.cid 0x07 ∧
      Run System.step t (.wait :: waitDisturbed) c ∧
      c.phase = .returned .report 0x2D ∧ ¬ OwnCancel resetReport.cid t waitDisturbed := by
  have hone : (exec System.step System.powerUp resetReported).map System.phase =
      some (.handler .report resetReport.cid 0x07) := rfl
  have htwo : (exec System.step System.powerUp
      (resetReported ++ .wait :: waitDisturbed)).map System.phase =
      some (.returned .report 0x2D) := rfl
  have hother : Run.Guarded System.step (PolledOther resetReport.cid) System.powerUp
      (resetReported ++ .wait :: waitDisturbed) := Run.guarded_of_check (by decide)
  obtain ⟨t, ht, hphase⟩ := Option.map_eq_some_iff.1 hone
  obtain ⟨c, hc, hdone⟩ := Option.map_eq_some_iff.1 htwo
  rw [Run.exec_iff] at ht hc
  obtain ⟨t', ht', hwait⟩ := Run.append_iff.1 hc
  rw [ht'.unique ht] at hwait
  exact ⟨t, c, ht, hphase, hwait, hdone, not_ownCancel (hother.right ht)⟩

end UnsoloKey
