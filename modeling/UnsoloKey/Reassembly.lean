import UnsoloKey.Ctaphid
import Mathlib.Tactic

/-!
# Reassembly of CTAPHID messages

A message is put together from one initialization packet and the continuation
packets of its channel which follow.  The invariant says what the six globals
remember of the reports fed so far: which packet started the message, which
packets continued it, and that nothing else has come in on its channel.  The
source keeps the invariant on every exit except one: an initialization packet
which is too short or declares too much is dropped without giving up the
message it interrupts.
-/

namespace UnsoloKey

/-! ## Kinds of reports -/

namespace Report

def IsInit (r : Report) : Prop := 5 ≤ r.len ∧ r.byte 4 &&& 0x80 ≠ 0

def IsContinuation (r : Report) : Prop := 5 ≤ r.len ∧ r.byte 4 &&& 0x80 = 0

/-- An initialization packet other than CANCEL. -/
def Starts (r : Report) : Prop := r.IsInit ∧ r.byte 4 ≠ 0x91

def Accepted (r : Report) : Prop :=
  r.Starts ∧ 7 ≤ r.len ∧ r.payloadLen ≤ ctapReqBufSize

instance (r : Report) : Decidable r.IsInit :=
  inferInstanceAs (Decidable (_ ∧ _))
instance (r : Report) : Decidable r.IsContinuation :=
  inferInstanceAs (Decidable (_ ∧ _))
instance (r : Report) : Decidable r.Starts := inferInstanceAs (Decidable (_ ∧ _))
instance (r : Report) : Decidable r.Accepted :=
  inferInstanceAs (Decidable (_ ∧ _))

def initData (r : Report) : List UInt8 := r.bytes.drop 7

def continuationData (r : Report) : List UInt8 := r.bytes.drop 5

def seqNo (r : Report) : ℕ := (r.byte 4).toNat

end Report

def continuationsOf (cid : ℕ) (reports : List Report) : List Report :=
  reports.filter fun r => r.IsContinuation ∧ r.cid = cid

/-- The data of the initialization packet, then that of the continuations of
its channel. -/
def received (init : Report) (after : List Report) : List UInt8 :=
  init.initData ++
    (continuationsOf init.cid after).flatMap Report.continuationData

/-- The reports end with `init` and `after`; nothing else has started on the
channel, and its continuations are numbered from zero. -/
structure Transfer (past : List Report) (init : Report)
    (after : List Report) : Prop where
  split : ∃ before, past = before ++ init :: after
  accepted : init.Accepted
  undisturbed : ∀ r ∈ after, r.Starts → r.cid ≠ init.cid
  numbered : (continuationsOf init.cid after).map Report.seqNo =
    List.range (continuationsOf init.cid after).length

/-- The message is the transfer of one initialization packet, cut to the
length which that packet declares. -/
def Reassembled (past : List Report) (msg : Message) : Prop :=
  ∃ init after, Transfer past init after ∧ msg.cid = init.cid ∧
    msg.cmd = init.byte 4 ∧ msg.len = init.payloadLen ∧
    msg.payload = (received init after).take init.payloadLen

/-! ## The invariant -/

/-- The globals describe the transfer. -/
structure Pending (past : List Report) (s : Hid) (init : Report)
    (after : List Report) : Prop where
  transfer : Transfer past init after
  cid : s.cid = init.cid
  cmd : s.cmd = init.byte 4
  expected : s.expectedLen = init.payloadLen
  seq : s.seq.toNat = (continuationsOf init.cid after).length
  reqLen : s.reqLen = min s.expectedLen (received init after).length
  data : s.reqBuf.slice 0 s.reqLen =
    (received init after).take s.expectedLen

def HidInvariant (past : List Report) (s : Hid) : Prop :=
  s.expectedLen ≠ 0 → ∃ init after, Pending past s init after

/-- No packet which the message in progress would have to be given up for is
dropped: an initialization packet on its channel is accepted. -/
def Orderly (s : Hid) (r : Report) : Prop :=
  s.expectedLen ≠ 0 → r.Starts → r.cid = s.cid → r.Accepted

theorem continuationsOf_append (cid : ℕ) (reports reports' : List Report) :
    continuationsOf cid (reports ++ reports') =
      continuationsOf cid reports ++ continuationsOf cid reports' :=
  List.filter_append _ _

theorem Transfer.append {past after : List Report} {init r : Report}
    (h : Transfer past init after)
    (hstart : r.Starts → r.cid ≠ init.cid)
    (hseq : r.IsContinuation → r.cid = init.cid →
      r.seqNo = (continuationsOf init.cid after).length) :
    Transfer (past ++ [r]) init (after ++ [r]) where
  split := by
    cases h.split with
    | intro before hbefore => exact ⟨before, by simp [hbefore]⟩
  accepted := h.accepted
  undisturbed := by
    intro r' hr'
    rw [List.mem_append, List.mem_singleton] at hr'
    cases hr' with
    | inl hold => exact h.undisturbed r' hold
    | inr hnew =>
        subst hnew
        exact hstart
  numbered := by
    rw [continuationsOf_append]
    by_cases hcont : r.IsContinuation ∧ r.cid = init.cid
    · have hone : continuationsOf init.cid [r] = [r] := by
        simp [continuationsOf, hcont]
      have hno := hseq hcont.1 hcont.2
      simp only [hone, List.map_append, h.numbered, List.map_cons,
        List.map_nil, hno, List.length_append, List.length_singleton,
        List.range_succ]
    · have hnone : continuationsOf init.cid [r] = [] := by
        rw [continuationsOf, List.filter_eq_nil_iff]
        intro r' hr'
        rw [List.mem_singleton] at hr'
        subst hr'
        simpa using hcont
      simp [hnone, h.numbered]

theorem Pending.pass {past after : List Report} {s : Hid} {init r : Report}
    (h : Pending past s init after)
    (hstart : r.Starts → r.cid ≠ init.cid)
    (hcont : r.IsContinuation → r.cid ≠ init.cid) :
    Pending (past ++ [r]) s init (after ++ [r]) := by
  have hnone : continuationsOf init.cid (after ++ [r]) =
      continuationsOf init.cid after := by
    have hnil : continuationsOf init.cid [r] = [] := by
      rw [continuationsOf, List.filter_eq_nil_iff]
      intro r' hr'
      rw [List.mem_singleton] at hr'
      subst hr'
      simpa using hcont
    rw [continuationsOf_append, hnil, List.append_nil]
  have hsame : received init (after ++ [r]) = received init after := by
    rw [received, hnone, received]
  exact {
    transfer := h.transfer.append hstart fun hc hcid =>
      absurd hcid (hcont hc)
    cid := h.cid
    cmd := h.cmd
    expected := h.expected
    seq := by rw [hnone, h.seq]
    reqLen := by rw [hsame, h.reqLen]
    data := by rw [hsame, h.data] }

theorem HidInvariant.pass {past : List Report} {s s' : Hid} {r : Report}
    (h : HidInvariant past s)
    (hfields : s' = { s with
      currentCid := s'.currentCid, cancelRequested := s'.cancelRequested })
    (hstart : s.expectedLen ≠ 0 → r.Starts → r.cid ≠ s.cid)
    (hcont : s.expectedLen ≠ 0 → r.IsContinuation → r.cid ≠ s.cid) :
    HidInvariant (past ++ [r]) s' := by
  rw [hfields]
  intro hpending
  rcases h hpending with ⟨init, after, hp⟩
  have hq := hp.pass (hp.cid ▸ hstart hpending) (hp.cid ▸ hcont hpending)
  exact ⟨init, after ++ [r], ⟨hq.transfer, hq.cid, hq.cmd, hq.expected,
    hq.seq, hq.reqLen, hq.data⟩⟩

/-! ## The two receiving branches -/

theorem write_take_slice {m : Mem} {p n : ℕ} {old : List UInt8}
    (new : List UInt8) (hold : m.slice 0 p = old) :
    (m.write p (new.take n)).slice 0 (p + (new.take n).length) =
      old ++ new.take n := by
  rw [Mem.slice_write, hold]

theorem Pending.of_init {past : List Report} {s s' : Hid} {r : Report}
    (hstart : r.Starts) (h : receiveInit s r = some s') :
    Pending (past ++ [r]) s' r [] := by
  unfold receiveInit at h
  split_ifs at h with hshort hlarge
  rw [Option.some.injEq] at h
  subst h
  have hlen : r.initData.length = r.len - 7 := by
    simp [Report.initData, Report.len]
  have hreceived : received r [] = r.initData := by
    simp [received, continuationsOf]
  have hmin : (if r.len - 7 > r.payloadLen then r.payloadLen
      else r.len - 7) = min r.payloadLen r.initData.length := by
    rw [hlen]
    split_ifs <;> omega
  exact {
    transfer := {
      split := ⟨past, rfl⟩
      accepted := ⟨hstart, by omega, by omega⟩
      undisturbed := by simp
      numbered := by simp [continuationsOf] }
    cid := rfl
    cmd := rfl
    expected := rfl
    seq := rfl
    reqLen := by rw [hreceived]; exact hmin
    data := by
      simp only [hmin, hreceived]
      have htake : r.initData.take (min r.payloadLen r.initData.length) =
          r.initData.take r.payloadLen := by
        rw [← List.take_take, List.take_length]
      have hempty : s.reqBuf.slice 0 0 = [] := rfl
      have hcopied := write_take_slice (n := min r.payloadLen r.initData.length)
        r.initData hempty
      rw [List.length_take, Nat.zero_add, Nat.min_assoc, Nat.min_self,
        List.nil_append, htake] at hcopied
      rw [← htake] at hcopied ⊢
      exact hcopied }

theorem lt_of_no_top_bit {b : UInt8} (h : b &&& 0x80 = 0) : b.toNat < 128 := by
  have hall : ∀ n : Fin 256, n.val &&& 128 = 0 → n.val < 128 := by
    decide +kernel
  have hbit : b.toNat &&& 128 = 0 := by
    simpa using congrArg UInt8.toNat h
  exact hall ⟨b.toNat, b.toNat_lt⟩ hbit

theorem Pending.of_continuation {past after : List Report} {s s' : Hid}
    {init r : Report} (h : Pending past s init after)
    (hcont : r.IsContinuation)
    (hrecv : receiveContinuation s r = (s', true)) :
    Pending (past ++ [r]) s' init (after ++ [r]) := by
  unfold receiveContinuation at hrecv
  split_ifs at hrecv with hother hseq
  · simp at hrecv
  · simp at hrecv
  · rw [not_or] at hother
    have hcid : r.cid = init.cid := by
      rw [← h.cid]
      exact not_not.1 hother.1
    have hno : r.byte 4 = s.seq := not_not.1 hseq
    simp only [Prod.mk.injEq, and_true] at hrecv
    subst hrecv
    have hone : continuationsOf init.cid [r] = [r] := by
      simp [continuationsOf, hcont, hcid]
    have hconts : continuationsOf init.cid (after ++ [r]) =
        continuationsOf init.cid after ++ [r] := by
      rw [continuationsOf_append, hone]
    have hreceived : received init (after ++ [r]) =
        received init after ++ r.continuationData := by
      simp [received, hconts]
    have hlen : r.continuationData.length = r.len - 5 := by
      simp [Report.continuationData, Report.len]
    have hbound : s.expectedLen ≤ 1024 := by
      rw [h.expected]
      exact h.transfer.accepted.2.2
    have hsmall : r.len ≤ 64 := r.fits
    have hreq := h.reqLen
    have hremain : u16 (s.expectedLen + 65536 - s.reqLen) =
        s.expectedLen - s.reqLen := by
      unfold u16
      omega
    have hcopy : (if r.len - 5 > u16 (s.expectedLen + 65536 - s.reqLen) then
        u16 (s.expectedLen + 65536 - s.reqLen) else r.len - 5) =
        min (s.expectedLen - s.reqLen) r.continuationData.length := by
      rw [hremain, hlen]
      split_ifs <;> omega
    have htop : (r.byte 4).toNat < 128 := lt_of_no_top_bit hcont.2
    have hnum : r.seqNo = (continuationsOf init.cid after).length := by
      rw [Report.seqNo, hno, h.seq]
    exact {
      transfer := h.transfer.append
        (fun hstart => absurd hcont.2 hstart.1.2) fun _ _ => hnum
      cid := h.cid
      cmd := h.cmd
      expected := h.expected
      seq := by
        rw [hconts, List.length_append, List.length_singleton, ← h.seq]
        rw [hno] at htop
        simp only [UInt8.toNat_add, UInt8.reduceToNat]
        omega
      reqLen := by
        simp only [hcopy, hreceived, List.length_append]
        unfold u16
        omega
      data := by
        simp only [hcopy, hreceived]
        have hfull : s.reqLen + (r.continuationData.take
            (min (s.expectedLen - s.reqLen)
              r.continuationData.length)).length =
            u16 (s.reqLen + min (s.expectedLen - s.reqLen)
              r.continuationData.length) := by
          rw [List.length_take]
          unfold u16
          omega
        have hcopied := write_take_slice
          (n := min (s.expectedLen - s.reqLen) r.continuationData.length)
          r.continuationData h.data
        rw [hfull] at hcopied
        refine hcopied.trans ?_
        rw [List.take_append, ← List.take_take, List.take_length]
        congr 1
        by_cases hroom : (received init after).length ≤ s.expectedLen
        · rw [hreq, Nat.min_eq_right hroom]
        · have hzero : s.expectedLen - s.reqLen = 0 := by omega
          have hzero' : s.expectedLen - (received init after).length = 0 := by
            omega
          rw [hzero, hzero'] }

/-! ## One report -/

theorem complete_spec {past after : List Report} {s : Hid} {init : Report}
    {cid : ℕ} (h : Pending past s init after) (hcid : cid = s.cid) :
    (∀ msg, (complete s cid).2 = some msg → Reassembled past msg) ∧
      HidInvariant past (complete s cid).1 := by
  unfold complete
  split_ifs with hdone
  · constructor
    · intro msg hmsg
      rw [Option.some.injEq] at hmsg
      subst hmsg
      refine ⟨init, after, h.transfer, hcid.trans h.cid, h.cmd, h.expected, ?_⟩
      rw [← h.expected, ← h.data, hdone.1]
      rfl
    · intro hpending
      exact absurd rfl hpending
  · constructor
    · intro msg hmsg
      cases hmsg
    · intro _
      exact ⟨init, after, h⟩

theorem Report.starts_or {r : Report} (hlen : ¬ r.len < 5)
    (hcancel : r.byte 4 ≠ 0x91) : r.Starts ∨ r.IsContinuation := by
  by_cases hbit : r.byte 4 &&& 0x80 = 0
  · exact Or.inr ⟨by omega, hbit⟩
  · exact Or.inl ⟨⟨by omega, hbit⟩, hcancel⟩

theorem not_accepted_of_receiveInit {s : Hid} {r : Report}
    (h : receiveInit s r = none) : ¬ r.Accepted := by
  intro hacc
  have hshort : ¬ r.len < 7 := by have := hacc.2.1; omega
  have hlarge : ¬ r.payloadLen > ctapReqBufSize := by
    have := hacc.2.2
    omega
  simp [receiveInit, hshort, hlarge] at h

/-- A continuation is dropped, ends the transfer, or is copied. -/
theorem receiveContinuation_cases (s : Hid) (r : Report) :
    ((r.cid ≠ s.cid ∨ s.expectedLen = 0) ∧ receiveContinuation s r = (s, false)) ∨
      receiveContinuation s r = ({ s with expectedLen := 0 }, false) ∨
      (r.cid = s.cid ∧ s.expectedLen ≠ 0 ∧
        ∃ s', receiveContinuation s r = (s', true)) := by
  unfold receiveContinuation
  split_ifs with hother hseq
  · exact .inl ⟨hother, rfl⟩
  · exact .inr (.inl rfl)
  · rw [not_or, not_not] at hother
    exact .inr (.inr ⟨hother.1, hother.2, _, rfl⟩)

/-- What one report does: the invariant is kept, and a dispatched message is
reassembled. -/
theorem processCtaphid_step {past : List Report} {s : Hid} {r : Report}
    (h : HidInvariant past s) (horderly : Orderly s r) :
    (∀ msg, (processCtaphid s r).2 = some msg →
      Reassembled (past ++ [r]) msg) ∧
      HidInvariant (past ++ [r]) (processCtaphid s r).1 := by
  have hcurrent : ∀ {init after}, Pending past s init after →
      Pending past { s with currentCid := r.cid } init after := fun hp =>
    ⟨hp.transfer, hp.cid, hp.cmd, hp.expected, hp.seq, hp.reqLen, hp.data⟩
  unfold processCtaphid
  by_cases hlen : r.len < 5
  · rw [if_pos hlen]
    refine ⟨by simp, h.pass rfl ?_ ?_⟩
    · intro _ hstart
      exact absurd hstart.1.1 (by omega)
    · intro _ hcont
      exact absurd hcont.1 (by omega)
  · rw [if_neg hlen]
    by_cases hcancel : r.byte 4 = 0x91
    · simp only [if_pos hcancel]
      refine ⟨by simp, h.pass rfl ?_ ?_⟩
      · intro _ hstart
        exact absurd hcancel hstart.2
      · intro _ hcont
        have hbit := hcont.2
        rw [hcancel] at hbit
        exact absurd hbit (by decide)
    · simp only [if_neg hcancel]
      cases r.starts_or hlen hcancel with
      | inl hstart =>
          rw [if_pos hstart.1.2]
          cases hrecv : receiveInit { s with currentCid := r.cid } r with
          | none =>
              have hrejected := not_accepted_of_receiveInit hrecv
              refine ⟨by simp, h.pass rfl ?_ ?_⟩
              · intro hpending hs hcid
                exact hrejected (horderly hpending hs hcid)
              · intro _ hcont
                exact absurd hcont.2 hstart.1.2
          | some s' =>
              have hp : Pending (past ++ [r]) s' r [] := Pending.of_init hstart hrecv
              exact complete_spec hp hp.cid.symm
      | inr hcont =>
          have hbit : ¬ r.byte 4 &&& 0x80 ≠ 0 := not_not.2 hcont.2
          rw [if_neg hbit]
          rcases receiveContinuation_cases { s with currentCid := r.cid } r with
            ⟨hother, hrecv⟩ | hrecv | ⟨hcid, hpending, s', hrecv⟩
          · simp only [hrecv]
            refine ⟨by simp, h.pass rfl ?_ ?_⟩
            · intro _ hstart
              exact absurd hcont.2 hstart.1.2
            · intro hpending _
              exact hother.resolve_right hpending
          · simp only [hrecv]
            refine ⟨by simp, ?_⟩
            intro hpending
            exact absurd rfl hpending
          · simp only [hrecv]
            rcases h hpending with ⟨init, after, hp⟩
            have hq := (hcurrent hp).of_continuation hcont hrecv
            have hsame : r.cid = s'.cid := by
              rw [hq.cid, ← hp.cid]
              exact hcid
            exact complete_spec hq hsame

/-! ## Runs -/

/-- Every report of the list is orderly where it arrives. -/
def OrderlyRun (reports : List Report) : Prop :=
  ∀ before r after, reports = before ++ r :: after →
    Orderly (hidAfter before) r

theorem hidAfter_append (reports : List Report) (r : Report) :
    hidAfter (reports ++ [r]) = (processCtaphid (hidAfter reports) r).1 := by
  simp [hidAfter]

theorem OrderlyRun.init {reports : List Report} {r : Report}
    (h : OrderlyRun (reports ++ [r])) :
    OrderlyRun reports ∧ Orderly (hidAfter reports) r := by
  constructor
  · intro before r' after hsplit
    exact h before r' (after ++ [r]) (by simp [hsplit])
  · exact h reports r [] rfl

theorem hidInvariant_after {reports : List Report} (h : OrderlyRun reports) :
    HidInvariant reports (hidAfter reports) := by
  induction reports using List.reverseRecOn with
  | nil =>
      intro hpending
      exact absurd rfl hpending
  | append_singleton reports r ih =>
      rw [hidAfter_append]
      exact (processCtaphid_step (ih h.init.1) h.init.2).2

/-- In every run without a packet dropped on the channel of the message in
progress, every message dispatched is reassembled from one transfer. -/
theorem dispatched_reassembled {reports : List Report} {r : Report}
    {msg : Message} (horderly : OrderlyRun (reports ++ [r]))
    (hmsg : (processCtaphid (hidAfter reports) r).2 = some msg) :
    Reassembled (reports ++ [r]) msg :=
  (processCtaphid_step (hidInvariant_after horderly.init.1)
    horderly.init.2).1 msg hmsg

/-- The first packet of a PING of 58 bytes on channel `01020304`. -/
def pingInit : Report where
  bytes := [1, 2, 3, 4, 0x81, 0, 58] ++ List.replicate 57 0xAA
  fits := by decide

/-- The packet which completes it. -/
def pingContinuation : Report where
  bytes := [1, 2, 3, 4, 0, 0xBB]
  fits := by decide

/-- A PING packet on the same channel which ends before its length field. -/
def shortInit : Report where
  bytes := [1, 2, 3, 4, 0x81]
  fits := by decide

theorem pingMessage_dispatched : ∃ msg,
    (processCtaphid (hidAfter [pingInit]) pingContinuation).2 = some msg :=
  Option.isSome_iff_exists.1 (by decide)

theorem dispatched_reassembled_ping : ∃ msg,
    (processCtaphid (hidAfter [pingInit]) pingContinuation).2 = some msg ∧
      Reassembled [pingInit, pingContinuation] msg := by
  have horderly : OrderlyRun ([pingInit] ++ [pingContinuation]) := by
    rintro (_ | ⟨first, _ | ⟨second, rest⟩⟩) r after hsplit
    · intro hpending
      exact absurd rfl hpending
    · simp only [List.cons_append, List.nil_append, List.cons.injEq] at hsplit
      rcases hsplit with ⟨rfl, rfl, -⟩
      intro _ hstart
      exact absurd hstart (by decide)
    · simp at hsplit
  rcases pingMessage_dispatched with ⟨msg, hmsg⟩
  exact ⟨msg, hmsg, dispatched_reassembled horderly hmsg⟩

/-- The short packet does not end the message which it interrupts. -/
theorem shortInit_splices :
    ¬ ∀ (reports : List Report) (r : Report) (msg : Message),
      (processCtaphid (hidAfter reports) r).2 = some msg →
        Reassembled (reports ++ [r]) msg := by
  intro h
  have hdispatched : ∃ msg, (processCtaphid (hidAfter [pingInit, shortInit])
      pingContinuation).2 = some msg := Option.isSome_iff_exists.1 (by decide)
  rcases hdispatched with ⟨msg, hmsg⟩
  rcases h _ _ msg hmsg with ⟨init, after, htransfer, -⟩
  have hacc := htransfer.accepted
  rcases htransfer.split with ⟨before, hsplit⟩
  rcases before with _ | ⟨first, _ | ⟨second, _ | ⟨third, rest⟩⟩⟩
  · simp only [List.cons_append, List.nil_append, List.cons.injEq] at hsplit
    rcases hsplit with ⟨rfl, rfl⟩
    exact htransfer.undisturbed shortInit (by simp) (by decide) (by decide)
  · simp only [List.cons_append, List.nil_append, List.cons.injEq] at hsplit
    rcases hsplit with ⟨-, rfl, -⟩
    exact absurd hacc (by decide)
  · simp only [List.cons_append, List.nil_append, List.cons.injEq] at hsplit
    rcases hsplit with ⟨-, -, rfl, -⟩
    exact absurd hacc (by decide)
  · simp at hsplit

end UnsoloKey
