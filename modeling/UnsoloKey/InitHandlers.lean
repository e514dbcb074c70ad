import UnsoloKey.SendReceive
import Mathlib.Tactic

/-!
# The two INIT handlers

INIT is answered at two places: by `ProcessCTAPHID` when the device is idle and by
`Process_OOB_Commands` while a request waits for a touch.  The second takes the nonce
from the packet.  The first goes through the request buffer and the completeness
test, so its answer depends on the length which the packet declares.
-/

namespace UnsoloKey

/-- Channel, command and payload of a message which is sent at once. -/
abbrev Reply := ℕ × UInt8 × List UInt8

/-- A CBOR request is not answered by the transport. -/
def Dispatch.immediate : Dispatch → Option Reply
  | .cbor _ _ _ => none
  | .reply cid cmd payload => some (cid, cmd, payload)

/-- What `ProcessCTAPHID` sends at once on a report. -/
def idleReply (s : Hid) (r : Report) : Option Reply :=
  (processCtaphid s r).2.bind fun msg => (dispatch s.allocatedCid msg).2.immediate

/-- What `Process_OOB_Commands` sends on the report at `DealPtr`. -/
def busyReply (q : Ring) (s : Hid) : Option Reply := (oobCommand q s).bind Prod.snd

def busyHid (q : Ring) (s : Hid) : Hid := ((oobCommand q s).map Prod.fst).getD s

/-- The frames of the reply. -/
def framesOf (idle : Bool) (collected : ℕ → Bool) : Option Reply → List Report
  | none => []
  | some (cid, cmd, payload) => ctapSendResponse idle collected cid cmd payload

/-- Both handlers send the same frames on the report at `DealPtr`, whatever the host
does with them, leave the same channel, and echo the nonce of that report. -/
structure InitHandlersAgree (q : Ring) (s : Hid) : Prop where
  frames : ∀ idle collected, framesOf idle collected (idleReply s q.head) =
    framesOf idle collected (busyReply q s)
  allocatedCid : (processCtaphid s q.head).1.allocatedCid = (busyHid q s).allocatedCid
  nonce : ∀ cid cmd payload, idleReply s q.head = some (cid, cmd, payload) ∨
    busyReply q s = some (cid, cmd, payload) → payload.take 8 = q.head.initData.take 8

/-- The channel of the answer, which is also the channel allocated afterwards. -/
def initCid (allocatedCid : ℕ) (r : Report) : ℕ :=
  if r.cid = 0xFFFFFFFF then allocatedCid else r.cid

/-- A report of a full packet with the command INIT. -/
structure Report.IsInitCommand (r : Report) : Prop where
  len : r.len = 64
  cmd : r.byte 4 = 0x86

instance (r : Report) : Decidable r.IsInitCommand :=
  decidable_of_iff (r.len = 64 ∧ r.byte 4 = 0x86) ⟨fun h => ⟨h.1, h.2⟩, fun h => ⟨h.1, h.2⟩⟩

section

variable {q : Ring} {s : Hid} {r : Report}

theorem initReply_take (buf : Mem) (cid : ℕ) : (initReply buf cid).take 8 = buf.slice 0 8 := by
  rw [initReply, List.append_assoc]
  exact List.take_left' (by simp)

theorem Mem.slice_eq_slice_iff {m m' : Mem} {n : ℕ} :
    m.slice 0 n = m'.slice 0 n ↔ ∀ i < n, m i = m' i := by
  unfold Mem.slice
  rw [List.map_inj_left]
  simp

theorem Report.IsInitCommand.starts (h : r.IsInitCommand) : r.Starts := by
  have hlen := h.len
  refine ⟨⟨by omega, ?_⟩, ?_⟩
  · rw [h.cmd]
    decide
  · rw [h.cmd]
    decide

/-! ## The busy handler -/

theorem oobCommand_init (hpack : q.remainPack ≠ 0) (h : q.head.IsInitCommand) :
    ∃ cancelled, oobCommand q s = some
      ({ s with
        allocatedCid := initCid s.allocatedCid q.head
        cancelRequested := cancelled },
        some (q.head.cid, 0x86,
          initReply (fun i => q.head.byte (7 + i)) (initCid s.allocatedCid q.head))) := by
  have hlen := h.len
  have hkind : ¬ (q.head.len < 5 ∨ q.head.byte 4 &&& 0x80 = 0) :=
    not_or.2 ⟨by omega, h.starts.1.2⟩
  simp only [oobCommand]
  rw [if_neg hpack, if_neg hkind, if_neg (by rw [h.cmd]; decide),
    if_neg (by rw [h.cmd]; decide), if_pos h.cmd, if_neg (by omega), h.cmd, initCid]
  by_cases hbroadcast : q.head.cid = 0xFFFFFFFF
  · rw [if_pos hbroadcast, if_pos hbroadcast]
    exact ⟨s.cancelRequested, rfl⟩
  · rw [if_neg hbroadcast, if_neg hbroadcast]
    exact ⟨s.cancelRequested || q.head.cid = s.currentCid, rfl⟩

/-! ## The idle handler -/

/-- The request buffer with the data of the packet copied to its start. -/
def Hid.nonceBuf (s : Hid) (r : Report) : Mem :=
  s.reqBuf.write 0 (r.initData.take r.payloadLen)

theorem idle_large (h : r.IsInitCommand) (hlarge : r.payloadLen > 57) :
    idleReply s r = none ∧ (processCtaphid s r).1.allocatedCid = s.allocatedCid := by
  by_cases hacc : r.Accepted
  · have hlen := h.len
    have hshort : r.initLen ≠ r.payloadLen := by
      unfold Report.initLen
      split_ifs <;> omega
    have hwait : complete (s.started r) r.cid = (s.started r, none) :=
      if_neg fun hdone => hshort hdone.1
    rw [idleReply, processCtaphid_accepted hacc, hwait]
    exact ⟨rfl, rfl⟩
  · rw [idleReply, processCtaphid_dropped h.starts hacc]
    exact ⟨rfl, rfl⟩

theorem idle_small (h : r.IsInitCommand) (hsmall : r.payloadLen ≤ 57) :
    idleReply s r = some (r.cid, 0x86,
      initReply (s.nonceBuf r) (initCid s.allocatedCid r)) ∧
      (processCtaphid s r).1.allocatedCid = initCid s.allocatedCid r := by
  have hlen := h.len
  have hsize : ctapReqBufSize = 1024 := rfl
  have hacc : r.Accepted := ⟨h.starts, by omega, by omega⟩
  have hfull : r.initLen = r.payloadLen := by
    unfold Report.initLen
    split_ifs <;> omega
  have hdone : complete (s.started r) r.cid =
      ({ s.started r with
        allocatedCid := (dispatch s.allocatedCid
          ⟨r.cid, r.byte 4, (s.started r).reqBuf, r.payloadLen⟩).1
        expectedLen := 0
        cmd := 0 },
        some ⟨r.cid, r.byte 4, (s.started r).reqBuf, r.payloadLen⟩) :=
    if_pos ⟨hfull, h.starts.1.2⟩
  have hbuf : (s.started r).reqBuf = s.nonceBuf r := by
    rw [Hid.nonceBuf, ← hfull]
    rfl
  have hinit : ∀ buf len, dispatch s.allocatedCid ⟨r.cid, 0x86, buf, len⟩ =
      (initCid s.allocatedCid r,
        .reply r.cid 0x86 (initReply buf (initCid s.allocatedCid r))) := by
    intro buf len
    unfold dispatch initCid
    by_cases hbroadcast : r.cid = 0xFFFFFFFF <;> simp [hbroadcast]
  rw [idleReply, processCtaphid_accepted hacc, hdone, h.cmd, hbuf]
  rw [Option.bind_some, hinit]
  exact ⟨rfl, rfl⟩

/-! ## Where they agree -/

theorem initData_take (h : r.len = 64) :
    r.initData.take 8 = Mem.slice (fun i => r.byte (7 + i)) 0 8 := by
  have hbytes : r.bytes.length = 64 := h
  apply List.ext_getElem
  · simp [Report.initData, hbytes]
  · intro i hi hi'
    have hlt : i < 8 := by simpa using hi'
    have hin : 7 + i < r.bytes.length := by omega
    rw [Mem.getElem_slice, Nat.zero_add]
    simp [Report.initData, Report.byte, hin]

theorem nonceBuf_eq (h : r.len = 64) (hsmall : r.payloadLen ≤ 57) (i : ℕ) :
    s.nonceBuf r i = if i < r.payloadLen then r.byte (7 + i) else s.reqBuf i := by
  have hbytes : r.bytes.length = 64 := h
  have hlen : (r.initData.take r.payloadLen).length = r.payloadLen := by
    simp only [Report.initData, List.length_take, List.length_drop, hbytes]
    omega
  unfold Hid.nonceBuf Mem.write
  rw [hlen]
  by_cases hi : i < r.payloadLen
  · rw [if_pos ⟨Nat.zero_le i, by omega⟩, if_pos hi]
    have hin : 7 + i < r.bytes.length := by omega
    simp [Report.initData, Report.byte, List.getD_eq_getElem?_getD, hi, hin]
  · rw [if_neg (by omega), if_neg hi]

/-- The idle handler echoes bytes of the packet up to the declared length only; beyond
it the request buffer has to hold the same bytes by chance. -/
theorem nonceBuf_slice (h : r.len = 64) (hsmall : r.payloadLen ≤ 57) :
    (s.nonceBuf r).slice 0 8 = r.initData.take 8 ↔
      ∀ i, r.payloadLen ≤ i → i < 8 → s.reqBuf i = r.byte (7 + i) := by
  rw [initData_take h, Mem.slice_eq_slice_iff]
  simp only [nonceBuf_eq h hsmall]
  constructor
  · intro hall i hle hlt
    rw [← hall i hlt, if_neg (by omega)]
  · intro hall i hlt
    split_ifs with hi
    · rfl
    · exact hall i (by omega) hlt

theorem framesOf_ne_nil (reply : Reply) : framesOf true (fun _ => true) (some reply) ≠ [] := by
  simp [framesOf, ctapSendResponse]

/-- The handlers agree exactly where the declared length leaves room for nothing but one
packet, and a length below eight meets a request buffer which happens to go on as the
packet does. -/
theorem initHandlersAgree_iff (hpack : q.remainPack ≠ 0) (h : q.head.IsInitCommand) :
    InitHandlersAgree q s ↔ q.head.payloadLen ≤ 57 ∧
      ∀ i, q.head.payloadLen ≤ i → i < 8 → s.reqBuf i = q.head.byte (7 + i) := by
  obtain ⟨cancelled, hoob⟩ := oobCommand_init (s := s) hpack h
  have hreply : busyReply q s = some (q.head.cid, 0x86,
      initReply (fun i => q.head.byte (7 + i)) (initCid s.allocatedCid q.head)) := by
    rw [busyReply, hoob]
    rfl
  have hcid : (busyHid q s).allocatedCid = initCid s.allocatedCid q.head := by
    rw [busyHid, hoob]
    rfl
  constructor
  · intro hagree
    have hsmall : q.head.payloadLen ≤ 57 := by
      by_contra hlarge
      have hframes := hagree.frames true fun _ => true
      rw [(idle_large h (by omega)).1, hreply] at hframes
      exact framesOf_ne_nil _ hframes.symm
    refine ⟨hsmall, (nonceBuf_slice h.len hsmall).1 ?_⟩
    rw [← hagree.nonce _ _ _ (.inl (idle_small h hsmall).1), initReply_take]
  · rintro ⟨hsmall, hstale⟩
    have hslice := (nonceBuf_slice h.len hsmall).2 hstale
    have hsame : initReply (s.nonceBuf q.head) (initCid s.allocatedCid q.head) =
        initReply (fun i => q.head.byte (7 + i)) (initCid s.allocatedCid q.head) := by
      rw [initReply, initReply, hslice, initData_take h.len]
    obtain ⟨hidle, halloc⟩ := idle_small (s := s) h hsmall
    rw [hsame] at hidle
    refine ⟨fun idle collected => by rw [hidle, hreply], by rw [halloc, hcid], ?_⟩
    intro cid cmd payload hsent
    rw [hidle, hreply, or_self, Option.some.injEq, Prod.mk.injEq, Prod.mk.injEq] at hsent
    rw [← hsent.2.2, initReply_take, initData_take h.len]

end

/-- A PING of eight bytes. -/
def pingReport : Report where
  bytes := [1, 2, 3, 4, 0x81, 0, 8] ++ List.replicate 57 0xAA
  fits := by decide

/-- An INIT on the broadcast channel which declares the given length. -/
def initReport (len : UInt8) : Report where
  bytes := [0xFF, 0xFF, 0xFF, 0xFF, 0x86, 0, len, 1, 2, 3, 4, 5, 6, 7, 8] ++
    List.replicate 49 0
  fits := by simp

/-- The ring with one packet in it. -/
def ringOf (r : Report) : Ring := Ring.powerUp.store r

theorem initHandlersAgree_nonce :
    InitHandlersAgree (ringOf (initReport 8)) (hidAfter [pingReport]) :=
  (initHandlersAgree_iff (by decide) (by decide)).2
    ⟨by decide, fun i hle hlt => absurd hlt (Nat.not_lt.2 hle)⟩

/-- An INIT which declares no data echoes the PING before it when the device is idle. -/
theorem initReply_stale : ¬ ∀ (q : Ring) (s : Hid), q.remainPack ≠ 0 →
    q.head.IsInitCommand → s.expectedLen = 0 → InitHandlersAgree q s := by
  intro hall
  have hagree := hall (ringOf (initReport 0)) (hidAfter [pingReport]) (by decide) (by decide)
    (by decide)
  have hidle := (idle_small (s := hidAfter [pingReport]) (r := initReport 0) (by decide)
    (by decide)).1
  have hnonce := hagree.nonce _ _ _ (.inl hidle)
  rw [initReply_take] at hnonce
  exact absurd hnonce (by decide)

end UnsoloKey
