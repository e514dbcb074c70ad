import UnsoloKey.Reassembly
import Mathlib.Tactic

/-!
# The cases of `ProcessCTAPHID`

A packet is too short, a CANCEL, an initialization packet which is dropped or
accepted, or a continuation packet which is ignored, out of order or copied.  Each
case has its equation; a proof about one packet goes through the list.
-/

namespace UnsoloKey

/-- The reassembly state: everything but the channel variables and the flag. -/
def Hid.assembly (s : Hid) : Hid :=
  { s with allocatedCid := 0, currentCid := 0, cancelRequested := false }

/-- A message of the channel has been started and is not complete. -/
def Hid.Assembling (s : Hid) (cid : ℕ) : Prop := s.expectedLen ≠ 0 ∧ s.cid = cid

instance (s : Hid) (cid : ℕ) : Decidable (s.Assembling cid) :=
  inferInstanceAs (Decidable (_ ∧ _))

/-- The bytes which an initialization packet brings. -/
def Report.initLen (r : Report) : ℕ :=
  if r.len - 7 > r.payloadLen then r.payloadLen else r.len - 7

/-- The state after an accepted initialization packet, before the completeness
test. -/
def Hid.started (s : Hid) (r : Report) : Hid :=
  { s with
    cid := r.cid
    cmd := r.byte 4
    expectedLen := r.payloadLen
    reqLen := r.initLen
    reqBuf := s.reqBuf.write 0 (r.initData.take r.initLen)
    seq := 0
    currentCid := r.cid }

/-- The bytes which are copied from a continuation packet. -/
def Hid.copyLen (s : Hid) (r : Report) : ℕ :=
  let remain := u16 (s.expectedLen + 65536 - s.reqLen)
  if r.len - 5 > remain then remain else r.len - 5

/-- The state after a copied continuation packet, before the completeness test. -/
def Hid.continued (s : Hid) (r : Report) : Hid :=
  { s with
    seq := s.seq + 1
    reqBuf := s.reqBuf.write s.reqLen (r.continuationData.take (s.copyLen r))
    reqLen := u16 (s.reqLen + s.copyLen r)
    currentCid := r.cid }

section

variable {s : Hid} {r : Report}

theorem processCtaphid_short (h : r.len < 5) : processCtaphid s r = (s, none) := by
  unfold processCtaphid
  rw [if_pos h]

theorem processCtaphid_cancel (h : r.IsInit) (hcancel : r.byte 4 = 0x91) :
    processCtaphid s r =
      ({ s with currentCid := r.cid, cancelRequested := true }, none) := by
  unfold processCtaphid
  rw [if_neg (by have := h.1; omega)]
  simp only [if_pos hcancel]

theorem processCtaphid_dropped (h : r.Starts) (hdropped : ¬ r.Accepted) :
    processCtaphid s r = ({ s with currentCid := r.cid }, none) := by
  have hfits : r.len < 7 ∨ r.payloadLen > ctapReqBufSize := by
    by_contra hnot
    rw [not_or, Nat.not_lt, Nat.not_lt] at hnot
    exact hdropped ⟨h, hnot⟩
  have hnone : receiveInit { s with currentCid := r.cid } r = none := by
    unfold receiveInit
    split_ifs with hshort hlarge
    · rfl
    · rfl
    · exact absurd hfits (not_or.2 ⟨hshort, hlarge⟩)
  unfold processCtaphid
  rw [if_neg (by have := h.1.1; omega)]
  simp only [if_neg h.2, if_pos h.1.2, hnone]

theorem processCtaphid_accepted (h : r.Accepted) :
    processCtaphid s r = complete (s.started r) r.cid := by
  obtain ⟨hstart, hlen, hlarge⟩ := h
  have hsome : receiveInit { s with currentCid := r.cid } r = some (s.started r) := by
    unfold receiveInit
    rw [if_neg (by omega), if_neg (by omega)]
    rfl
  unfold processCtaphid
  rw [if_neg (by omega)]
  simp only [if_neg hstart.2, if_pos hstart.1.2, hsome]

theorem not_cancel_of_continuation (h : r.IsContinuation) : r.byte 4 ≠ 0x91 := by
  intro hcancel
  have hbit := h.2
  rw [hcancel] at hbit
  exact absurd hbit (by decide)

theorem processCtaphid_ignored (h : r.IsContinuation)
    (hother : r.cid ≠ s.cid ∨ s.expectedLen = 0) :
    processCtaphid s r = ({ s with currentCid := r.cid }, none) := by
  have hignored : receiveContinuation { s with currentCid := r.cid } r =
      ({ s with currentCid := r.cid }, false) := by
    unfold receiveContinuation
    rw [if_pos hother]
  unfold processCtaphid
  rw [if_neg (by have := h.1; omega)]
  simp only [if_neg (not_cancel_of_continuation h), if_neg (not_not.2 h.2), hignored]

theorem processCtaphid_outOfOrder (h : r.IsContinuation) (hpending : s.Assembling r.cid)
    (hseq : r.byte 4 ≠ s.seq) :
    processCtaphid s r = ({ s with currentCid := r.cid, expectedLen := 0 }, none) := by
  have hgiven : receiveContinuation { s with currentCid := r.cid } r =
      ({ s with currentCid := r.cid, expectedLen := 0 }, false) := by
    unfold receiveContinuation
    rw [if_neg (not_or.2 ⟨not_not.2 hpending.2.symm, hpending.1⟩), if_pos hseq]
  unfold processCtaphid
  rw [if_neg (by have := h.1; omega)]
  simp only [if_neg (not_cancel_of_continuation h), if_neg (not_not.2 h.2), hgiven]

theorem processCtaphid_copied (h : r.IsContinuation) (hpending : s.Assembling r.cid)
    (hseq : r.byte 4 = s.seq) :
    processCtaphid s r = complete (s.continued r) r.cid := by
  have hcopied : receiveContinuation { s with currentCid := r.cid } r =
      (s.continued r, true) := by
    unfold receiveContinuation
    rw [if_neg (not_or.2 ⟨not_not.2 hpending.2.symm, hpending.1⟩),
      if_neg (not_not.2 hseq)]
    rfl
  unfold processCtaphid
  rw [if_neg (by have := h.1; omega)]
  simp only [if_neg (not_cancel_of_continuation h), if_neg (not_not.2 h.2), hcopied]

end

/-- What one packet does. -/
inductive Processed (s : Hid) (r : Report) : Hid × Option Message → Prop
  | short (h : r.len < 5) : Processed s r (s, none)
  | cancel (h : r.IsInit) (hcancel : r.byte 4 = 0x91) :
      Processed s r ({ s with currentCid := r.cid, cancelRequested := true }, none)
  | dropped (h : r.Starts) (hdropped : ¬ r.Accepted) :
      Processed s r ({ s with currentCid := r.cid }, none)
  | accepted (h : r.Accepted) : Processed s r (complete (s.started r) r.cid)
  | ignored (h : r.IsContinuation) (hother : r.cid ≠ s.cid ∨ s.expectedLen = 0) :
      Processed s r ({ s with currentCid := r.cid }, none)
  | outOfOrder (h : r.IsContinuation) (hpending : s.Assembling r.cid)
      (hseq : r.byte 4 ≠ s.seq) :
      Processed s r ({ s with currentCid := r.cid, expectedLen := 0 }, none)
  | copied (h : r.IsContinuation) (hpending : s.Assembling r.cid)
      (hseq : r.byte 4 = s.seq) : Processed s r (complete (s.continued r) r.cid)

theorem processCtaphid_cases (s : Hid) (r : Report) :
    Processed s r (processCtaphid s r) := by
  by_cases hlen : r.len < 5
  · rw [processCtaphid_short hlen]
    exact .short hlen
  by_cases hcont : r.byte 4 &&& 0x80 = 0
  · have h : r.IsContinuation := ⟨by omega, hcont⟩
    by_cases hother : r.cid ≠ s.cid ∨ s.expectedLen = 0
    · rw [processCtaphid_ignored h hother]
      exact .ignored h hother
    · rw [not_or, not_not] at hother
      have hpending : s.Assembling r.cid := ⟨hother.2, hother.1.symm⟩
      by_cases hseq : r.byte 4 = s.seq
      · rw [processCtaphid_copied h hpending hseq]
        exact .copied h hpending hseq
      · rw [processCtaphid_outOfOrder h hpending hseq]
        exact .outOfOrder h hpending hseq
  · have h : r.IsInit := ⟨by omega, hcont⟩
    by_cases hcancel : r.byte 4 = 0x91
    · rw [processCtaphid_cancel h hcancel]
      exact .cancel h hcancel
    · by_cases haccepted : r.Accepted
      · rw [processCtaphid_accepted haccepted]
        exact .accepted haccepted
      · rw [processCtaphid_dropped ⟨h, hcancel⟩ haccepted]
        exact .dropped ⟨h, hcancel⟩ haccepted

/-! ## The completeness test -/

section

variable {s s' : Hid} {cid : ℕ}

theorem complete_cid (s : Hid) (cid : ℕ) : (complete s cid).1.cid = s.cid := by
  unfold complete
  split <;> rfl

theorem complete_currentCid (s : Hid) (cid : ℕ) :
    (complete s cid).1.currentCid = s.currentCid := by
  unfold complete
  split <;> rfl

theorem complete_message {msg : Message} (h : (complete s cid).2 = some msg) :
    msg = ⟨cid, s.cmd, s.reqBuf, s.expectedLen⟩ := by
  unfold complete at h
  split at h
  · exact (Option.some.inj h).symm
  · simp at h

end

end UnsoloKey
