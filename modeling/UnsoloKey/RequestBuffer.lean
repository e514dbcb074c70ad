import UnsoloKey.ChannelIsolation
import Mathlib.Tactic

/-!
# The request buffer of the transport

`ProcessCTAPHID` copies from a report into the request buffer at two places, both
times with a length which the host has a say in.  The lengths are safe because of
what every exit leaves behind: no message, or a message which is short of its
declared length, and that length fits in the buffer.
-/

namespace UnsoloKey

open Trace

/-! ## The copies -/

/-- A `memcpy` from a report into the request buffer. -/
structure Copy where
  dst : ℕ
  src : ℕ
  count : ℕ

def Copy.Inside (c : Copy) (r : Report) : Prop :=
  c.dst + c.count ≤ ctapReqBufSize ∧ c.src + c.count ≤ r.len

/-- The buffer after the copy. -/
def Copy.into (c : Copy) (r : Report) (buf : Mem) : Mem :=
  buf.write c.dst ((r.bytes.drop c.src).take c.count)

/-- The `memcpy` which `ProcessCTAPHID` reaches with the report, if any. -/
def requestCopy (s : Hid) (r : Report) : Option Copy :=
  if r.len < 5 ∨ r.byte 4 = 0x91 then none
  else if r.byte 4 &&& 0x80 ≠ 0 then
    if r.len < 7 ∨ r.payloadLen > ctapReqBufSize then none
    else some ⟨0, 7, r.initLen⟩
  else if r.cid ≠ s.cid ∨ s.expectedLen = 0 ∨ r.byte 4 ≠ s.seq then none
  else some ⟨s.reqLen, 5, s.copyLen r⟩

section

variable {s : Hid} {r : Report}

theorem requestCopy_accepted (h : r.Accepted) :
    requestCopy s r = some ⟨0, 7, r.initLen⟩ := by
  obtain ⟨⟨⟨hlen, hbit⟩, hcancel⟩, hseven, hsize⟩ := h
  unfold requestCopy
  rw [if_neg (not_or.2 ⟨by omega, hcancel⟩), if_pos hbit,
    if_neg (not_or.2 ⟨by omega, by omega⟩)]

theorem requestCopy_copied (h : r.IsContinuation) (hpending : s.Assembling r.cid)
    (hseq : r.byte 4 = s.seq) :
    requestCopy s r = some ⟨s.reqLen, 5, s.copyLen r⟩ := by
  have hlen := h.1
  unfold requestCopy
  rw [if_neg (not_or.2 ⟨by omega, not_cancel_of_continuation h⟩),
    if_neg (not_not.2 h.2)]
  simp [hpending.1, hpending.2, hseq]

theorem requestCopy_none (h : ¬ r.Accepted)
    (hcont : r.IsContinuation → s.Assembling r.cid → r.byte 4 ≠ s.seq) :
    requestCopy s r = none := by
  unfold requestCopy
  by_cases hout : r.len < 5 ∨ r.byte 4 = 0x91
  · rw [if_pos hout]
  rw [if_neg hout]
  rw [not_or, Nat.not_lt] at hout
  by_cases hbit : r.byte 4 &&& 0x80 = 0
  · rw [if_neg (not_not.2 hbit), if_pos]
    by_contra hall
    simp only [ne_eq, not_or, not_not] at hall
    exact hcont ⟨hout.1, hbit⟩ ⟨hall.2.1, hall.1.symm⟩ hall.2.2
  · rw [if_pos hbit, if_pos]
    by_contra hall
    rw [not_or, Nat.not_lt, Nat.not_lt] at hall
    exact h ⟨⟨⟨hout.1, hbit⟩, hout.2⟩, hall⟩

theorem complete_reqBuf (s : Hid) (cid : ℕ) : (complete s cid).1.reqBuf = s.reqBuf := by
  unfold complete
  split <;> rfl

/-- The request buffer changes by that copy alone. -/
theorem processCtaphid_reqBuf (s : Hid) (r : Report) :
    (processCtaphid s r).1.reqBuf =
      ((requestCopy s r).map fun c => c.into r s.reqBuf).getD s.reqBuf := by
  have hcases := processCtaphid_cases s r
  generalize processCtaphid s r = result at hcases
  cases hcases with
  | short h =>
      have hnone : requestCopy s r = none := requestCopy_none
        (fun haccepted => absurd haccepted.1.1.1 (by omega))
        (fun hcont => absurd hcont.1 (by omega))
      rw [hnone]
      rfl
  | cancel h hcancel =>
      have hnone : requestCopy s r = none := requestCopy_none
        (fun haccepted => haccepted.1.2 hcancel)
        (fun hcont => absurd hcont.2 h.2)
      rw [hnone]
      rfl
  | dropped h hdropped =>
      have hnone : requestCopy s r = none := requestCopy_none hdropped
        (fun hcont => absurd hcont.2 h.1.2)
      rw [hnone]
      rfl
  | accepted h =>
      rw [complete_reqBuf, requestCopy_accepted h]
      rfl
  | ignored h hother =>
      have hnone : requestCopy s r = none := requestCopy_none
        (fun haccepted => haccepted.1.1.2 h.2)
        (fun _ hpending => absurd hother
          (not_or.2 ⟨not_not.2 hpending.2.symm, hpending.1⟩))
      rw [hnone]
      rfl
  | outOfOrder h hpending hseq =>
      have hnone : requestCopy s r = none := requestCopy_none
        (fun haccepted => haccepted.1.1.2 h.2) (fun _ _ => hseq)
      rw [hnone]
      rfl
  | copied h hpending hseq =>
      rw [complete_reqBuf, requestCopy_copied h hpending hseq]
      rfl

end

/-! ## The invariant -/

/-- No message is in progress, or one which is short of its declared length. -/
def Hid.WithinBuffer (s : Hid) : Prop :=
  s.expectedLen = 0 ∨ s.reqLen < s.expectedLen ∧ s.expectedLen ≤ ctapReqBufSize

/-- A message which is in progress was started by an initialization packet, so that the
completeness test can end it. -/
structure Hid.Bounded (s : Hid) : Prop where
  within : s.WithinBuffer
  started : s.expectedLen ≠ 0 → s.cmd &&& 0x80 ≠ 0

theorem bounded_powerUp : Hid.powerUp.Bounded where
  within := .inl rfl
  started := fun h => absurd rfl h

section

variable {s t : Hid} {r : Report}

theorem Hid.Bounded.of_assembly (h : s.Bounded) (hsame : t.assembly = s.assembly) :
    t.Bounded := by
  have hexpected : t.expectedLen = s.expectedLen := (congrArg Hid.expectedLen hsame :)
  have hreqLen : t.reqLen = s.reqLen := (congrArg Hid.reqLen hsame :)
  have hcmd : t.cmd = s.cmd := (congrArg Hid.cmd hsame :)
  constructor
  · rw [Hid.WithinBuffer, hexpected, hreqLen]
    exact h.within
  · rw [hexpected, hcmd]
    exact h.started

/-- The completeness test takes the full message away. -/
theorem bounded_complete (hle : s.reqLen ≤ s.expectedLen)
    (hsize : s.expectedLen ≤ ctapReqBufSize) (hcmd : s.cmd &&& 0x80 ≠ 0) (cid : ℕ) :
    (complete s cid).1.Bounded := by
  unfold complete
  split_ifs with hdone
  · exact ⟨.inl rfl, fun h => absurd rfl h⟩
  · have hshort : s.reqLen ≠ s.expectedLen := fun hfull => hdone ⟨hfull, hcmd⟩
    exact ⟨.inr ⟨lt_of_le_of_ne hle hshort, hsize⟩, fun _ => hcmd⟩

theorem initLen_le_payloadLen (r : Report) : r.initLen ≤ r.payloadLen := by
  unfold Report.initLen
  split_ifs <;> omega

theorem Hid.Bounded.pending (h : s.Bounded) (hpending : s.expectedLen ≠ 0) :
    s.reqLen < s.expectedLen ∧ s.expectedLen ≤ 1024 :=
  h.within.resolve_left hpending

/-- The unsigned subtraction is the real one. -/
theorem Hid.Bounded.remain (h : s.Bounded) (hpending : s.expectedLen ≠ 0) :
    u16 (s.expectedLen + 65536 - s.reqLen) = s.expectedLen - s.reqLen := by
  have hlt := h.pending hpending
  unfold u16
  omega

theorem Hid.Bounded.copyLen_le (h : s.Bounded) (hpending : s.expectedLen ≠ 0)
    (r : Report) : s.reqLen + s.copyLen r ≤ s.expectedLen := by
  have hlt := h.pending hpending
  unfold Hid.copyLen
  rw [h.remain hpending]
  dsimp only
  split_ifs <;> omega

/-- Every exit of `ProcessCTAPHID` keeps the invariant. -/
theorem Hid.Bounded.after_report (h : s.Bounded) (r : Report) :
    (processCtaphid s r).1.Bounded := by
  have hcases := processCtaphid_cases s r
  generalize processCtaphid s r = result at hcases
  cases hcases with
  | short => exact h
  | cancel => exact h.of_assembly rfl
  | dropped => exact h.of_assembly rfl
  | accepted haccepted =>
      exact bounded_complete (initLen_le_payloadLen r) haccepted.2.2 haccepted.1.1.2 r.cid
  | ignored => exact h.of_assembly rfl
  | outOfOrder => exact ⟨.inl rfl, fun hpending => absurd rfl hpending⟩
  | copied hcont hpending hseq =>
      have hfits := h.copyLen_le hpending.1 r
      have hsize := (h.pending hpending.1).2
      have hreqLen : (s.continued r).reqLen = s.reqLen + s.copyLen r := by
        change u16 (s.reqLen + s.copyLen r) = _
        unfold u16
        omega
      have hexpected : (s.continued r).expectedLen = s.expectedLen := rfl
      have hle : (s.continued r).reqLen ≤ (s.continued r).expectedLen := by omega
      exact bounded_complete hle hsize (h.started hpending.1) r.cid

theorem bounded_after (reports : List Report) : (hidAfter reports).Bounded := by
  induction reports using List.reverseRecOn with
  | nil => exact bounded_powerUp
  | append_singleton reports r ih =>
      rw [hidAfter_append]
      exact ih.after_report r

/-! ## Safety of the copies -/

/-- What the next report may do to the request buffer. -/
structure Hid.CopiesSafely (s : Hid) (r : Report) : Prop where
  inside : ∀ c, requestCopy s r = some c →
    c.Inside r ∧ (processCtaphid s r).1.reqBuf = c.into r s.reqBuf
  untouched : requestCopy s r = none →
    (processCtaphid s r).1.reqBuf = s.reqBuf
  remain : r.IsContinuation → requestCopy s r ≠ none →
    s.reqLen ≤ s.expectedLen ∧
      u16 (s.expectedLen + 65536 - s.reqLen) = s.expectedLen - s.reqLen

theorem Hid.Bounded.copy_inside (h : s.Bounded) {c : Copy}
    (hcopy : requestCopy s r = some c) : c.Inside r := by
  unfold requestCopy at hcopy
  split_ifs at hcopy with hout hinit hdrop hignore
  · rw [Option.some.injEq] at hcopy
    rw [not_or, Nat.not_lt, Nat.not_lt] at hdrop
    subst hcopy
    have hle := initLen_le_payloadLen r
    have hdata : r.initLen ≤ r.len - 7 := by
      unfold Report.initLen
      split_ifs <;> omega
    exact ⟨by dsimp only; omega, by dsimp only; omega⟩
  · rw [Option.some.injEq] at hcopy
    rw [not_or, Nat.not_lt] at hout
    rw [not_or, not_or] at hignore
    subst hcopy
    have hfits := h.copyLen_le hignore.2.1 r
    have hsize := (h.pending hignore.2.1).2
    have hdata : s.copyLen r ≤ r.len - 5 := by
      unfold Hid.copyLen
      dsimp only
      split_ifs <;> omega
    have hbuf : ctapReqBufSize = 1024 := rfl
    exact ⟨by dsimp only; omega, by dsimp only; omega⟩

theorem Hid.Bounded.copiesSafely (h : s.Bounded) (r : Report) : s.CopiesSafely r where
  inside := by
    intro c hcopy
    refine ⟨h.copy_inside hcopy, ?_⟩
    rw [processCtaphid_reqBuf, hcopy]
    rfl
  untouched := by
    intro hnone
    rw [processCtaphid_reqBuf, hnone]
    rfl
  remain := by
    intro hcont hcopy
    have hpending : s.expectedLen ≠ 0 := by
      intro hzero
      refine hcopy (requestCopy_none (fun haccepted => haccepted.1.1.2 hcont.2) ?_)
      exact fun _ hpending => absurd hzero hpending.1
    exact ⟨(h.pending hpending).1.le, h.remain hpending⟩

end

/-- After any reports the message in progress is short of its declared length, which
fits in the buffer, and the next copy stays inside the buffer and inside its report. -/
theorem request_buffer_safe (reports : List Report) :
    (hidAfter reports).WithinBuffer ∧ ∀ r, (hidAfter reports).CopiesSafely r :=
  ⟨(bounded_after reports).within, (bounded_after reports).copiesSafely⟩

/-- The same holds at every place of the program, whatever the polls of a touch wait
have changed in between. -/
theorem request_buffer_safe_of_run {actions : List Action} {c : System}
    (hrun : Run System.step System.powerUp actions c) :
    c.hid.WithinBuffer ∧ ∀ r, c.hid.CopiesSafely r := by
  have hbounded : c.hid.Bounded := by
    refine hrun.invariant (P := fun c => c.hid.Bounded) ?_ bounded_powerUp
    intro c a c' hc hstep
    have hhid := step_hid hstep
    cases htaken : c.taken a with
    | none => exact hc.of_assembly (hhid.2 htaken).1
    | some r =>
        rw [hhid.1 r htaken]
        exact hc.after_report r
  exact ⟨hbounded.within, hbounded.copiesSafely⟩

end UnsoloKey
