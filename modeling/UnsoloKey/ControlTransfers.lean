import UnsoloKey.ControlEndpoint
import UnsoloKey.Trace
import Mathlib.Tactic

/-!
# What the control endpoint guarantees

Over every run of the endpoint no copy leaves its array, and the address register is what
the last completed request for one set.  A read is followed from its setup to the next: the
host keeps the packets whose toggle it expects, and whatever is lost or sent again on the
way, it has nothing before it hears the device and the whole answer from then on.
-/

namespace UnsoloKey

open Trace

namespace SetupReq

variable {r : SetupReq}

theorem descriptor_fits {d : List UInt8 × ℕ} (h : r.descriptor = some d) :
    d.2 ≤ d.1.length ∧ d.2 ≤ endp0Size := by
  unfold descriptor at h
  split at h
  case h_1 => cases h; decide
  case h_2 => cases h; decide
  case h_3 =>
    split at h
    · cases h; decide
    · cases h
  case h_4 =>
    split at h
    · cases h; decide
    · cases h
  case h_5 =>
    split at h
    case h_1 => cases h; decide
    case h_2 => cases h; decide
    case h_3 => cases h; decide
    case h_4 => cases h; decide
    case h_5 => cases h
  case h_6 => cases h

def IsStandard (r : SetupReq) (code : UInt8) : Prop := r.typ = 0x00 ∧ r.bRequest = code

instance (code : UInt8) : Decidable (r.IsStandard code) := by
  unfold IsStandard
  infer_instance

end SetupReq

namespace ControlEndpoint

variable {s s' t : ControlEndpoint} {r : SetupReq} {e : ControlEvent} {es : List ControlEvent}

/-! ## What a setup does -/

theorem take_put {bs : List UInt8} {h : bs.length ≤ endp0Size} {w : ℕ} :
    (s.put bs h).ep0Buf.val.take (min (min w bs.length) endp0Size) = bs.take w := by
  have hmin : min (min w bs.length) endp0Size = min w bs.length :=
    min_eq_left ((min_le_right _ _).trans h)
  rw [hmin, put, Bytes.take_overwrite (min_le_right _ _)]
  exact List.take_eq_take_min.symm

theorem getDescriptor_eq (s : ControlEndpoint) : ∃ buf,
    s.getDescriptor = some
      ({ s with
          ep0Buf := buf
          descr := (s.setupReq.descriptor.getD (s.descr, 0)).1.drop
            (min (min s.setupReqLen (s.setupReq.descriptor.getD (s.descr, 0)).2) endp0Size)
          setupReqLen := min s.setupReqLen (s.setupReq.descriptor.getD (s.descr, 0)).2 },
        s.setupReq.descriptor.isNone) ∧
      buf.val.take (min (min s.setupReqLen (s.setupReq.descriptor.getD (s.descr, 0)).2)
        endp0Size) = (s.setupReq.descriptor.getD (s.descr, 0)).1.take
          (min (min s.setupReqLen (s.setupReq.descriptor.getD (s.descr, 0)).2) endp0Size) := by
  have hfits : (s.setupReq.descriptor.getD (s.descr, 0)).2 ≤
      (s.setupReq.descriptor.getD (s.descr, 0)).1.length := by
    cases hfound : s.setupReq.descriptor with
    | none => exact Nat.zero_le _
    | some d => exact (SetupReq.descriptor_fits hfound).1
  generalize hfound : s.setupReq.descriptor.getD (s.descr, 0) = found at hfits ⊢
  have hsrc : min (min s.setupReqLen found.2) endp0Size ≤ found.1.length :=
    (min_le_left _ _).trans ((min_le_right _ _).trans hfits)
  obtain ⟨buf, hcopy, htake⟩ := Bytes.memcpy_run (b := s.ep0Buf) (min_le_right _ endp0Size) hsrc
  refine ⟨buf, ?_, htake⟩
  rw [getDescriptor, hfound]
  exact congrArg (Option.map _) hcopy

/-- What a request leaves alone, and what it prepares. -/
structure Handles (s : ControlEndpoint) (h : Handled) : Prop where
  uep0 : h.1.uep0 = s.uep0
  setupReq : h.1.setupReq = s.setupReq
  devAddrReg : h.1.devAddrReg = s.devAddrReg
  devAddr : s.setupReq.IsStandard 0x05 → h.1.devAddr = s.setupReq.wValue.toUInt8
  descr : s.setupReq.IsStandard 0x06 →
    h.1.setupReqLen - min h.1.setupReqLen endp0Size ≤ h.1.descr.length ∧
      h.1.setupReqLen ≤ endp0Size

theorem classRequest_handles (htyp : s.setupReq.typ ≠ 0x00) : Handles s s.classRequest := by
  have hnot : ∀ code, ¬s.setupReq.IsStandard code := fun _ h => htyp h.1
  unfold classRequest
  split
  all_goals try split
  all_goals exact ⟨rfl, rfl, rfl, fun h => absurd h (hnot _), fun h => absurd h (hnot _)⟩

theorem clearFeature_handles (hcode : s.setupReq.bRequest = 0x01) :
    Handles s s.clearFeature := by
  have hnot : ∀ code, code ≠ 0x01 → ¬s.setupReq.IsStandard code :=
    fun _ hne h => hne (h.2.symm.trans hcode)
  unfold clearFeature
  split_ifs
  all_goals try split
  all_goals exact ⟨rfl, rfl, rfl, fun h => absurd h (hnot _ (by decide)),
    fun h => absurd h (hnot _ (by decide))⟩

theorem setFeature_handles (hcode : s.setupReq.bRequest = 0x03) :
    Handles s s.setFeature := by
  have hnot : ∀ code, code ≠ 0x03 → ¬s.setupReq.IsStandard code :=
    fun _ hne h => hne (h.2.symm.trans hcode)
  unfold setFeature
  split_ifs
  all_goals try split
  all_goals exact ⟨rfl, rfl, rfl, fun h => absurd h (hnot _ (by decide)),
    fun h => absurd h (hnot _ (by decide))⟩

theorem standardRequest_handles (s : ControlEndpoint) :
    ∃ h, s.standardRequest = some h ∧ Handles s h := by
  unfold standardRequest
  split
  case h_1 hcode =>
    obtain ⟨buf, hget, -⟩ := getDescriptor_eq s
    refine ⟨_, hget, rfl, rfl, rfl, fun h => absurd (h.2.symm.trans hcode) (by decide),
      fun _ => ?_⟩
    cases hfound : s.setupReq.descriptor with
    | none => simp
    | some d =>
        have hfits := SetupReq.descriptor_fits hfound
        simp only [Option.getD_some, List.length_drop]
        omega
  case h_2 hcode =>
    exact ⟨_, rfl, rfl, rfl, rfl, fun _ => rfl, fun h => absurd (h.2.symm.trans hcode) (by decide)⟩
  case h_5 hcode => exact ⟨_, rfl, clearFeature_handles hcode⟩
  case h_6 hcode => exact ⟨_, rfl, setFeature_handles hcode⟩
  case h_10 hget hset _ _ _ _ _ _ _ =>
    exact ⟨_, rfl, rfl, rfl, rfl, fun h => absurd h.2 hset, fun h => absurd h.2 hget⟩
  all_goals
    rename_i hcode
    exact ⟨_, rfl, rfl, rfl, rfl, fun h => absurd (h.2.symm.trans hcode) (by decide),
      fun h => absurd (h.2.symm.trans hcode) (by decide)⟩

theorem request_handles (s : ControlEndpoint) : ∃ h, s.request = some h ∧ Handles s h := by
  unfold request
  split_ifs with htyp hclass
  · exact ⟨_, rfl, classRequest_handles htyp⟩
  · exact ⟨_, rfl, rfl, rfl, rfl, fun h => absurd h.1 htyp, fun h => absurd h.1 htyp⟩
  · exact standardRequest_handles s

/-- The setup branch, with its request handled. -/
theorem onSetup_eq (s : ControlEndpoint) (r : SetupReq) :
    ∃ h, (s.storeSetup r).request = some h ∧ Handles (s.storeSetup r) h ∧
      s.onSetup r = some (h.1.answerSetup h.2) := by
  obtain ⟨h, hrequest, hhandles⟩ := request_handles (s.storeSetup r)
  exact ⟨h, hrequest, hhandles, by rw [onSetup, hrequest]; rfl⟩

/-! ## What the acknowledgement of a packet does -/

theorem openStatus_eq (s : ControlEndpoint) : ∃ rTog rRes,
    s.openStatus = { s with uep0 := { s.uep0 with rTog := rTog, rRes := rRes } } := by
  unfold openStatus
  split
  · exact ⟨true, .ack, rfl⟩
  · exact ⟨s.uep0.rTog, s.uep0.rRes, rfl⟩

structure Acknowledged (s t : ControlEndpoint) : Prop where
  setupReq : t.setupReq = s.setupReq
  tRes : t.uep0.tRes = s.uep0.tRes
  devAddr : t.devAddr = s.devAddr
  devAddrReg : t.devAddrReg =
    if s.setupReq.IsStandard 0x05 then (s.devAddrReg &&& 0x80) ||| s.devAddr else s.devAddrReg
  descr : s.setupReq.IsStandard 0x06 →
    t.setupReqLen = s.setupReqLen - min s.setupReqLen endp0Size ∧
      t.uep0TxLen = min s.setupReqLen endp0Size ∧
      t.descr.length = s.descr.length - min s.setupReqLen endp0Size
  tTog : ¬s.setupReq.IsStandard 0x06 → t.uep0.tTog = s.uep0.tTog

theorem onIn_run (hfits : s.setupReq.IsStandard 0x06 → s.setupReqLen ≤ s.descr.length) :
    ∃ t, s.onIn = some t ∧ Acknowledged s t := by
  obtain ⟨rTog, rRes, hopen⟩ := openStatus_eq s
  have hother : ∀ code, s.setupReq.bRequest = code → ∀ code', code ≠ code' →
      ¬s.setupReq.IsStandard code' := fun _ hcode _ hne h => hne (hcode.symm.trans h.2)
  simp only [onIn, hopen]
  split_ifs with htyp
  · have hnot : ∀ code, ¬s.setupReq.IsStandard code := fun _ h => htyp h.1
    exact ⟨_, rfl, rfl, rfl, rfl, (if_neg (hnot _)).symm, fun h => absurd h (hnot _),
      fun _ => rfl⟩
  · rw [not_not] at htyp
    split
    case h_1 hcode =>
      obtain ⟨buf, hcopy, -⟩ := Bytes.memcpy_run (b := s.ep0Buf) (min_le_right _ endp0Size)
        ((min_le_left _ _).trans (hfits ⟨htyp, hcode⟩))
      refine ⟨_, congrArg (Option.map _) hcopy, rfl, rfl, rfl, ?_, fun _ => ?_, ?_⟩
      · exact (if_neg (hother _ hcode _ (by decide))).symm
      · exact ⟨rfl, rfl, List.length_drop⟩
      · exact fun h => absurd ⟨htyp, hcode⟩ h
    case h_2 hcode =>
      exact ⟨_, rfl, rfl, rfl, rfl, (if_pos ⟨htyp, hcode⟩).symm,
        fun h => absurd h (hother _ hcode _ (by decide)), fun _ => rfl⟩
    case h_3 hget hset =>
      exact ⟨_, rfl, rfl, rfl, rfl, (if_neg fun h => hset h.2).symm, fun h => absurd h.2 hget,
        fun _ => rfl⟩

/-! ## No copy leaves its array -/

/-- What is announced of a descriptor is left of it. -/
def Announced (s : ControlEndpoint) : Prop :=
  s.uep0.tRes = .ack → s.setupReq.IsStandard 0x06 → s.setupReqLen ≤ s.descr.length

theorem step_eq_some : s.step e = some t ↔ s.Enabled e ∧ s.irqHandler e = some t := by
  rw [step]
  split_ifs with h
  · simp [h]
  · simp [h]

theorem answerSetup_announced {h : Handled} (hnak : s.uep0.tRes = .nak) (hh : Handles s h) :
    (h.1.answerSetup h.2).Announced := by
  unfold answerSetup
  split_ifs with herr hin hzero
  · exact fun hack => nomatch hack
  · intro _ hstandard
    exact (hh.descr (hh.setupReq ▸ hstandard)).1
  · intro _ _
    exact hzero.trans_le (Nat.zero_le _)
  · intro hack
    have hres : h.1.uep0.tRes = .ack := hack
    rw [hh.uep0, hnak] at hres
    cases hres

theorem irqHandler_announced (hs : s.Announced) (henabled : s.Enabled e) :
    ∃ t, s.irqHandler e = some t ∧ t.Announced := by
  cases e with
  | setup r =>
      obtain ⟨h, -, hh, hsetup⟩ := onSetup_eq s r
      exact ⟨_, hsetup, answerSetup_announced rfl hh⟩
  | inToken heard acked =>
      cases acked with
      | false => exact ⟨s, rfl, hs⟩
      | true =>
          obtain ⟨t, hin, ht⟩ := onIn_run (hs henabled.1)
          refine ⟨t, hin, fun _ hstandard => ?_⟩
          rw [ht.setupReq] at hstandard
          obtain ⟨hlen, -, hdescr⟩ := ht.descr hstandard
          have hleft := hs henabled.1 hstandard
          omega
  | outToken tog r =>
      refine ⟨_, rfl, ?_⟩
      unfold onOut
      dsimp only
      split_ifs with hreport
      · intro _ hstandard
        exact absurd (hreport.2.1.symm.trans hstandard.1) (by decide)
      · exact hs
  | busReset => exact ⟨_, rfl, fun hack => nomatch hack⟩
  | suspend suspended => exact ⟨_, rfl, hs⟩
  | other shared => exact ⟨_, rfl, hs⟩

theorem run_announced (hrun : Run step powerUp es s) : s.Announced := by
  refine hrun.invariant ?_ fun hack => nomatch hack
  intro s e t hs hstep
  obtain ⟨henabled, hhandler⟩ := step_eq_some.1 hstep
  obtain ⟨t', ht', hannounced⟩ := irqHandler_announced hs henabled
  rw [hhandler, Option.some.injEq] at ht'
  exact ht' ▸ hannounced

/-- Whatever the host sends, every copy of the handler stays in its arrays. -/
theorem irqHandler_in_bounds (hrun : Run step powerUp es s) (henabled : s.Enabled e) :
    (s.irqHandler e).isSome := by
  obtain ⟨t, ht, -⟩ := irqHandler_announced (run_announced hrun) henabled
  rw [ht]
  rfl

/-- The request for the device descriptor with which a host begins. -/
def deviceDescriptorRequest : SetupReq := ⟨0x80, 0x06, 0x0100, 0, 18⟩

theorem irqHandler_in_bounds_descriptor :
    ∃ s, Run step powerUp [.setup deviceDescriptorRequest] s ∧
      s.Enabled (.inToken true true) ∧ (s.irqHandler (.inToken true true)).isSome := by
  have hsetup : ∃ s, powerUp.step (.setup deviceDescriptorRequest) = some s ∧
      s.uep0.tRes = .ack := ⟨_, rfl, rfl⟩
  obtain ⟨s, hstep, hack⟩ := hsetup
  have henabled : s.Enabled (.inToken true true) := ⟨hack, id⟩
  exact ⟨s, .single hstep, henabled, irqHandler_in_bounds (.single hstep) henabled⟩

/-! ## The address -/

/-- The address asked for and not yet in use, and the one in use. -/
def assign (a : Option UInt8 × UInt8) : ControlEvent → Option UInt8 × UInt8
  | .setup r => (if r.IsStandard 0x05 then some r.wValue.toUInt8 else none, a.2)
  | .inToken _ true => (a.1, a.1.getD a.2)
  | .busReset => (none, 0)
  | _ => a

/-- The address of the last request for one whose status stage was completed, since the
last bus reset. -/
def assigned (es : List ControlEvent) : UInt8 := (es.foldl assign (none, 0)).2

/-- An address has seven bits. -/
def ValidAddress : ControlEvent → Prop
  | .setup r => r.IsStandard 0x05 → r.wValue.toUInt8 &&& 0x80 = 0
  | _ => True

instance : DecidablePred ValidAddress
  | .setup r => inferInstanceAs (Decidable (r.IsStandard 0x05 → r.wValue.toUInt8 &&& 0x80 = 0))
  | .inToken _ _ | .outToken _ _ | .busReset | .suspend _ | .other _ => .isTrue trivial

structure Addressed (a : Option UInt8 × UInt8) (s : ControlEndpoint) : Prop where
  devAddrReg : s.devAddrReg = a.2
  current : a.2 &&& 0x80 = 0
  pending : ∀ p, a.1 = some p → p &&& 0x80 = 0
  asked : s.setupReq.IsStandard 0x05 → s.uep0.tRes = .ack → a.1 = some s.devAddr
  unasked : ¬s.setupReq.IsStandard 0x05 → a.1 = none

theorem answerSetup_keeps (s : ControlEndpoint) (err : Bool) :
    (s.answerSetup err).devAddrReg = s.devAddrReg ∧ (s.answerSetup err).devAddr = s.devAddr ∧
      (s.answerSetup err).setupReq = s.setupReq := by
  unfold answerSetup
  split_ifs
  all_goals exact ⟨rfl, rfl, rfl⟩

theorem step_addressed {a : Option UInt8 × UInt8} (hs : Addressed a s) (hannounced : s.Announced)
    (hvalid : ValidAddress e) (hstep : s.step e = some t) : Addressed (assign a e) t := by
  obtain ⟨henabled, hhandler⟩ := step_eq_some.1 hstep
  cases e with
  | setup r =>
      obtain ⟨h, -, hh, hsetup⟩ := onSetup_eq s r
      rw [irqHandler, hsetup, Option.some.injEq] at hhandler
      subst hhandler
      obtain ⟨hreg, haddr, hreq⟩ := answerSetup_keeps h.1 h.2
      have hreq' : (h.1.answerSetup h.2).setupReq = r := hreq.trans hh.setupReq
      refine ⟨hreg.trans (hh.devAddrReg.trans hs.devAddrReg), hs.current, ?_, ?_, ?_⟩
      · intro p hp
        change (if r.IsStandard 0x05 then some r.wValue.toUInt8 else none) = some p at hp
        split_ifs at hp with hset
        exact Option.some.inj hp ▸ hvalid hset
      · intro hset _
        rw [hreq'] at hset
        rw [haddr, hh.devAddr hset]
        exact if_pos hset
      · intro hset
        rw [hreq'] at hset
        exact if_neg hset
  | inToken heard acked =>
      cases acked with
      | false =>
          rw [irqHandler, if_neg Bool.false_ne_true, Option.some.injEq] at hhandler
          exact hhandler ▸ hs
      | true =>
          obtain ⟨t', hin, ht⟩ := onIn_run (hannounced henabled.1)
          rw [irqHandler, if_pos rfl, hin, Option.some.injEq] at hhandler
          subst hhandler
          have hreg := ht.devAddrReg
          by_cases hset : s.setupReq.IsStandard 0x05
          · have hasked := hs.asked hset henabled.1
            rw [if_pos hset, hs.devAddrReg, hs.current, UInt8.zero_or] at hreg
            refine ⟨?_, ?_, hs.pending, ?_, ?_⟩
            · rw [hreg, assign, hasked, Option.getD_some]
            · rw [assign, hasked, Option.getD_some]
              exact hs.pending _ hasked
            · intro _ _
              rw [ht.devAddr]
              exact hasked
            · intro hnot
              exact absurd (ht.setupReq ▸ hset) hnot
          · have hunasked := hs.unasked hset
            rw [if_neg hset, hs.devAddrReg] at hreg
            refine ⟨?_, ?_, hs.pending, ?_, fun _ => hunasked⟩
            · rw [hreg, assign, hunasked, Option.getD_none]
            · rw [assign, hunasked, Option.getD_none]
              exact hs.current
            · intro hset'
              exact absurd (ht.setupReq ▸ hset') hset
  | outToken tog r =>
      rw [irqHandler, Option.some.injEq] at hhandler
      subst hhandler
      unfold onOut
      dsimp only
      split_ifs with hreport
      · have hnot : ¬s.setupReq.IsStandard 0x05 := fun h =>
          absurd (hreport.2.1.symm.trans h.1) (by decide)
        exact ⟨hs.devAddrReg, hs.current, hs.pending, fun h => absurd h hnot, hs.unasked⟩
      · exact ⟨hs.devAddrReg, hs.current, hs.pending, hs.asked, hs.unasked⟩
  | busReset =>
      rw [irqHandler, Option.some.injEq] at hhandler
      subst hhandler
      refine ⟨rfl, (by decide : (0 : UInt8) &&& 0x80 = 0), ?_, ?_, fun _ => rfl⟩
      · intro p hp
        cases hp
      · intro _ hack
        cases hack
  | suspend suspended =>
      rw [irqHandler, Option.some.injEq] at hhandler
      exact hhandler ▸ ⟨hs.devAddrReg, hs.current, hs.pending, hs.asked, hs.unasked⟩
  | other shared =>
      rw [irqHandler, Option.some.injEq] at hhandler
      exact hhandler ▸ ⟨hs.devAddrReg, hs.current, hs.pending, hs.asked, hs.unasked⟩

theorem powerUp_addressed : Addressed (none, 0) powerUp := by
  refine ⟨rfl, rfl, ?_, ?_, fun _ => rfl⟩
  · intro p hp
    cases hp
  · intro _ hack
    cases hack

theorem run_addressed (hrun : Run step powerUp es s) (hvalid : ∀ e ∈ es, ValidAddress e) :
    Addressed (es.foldl assign (none, 0)) s := by
  generalize hstart : powerUp = s₀ at hrun
  induction hrun with
  | nil => exact hstart ▸ powerUp_addressed
  | @snoc s t es e hrun hstep ih =>
      subst hstart
      rw [List.foldl_append]
      refine step_addressed (ih fun e he => hvalid e (List.mem_append_left _ he))
        (run_announced hrun) (hvalid e ?_) hstep
      exact List.mem_append_right _ (List.mem_singleton_self e)

/-- A request for an address takes effect when its status stage is completed. -/
theorem devAddrReg_eq_assigned (hrun : Run step powerUp es s)
    (hvalid : ∀ e ∈ es, ValidAddress e) : s.devAddrReg = assigned es :=
  (run_addressed hrun hvalid).devAddrReg

/-- One request is overtaken by a bus reset, and one by the setup of a read. -/
def overtakenRequests : List ControlEvent :=
  [.setup ⟨0x00, 0x05, 9, 0, 0⟩, .busReset, .setup ⟨0x00, 0x05, 5, 0, 0⟩, .inToken true true,
    .setup ⟨0x00, 0x05, 9, 0, 0⟩, .setup deviceDescriptorRequest, .inToken true true]

theorem devAddrReg_eq_assigned_overtaken : ∃ s,
    Run step powerUp overtakenRequests s ∧ s.devAddrReg = 5 := by
  have hexec : ∃ s, exec step powerUp overtakenRequests = some s := ⟨_, rfl⟩
  obtain ⟨s, hexec⟩ := hexec
  have hrun := Run.exec_iff.1 hexec
  have hvalid : ∀ e ∈ overtakenRequests, ValidAddress e := by decide
  have hassigned : assigned overtakenRequests = 5 := by decide
  exact ⟨s, hrun, (devAddrReg_eq_assigned hrun hvalid).trans hassigned⟩

/-! ## Reads -/

/-- What the device answers to a read with. -/
def reply (s : ControlEndpoint) (r : SetupReq) : Option (List UInt8) :=
  if r.typ = 0x00 then
    match r.bRequest with
    | 0x06 => r.descriptor.map fun d => d.1.take d.2
    | 0x08 => some [s.devConfig]
    | 0x0A => some [0]
    | 0x00 => (s.status r).map fun b => [b, 0]
    | _ => none
  else if r.wIndex = 0 then
    match r.bRequest with
    | 0x01 => some s.hidReportBuffer.val
    | 0x02 => some [s.hidIdle]
    | 0x03 => some [s.hidProtocol]
    | _ => none
  else none

end ControlEndpoint

/-- The reads.  The class requests send as many bytes as the host asks for, whatever they
have, so that it must not ask for more. -/
inductive SetupReq.IsRead (r : SetupReq) : Prop
  | standard (hin : r.isIn) (code : UInt8) (hcode : code ∈ [0x06, 0x08, 0x0A, 0x00])
      (h : r.IsStandard code)
  | report (hin : r.isIn) (htyp : r.typ = 0x20) (hcode : r.bRequest = 0x01)
      (hlen : r.wLength.toNat ≤ 64)
  | byte (hin : r.isIn) (htyp : r.typ = 0x20) (hcode : r.bRequest ∈ [0x02, 0x03])
      (hlen : r.wLength.toNat ≤ 1)

/-- The host of a read: the toggle it expects next, and the data it has. -/
structure ReadHost where
  expected : Bool
  data : List UInt8

namespace ReadHost

def start : ReadHost := ⟨true, []⟩

/-- A packet with another toggle is one which the host has already. -/
def receive (h : ReadHost) (p : Bool × List UInt8) : ReadHost :=
  if p.1 = h.expected then ⟨!h.expected, h.data ++ p.2⟩ else h

end ReadHost

structure ControlRead where
  dev : ControlEndpoint
  host : ReadHost

namespace ControlRead

def hears (t : ControlRead) : ControlEvent → ReadHost
  | .inToken true _ => (t.dev.offered.map t.host.receive).getD t.host
  | _ => t.host

def step (t : ControlRead) (e : ControlEvent) : Option ControlRead :=
  (t.dev.step e).map fun dev => ⟨dev, t.hears e⟩

end ControlRead

/-- The event belongs to the transfer under way, or has nothing to do with it. -/
def ControlEvent.Within : ControlEvent → Prop
  | .setup _ => False
  | .busReset => False
  | _ => True

def ControlEvent.heard : ControlEvent → Bool
  | .inToken heard _ => heard
  | _ => false

namespace ControlEndpoint

variable {s s' t : ControlEndpoint} {r : SetupReq} {e : ControlEvent} {es : List ControlEvent}

/-- The request has its answer in the buffer, or has failed. -/
structure Prepares (s : ControlEndpoint) (reply : Option (List UInt8)) (h : Handled) : Prop where
  err : h.2 = reply.isNone
  buffer : ∀ bs, reply = some bs →
    h.1.ep0Buf.val.take (min h.1.setupReqLen endp0Size) = bs.take s.setupReqLen

theorem put_prepares {bs : List UInt8} {h : bs.length ≤ endp0Size} :
    Prepares s (some bs) ((s.put bs h).atMost bs.length, false) := by
  refine ⟨rfl, ?_⟩
  rintro _ ⟨⟩
  exact take_put (h := h)

theorem getDescriptor_prepares : ∃ h, s.getDescriptor = some h ∧
    Prepares s (s.setupReq.descriptor.map fun d => d.1.take d.2) h := by
  obtain ⟨buf, hget, htake⟩ := getDescriptor_eq s
  refine ⟨_, hget, (Option.isNone_map ..).symm, ?_⟩
  intro bs hbs
  obtain ⟨d, hfound, rfl⟩ := Option.map_eq_some_iff.1 hbs
  rw [hfound, Option.getD_some] at htake
  have hsize : min (min s.setupReqLen d.2) endp0Size = min s.setupReqLen d.2 :=
    min_eq_left ((min_le_right _ _).trans (SetupReq.descriptor_fits hfound).2)
  rw [hfound]
  change buf.val.take (min (min s.setupReqLen d.2) endp0Size) = (d.1.take d.2).take s.setupReqLen
  rw [htake, hsize, List.take_take]

theorem getStatus_prepares :
    Prepares s ((s.status s.setupReq).map fun b => [b, 0]) s.getStatus := by
  cases hstatus : s.status s.setupReq with
  | none =>
      refine ⟨?_, ?_⟩
      · rw [getStatus, hstatus]
        rfl
      · intro bs hbs
        cases hbs
  | some b =>
      rw [getStatus, hstatus]
      exact put_prepares

theorem standardRequest_prepares {code : UInt8} (hstandard : s.setupReq.IsStandard code)
    (hmem : code ∈ ([0x06, 0x08, 0x0A, 0x00] : List UInt8)) :
    ∃ h, s.standardRequest = some h ∧ Prepares s (s.reply s.setupReq) h := by
  have hcode := hstandard.2
  rw [reply, if_pos hstandard.1]
  simp only [List.mem_cons, List.not_mem_nil, or_false] at hmem
  rcases hmem with rfl | rfl | rfl | rfl
  all_goals simp only [standardRequest, hcode]
  · exact getDescriptor_prepares
  · exact ⟨_, rfl, put_prepares⟩
  · exact ⟨_, rfl, put_prepares⟩
  · exact ⟨_, rfl, getStatus_prepares⟩

/-- A class request sends what the host asks for, which is no more than there is. -/
theorem put_prepares_all {bs : List UInt8} {h : bs.length ≤ endp0Size}
    (hlen : s.setupReqLen ≤ bs.length) : Prepares s (some bs) (s.put bs h, false) := by
  refine ⟨rfl, ?_⟩
  rintro _ ⟨⟩
  have hall : min s.setupReqLen bs.length = s.setupReqLen := min_eq_left hlen
  have htake := take_put (s := s) (h := h) (w := s.setupReqLen)
  rw [hall] at htake
  exact htake

theorem classRequest_prepares (htyp : s.setupReq.typ = 0x20)
    (hlen : s.setupReqLen = s.setupReq.wLength.toNat) (hread : s.setupReq.IsRead) :
    Prepares s (s.reply s.setupReq) s.classRequest := by
  have hne : s.setupReq.typ ≠ 0x00 := by
    rw [htyp]
    decide
  rw [reply, if_neg hne]
  cases hread with
  | standard hin code hmem h => exact absurd h.1 hne
  | report hin _ hcode hw =>
      simp only [classRequest, hcode]
      split_ifs with hindex
      · exact put_prepares_all ((hlen.trans_le hw).trans (Bytes.length_val _).ge)
      · exact ⟨rfl, fun bs hbs => nomatch hbs⟩
  | byte hin _ hmem hw =>
      simp only [List.mem_cons, List.not_mem_nil, or_false] at hmem
      rcases hmem with hcode | hcode
      all_goals
        simp only [classRequest, hcode]
        split_ifs with hindex
        · exact put_prepares_all (hlen.trans_le hw)
        · exact ⟨rfl, fun bs hbs => nomatch hbs⟩

theorem request_prepares (hlen : s.setupReqLen = s.setupReq.wLength.toNat)
    (hread : s.setupReq.IsRead) :
    ∃ h, s.request = some h ∧ Prepares s (s.reply s.setupReq) h := by
  unfold request
  split_ifs with htyp hclass
  · exact ⟨_, rfl, classRequest_prepares hclass hlen hread⟩
  · cases hread with
    | standard hin code hmem h => exact absurd h.1 htyp
    | report hin hclass' _ _ => exact absurd hclass' hclass
    | byte hin hclass' _ _ => exact absurd hclass' hclass
  · cases hread with
    | standard hin code hmem h => exact standardRequest_prepares h hmem
    | report hin hclass' _ _ =>
        rw [not_not, hclass'] at htyp
        exact absurd htyp (by decide)
    | byte hin hclass' _ _ =>
        rw [not_not, hclass'] at htyp
        exact absurd htyp (by decide)

/-! ## The host of a read -/

/-- No packet of the answer has been acknowledged. -/
structure Pending (r : SetupReq) (data : List UInt8) (heard : Bool) (t : ControlRead) : Prop where
  request : t.dev.setupReq = r
  tRes : t.dev.uep0.tRes = .ack
  tTog : t.dev.uep0.tTog = true
  rRes : t.dev.uep0.rRes = .nak
  packet : t.dev.ep0Buf.val.take t.dev.uep0TxLen = data
  descr : r.IsStandard 0x06 → t.dev.setupReqLen = 0
  host : t.host = if heard then ⟨false, data⟩ else .start

/-- A descriptor is followed by empty packets, another answer by itself. -/
structure Delivered (r : SetupReq) (data : List UInt8) (t : ControlRead) : Prop where
  request : t.dev.setupReq = r
  tRes : t.dev.uep0.tRes = .ack
  descr : r.IsStandard 0x06 → t.dev.setupReqLen = 0 ∧ t.dev.uep0TxLen = 0
  tTog : ¬r.IsStandard 0x06 → t.dev.uep0.tTog = true ∧ t.host.expected = false
  host : t.host.data = data

structure Stalled (t : ControlRead) : Prop where
  tRes : t.dev.uep0.tRes = .stall
  rRes : t.dev.uep0.rRes = .stall
  host : t.host = .start

inductive Reading (r : SetupReq) (answer : Option (List UInt8)) : Bool → ControlRead → Prop
  | pending {bs : List UInt8} {heard : Bool} {t : ControlRead} (hanswer : answer = some bs)
      (h : Pending r (bs.take r.wLength.toNat) heard t) : Reading r answer heard t
  | delivered {bs : List UInt8} {t : ControlRead} (hanswer : answer = some bs)
      (h : Delivered r (bs.take r.wLength.toNat) t) : Reading r answer true t
  | stalled {t : ControlRead} (hanswer : answer = none) (h : Stalled t) : Reading r answer false t

theorem isIn_of_isRead (h : r.IsRead) : r.isIn := by
  cases h with
  | standard hin => exact hin
  | report hin => exact hin
  | byte hin => exact hin

theorem not_setReport_of_isRead (h : r.IsRead) : ¬(r.typ = 0x20 ∧ r.bRequest = 0x09) := by
  rintro ⟨htyp, hcode⟩
  cases h with
  | standard hin code hmem hstandard =>
      exact absurd (hstandard.1.symm.trans htyp) (by decide)
  | report hin _ hreport _ => exact absurd (hreport.symm.trans hcode) (by decide)
  | byte hin _ hmem _ =>
      rw [hcode] at hmem
      exact absurd hmem (by decide)

theorem onSetup_reading (hread : r.IsRead) (hsetup : s.onSetup r = some s') :
    Reading r (s.reply r) false ⟨s', .start⟩ := by
  obtain ⟨h, hrequest, hh, honSetup⟩ := onSetup_eq s r
  rw [hsetup, Option.some.injEq] at honSetup
  subst honSetup
  obtain ⟨h', hrequest', hprepares⟩ := request_prepares (s := s.storeSetup r) rfl hread
  rw [hrequest, Option.some.injEq] at hrequest'
  subst hrequest'
  have hreply : (s.storeSetup r).reply r = s.reply r := rfl
  change Prepares _ ((s.storeSetup r).reply r) h at hprepares
  rw [hreply] at hprepares
  have herr := hprepares.err
  cases hanswer : s.reply r with
  | none =>
      rw [hanswer] at herr
      refine .stalled rfl ?_
      rw [herr]
      exact ⟨rfl, rfl, rfl⟩
  | some bs =>
      rw [hanswer] at herr
      have hin : h.1.setupReq.isIn := hh.setupReq ▸ isIn_of_isRead hread
      have hanswered : h.1.answerSetup h.2 = { h.1 with
          setupReqLen := h.1.setupReqLen - min h.1.setupReqLen endp0Size
          uep0TxLen := min h.1.setupReqLen endp0Size
          uep0 := { h.1.uep0 with tTog := true, tRes := .ack } } := by
        rw [herr]
        exact if_pos hin
      refine .pending rfl ?_
      rw [hanswered]
      refine ⟨hh.setupReq, rfl, rfl, ?_, hprepares.buffer bs hanswer, ?_, rfl⟩
      · change h.1.uep0.rRes = .nak
        rw [hh.uep0]
        rfl
      · intro hdescr
        have hsize := (hh.descr hdescr).2
        change h.1.setupReqLen - min h.1.setupReqLen endp0Size = 0
        omega

theorem receive_pending {data : List UInt8} {heard : Bool} :
    (if heard then ⟨false, data⟩ else ReadHost.start : ReadHost).receive (true, data) =
      ⟨false, data⟩ := by
  cases heard
  · rfl
  · rfl

theorem Pending.hears {data : List UInt8} {heard : Bool} {t : ControlRead}
    (h : Pending r data heard t) (heard' acked : Bool) :
    t.hears (.inToken heard' acked) = if heard || heard' then ⟨false, data⟩ else .start := by
  have hoffered : t.dev.offered = some (true, data) := by
    rw [offered, if_pos h.tRes, h.tTog, h.packet]
  cases heard' with
  | false => rw [Bool.or_false, ← h.host]; rfl
  | true =>
      rw [Bool.or_true, if_pos rfl]
      change (t.dev.offered.map t.host.receive).getD t.host = _
      rw [hoffered, Option.map_some, Option.getD_some, h.host]
      exact receive_pending

theorem Delivered.hears {data : List UInt8} {t : ControlRead} (h : Delivered r data t)
    (heard acked : Bool) : (t.hears (.inToken heard acked)).data = data ∧
      (¬r.IsStandard 0x06 → (t.hears (.inToken heard acked)).expected = false) := by
  cases heard with
  | false => exact ⟨h.host, fun hnot => (h.tTog hnot).2⟩
  | true =>
      have hoffered : t.dev.offered =
          some (t.dev.uep0.tTog, t.dev.ep0Buf.val.take t.dev.uep0TxLen) := if_pos h.tRes
      change ((t.dev.offered.map t.host.receive).getD t.host).data = data ∧
        (_ → ((t.dev.offered.map t.host.receive).getD t.host).expected = false)
      rw [hoffered, Option.map_some, Option.getD_some, ReadHost.receive]
      by_cases hdescr : r.IsStandard 0x06
      · rw [(h.descr hdescr).2]
        split_ifs
        · refine ⟨?_, fun hnot => absurd hdescr hnot⟩
          rw [List.take_zero, List.append_nil]
          exact h.host
        · exact ⟨h.host, fun hnot => absurd hdescr hnot⟩
      · obtain ⟨htog, hexpected⟩ := h.tTog hdescr
        rw [if_neg (by rw [htog, hexpected]; nofun)]
        exact ⟨h.host, fun _ => hexpected⟩

theorem controlRead_step_iff {t t' : ControlRead} : t.step e = some t' ↔
    t.dev.Enabled e ∧ t.dev.irqHandler e = some t'.dev ∧ t'.host = t.hears e := by
  rw [ControlRead.step, Option.map_eq_some_iff]
  constructor
  · rintro ⟨dev, hdev, rfl⟩
    obtain ⟨henabled, hhandler⟩ := step_eq_some.1 hdev
    exact ⟨henabled, hhandler, rfl⟩
  · rintro ⟨henabled, hhandler, hhost⟩
    exact ⟨t'.dev, step_eq_some.2 ⟨henabled, hhandler⟩, hhost ▸ rfl⟩

theorem onOut_of_not_setReport (h : ¬(s.setupReq.typ = 0x20 ∧ s.setupReq.bRequest = 0x09))
    (tog : Bool) (report : Report) : s.onOut tog report = s.put report.bytes report.fits :=
  if_neg fun hreport => h hreport.2

/-- What the read looks at is as it was. -/
structure Quiet (s t : ControlEndpoint) : Prop where
  setupReq : t.setupReq = s.setupReq
  uep0 : t.uep0 = s.uep0
  uep0TxLen : t.uep0TxLen = s.uep0TxLen
  setupReqLen : t.setupReqLen = s.setupReqLen
  ep0Buf : t.ep0Buf = s.ep0Buf

theorem Pending.quiet {data : List UInt8} {heard heard' : Bool} {t t' : ControlRead}
    (h : Pending r data heard t) (hdev : Quiet t.dev t'.dev)
    (hhost : t'.host = if heard' then ⟨false, data⟩ else .start) : Pending r data heard' t' where
  request := hdev.setupReq.trans h.request
  tRes := by rw [hdev.uep0, h.tRes]
  tTog := by rw [hdev.uep0, h.tTog]
  rRes := by rw [hdev.uep0, h.rRes]
  packet := by rw [hdev.ep0Buf, hdev.uep0TxLen, h.packet]
  descr := fun hdescr => hdev.setupReqLen.trans (h.descr hdescr)
  host := hhost

theorem Delivered.quiet {data : List UInt8} {t t' : ControlRead} (h : Delivered r data t)
    (hdev : Quiet t.dev t'.dev) (hdata : t'.host.data = data)
    (hexpected : ¬r.IsStandard 0x06 → t'.host.expected = false) : Delivered r data t' where
  request := hdev.setupReq.trans h.request
  tRes := by rw [hdev.uep0, h.tRes]
  descr := fun hdescr => ⟨hdev.setupReqLen.trans (h.descr hdescr).1,
    hdev.uep0TxLen.trans (h.descr hdescr).2⟩
  tTog := fun hnot => ⟨by rw [hdev.uep0, (h.tTog hnot).1], hexpected hnot⟩
  host := hdata

/-- The events of a transfer: a packet goes out, the host sends one, or nothing happens
here. -/
inductive WithinEffect (s t : ControlEndpoint) : ControlEvent → Prop
  | lost (heard : Bool) (h : Quiet s t) : WithinEffect s t (.inToken heard false)
  | acked (hack : s.uep0.tRes = .ack) (hin : s.onIn = some t) :
      WithinEffect s t (.inToken true true)
  | out (tog : Bool) (report : Report) (hack : s.uep0.rRes = .ack)
      (hout : t = s.onOut tog report) : WithinEffect s t (.outToken tog report)
  | elsewhere (e : ControlEvent) (hheard : e.heard = false)
      (hhears : ∀ read : ControlRead, read.hears e = read.host) (h : Quiet s t) :
      WithinEffect s t e

theorem step_within (hwithin : e.Within) (henabled : s.Enabled e)
    (hhandler : s.irqHandler e = some t) : WithinEffect s t e := by
  cases e with
  | setup r => exact hwithin.elim
  | busReset => exact hwithin.elim
  | inToken heard acked =>
      cases acked with
      | false =>
          rw [irqHandler, if_neg Bool.false_ne_true, Option.some.injEq] at hhandler
          exact .lost heard (hhandler ▸ ⟨rfl, rfl, rfl, rfl, rfl⟩)
      | true =>
          have hheard : heard = true := henabled.2 rfl
          rw [irqHandler, if_pos rfl] at hhandler
          rw [hheard]
          exact .acked henabled.1 hhandler
  | outToken tog report =>
      rw [irqHandler, Option.some.injEq] at hhandler
      exact .out tog report henabled hhandler.symm
  | suspend suspended =>
      rw [irqHandler, Option.some.injEq] at hhandler
      exact .elsewhere _ rfl (fun _ => rfl) (hhandler ▸ ⟨rfl, rfl, rfl, rfl, rfl⟩)
  | other shared =>
      rw [irqHandler, Option.some.injEq] at hhandler
      exact .elsewhere _ rfl (fun _ => rfl) (hhandler ▸ ⟨rfl, rfl, rfl, rfl, rfl⟩)

theorem step_pending {data : List UInt8} {heard : Bool} {t t' : ControlRead}
    (h : Pending r data heard t) (hwithin : e.Within) (hstep : t.step e = some t') :
    Pending r data (heard || e.heard) t' ∨ (heard || e.heard) = true ∧ Delivered r data t' := by
  obtain ⟨henabled, hhandler, hhost⟩ := controlRead_step_iff.1 hstep
  cases step_within hwithin henabled hhandler with
  | lost heard' hdev => exact .inl (h.quiet hdev (hhost.trans (h.hears heard' false)))
  | acked _ hin =>
      have hhears := hhost.trans (h.hears true true)
      rw [Bool.or_true, if_pos rfl] at hhears
      obtain ⟨dev, hin', hdev⟩ := onIn_run (s := t.dev) fun hdescr =>
        (h.descr (h.request ▸ hdescr)).trans_le (Nat.zero_le _)
      rw [hin, Option.some.injEq] at hin'
      subst hin'
      right
      refine ⟨Bool.or_true heard, hdev.setupReq.trans h.request, hdev.tRes.trans h.tRes, ?_, ?_, ?_⟩
      · intro hdescr
        obtain ⟨hlen, htx, -⟩ := hdev.descr (h.request ▸ hdescr)
        rw [h.descr hdescr] at hlen htx
        exact ⟨hlen, htx⟩
      · intro hnot
        exact ⟨(hdev.tTog (h.request ▸ hnot)).trans h.tTog, by rw [hhears]⟩
      · rw [hhears]
  | out tog report hack _ =>
      rw [h.rRes] at hack
      cases hack
  | elsewhere _ hheard hhears hdev =>
      rw [hheard, Bool.or_false]
      exact .inl (h.quiet hdev (hhost.trans ((hhears t).trans h.host)))

theorem step_delivered {data : List UInt8} {t t' : ControlRead} (hread : r.IsRead)
    (h : Delivered r data t) (hwithin : e.Within) (hstep : t.step e = some t') :
    Delivered r data t' := by
  obtain ⟨henabled, hhandler, hhost⟩ := controlRead_step_iff.1 hstep
  cases step_within hwithin henabled hhandler with
  | lost heard hdev =>
      obtain ⟨hdata, hexpected⟩ := h.hears heard false
      rw [← hhost] at hdata hexpected
      exact h.quiet hdev hdata hexpected
  | acked _ hin =>
      obtain ⟨hdata, hexpected⟩ := h.hears true true
      rw [← hhost] at hdata hexpected
      obtain ⟨dev, hin', hdev⟩ := onIn_run (s := t.dev) fun hdescr =>
        (h.descr (h.request ▸ hdescr)).1.trans_le (Nat.zero_le _)
      rw [hin, Option.some.injEq] at hin'
      subst hin'
      refine ⟨hdev.setupReq.trans h.request, hdev.tRes.trans h.tRes, ?_, ?_, hdata⟩
      · intro hdescr
        obtain ⟨hlen, htx, -⟩ := hdev.descr (h.request ▸ hdescr)
        rw [(h.descr hdescr).1] at hlen htx
        exact ⟨hlen, htx⟩
      · intro hnot
        exact ⟨(hdev.tTog (h.request ▸ hnot)).trans (h.tTog hnot).1, hexpected hnot⟩
  | out tog report _ hout =>
      -- the packet of the status stage is only written into the buffer
      have hnot : ¬(t.dev.setupReq.typ = 0x20 ∧ t.dev.setupReq.bRequest = 0x09) := by
        rw [h.request]
        exact not_setReport_of_isRead hread
      rw [onOut_of_not_setReport hnot] at hout
      exact ⟨hout ▸ h.request, hout ▸ h.tRes, hout ▸ h.descr,
        fun hnot => ⟨hout ▸ (h.tTog hnot).1, hhost ▸ (h.tTog hnot).2⟩, hhost ▸ h.host⟩
  | elsewhere _ _ hhears hdev =>
      rw [hhears] at hhost
      exact h.quiet hdev (hhost ▸ h.host) fun hnot => hhost ▸ (h.tTog hnot).2

theorem step_stalled {t t' : ControlRead} (h : Stalled t) (hwithin : e.Within)
    (hstep : t.step e = some t') : Stalled t' ∧ e.heard = false := by
  obtain ⟨henabled, hhandler, hhost⟩ := controlRead_step_iff.1 hstep
  have hnever : t.dev.uep0.tRes ≠ .ack := by
    rw [h.tRes]
    decide
  cases step_within hwithin henabled hhandler with
  | lost heard _ => exact absurd henabled.1 hnever
  | acked hack _ => exact absurd hack hnever
  | out tog report hack _ =>
      rw [h.rRes] at hack
      cases hack
  | elsewhere _ hheard hhears hdev =>
      have hstays : t'.host = .start := hhost.trans ((hhears t).trans h.host)
      exact ⟨⟨hdev.uep0 ▸ h.tRes, hdev.uep0 ▸ h.rRes, hstays⟩, hheard⟩

theorem step_reading {answer : Option (List UInt8)} {heard : Bool} {t t' : ControlRead}
    (hread : r.IsRead) (h : Reading r answer heard t) (hwithin : e.Within)
    (hstep : t.step e = some t') : Reading r answer (heard || e.heard) t' := by
  cases h with
  | pending hanswer h =>
      rcases step_pending h hwithin hstep with hpending | ⟨hheard, hdelivered⟩
      · exact .pending hanswer hpending
      · rw [hheard]
        exact .delivered hanswer hdelivered
  | delivered hanswer h =>
      rw [Bool.true_or]
      exact .delivered hanswer (step_delivered hread h hwithin hstep)
  | stalled hanswer h =>
      obtain ⟨hstalled, hheard⟩ := step_stalled h hwithin hstep
      rw [hheard]
      exact .stalled hanswer hstalled

theorem run_reading {answer : Option (List UInt8)} {t t' : ControlRead} (hread : r.IsRead)
    (h : Reading r answer false t) (hrun : Run ControlRead.step t es t')
    (hwithin : ∀ e ∈ es, e.Within) : Reading r answer (es.any ControlEvent.heard) t' := by
  induction hrun with
  | nil => exact h
  | @snoc s t es e hrun hstep ih =>
      rw [List.any_append, List.any_cons, List.any_nil, Bool.or_false]
      apply step_reading hread (ih fun e he => hwithin e (List.mem_append_left _ he)) _ hstep
      exact hwithin e (List.mem_append_right _ (List.mem_singleton_self e))

/-- However many packets and acknowledgements are lost, and whatever else goes on, the host
of a read has the whole answer once it has heard the device, and nothing before.  The
device is ready to send if and only if it has an answer, and stalls if and only if it has
none. -/
theorem read_transfer (hread : r.IsRead) (hsetup : s.step (.setup r) = some s') {t : ControlRead}
    (hrun : Run ControlRead.step ⟨s', .start⟩ es t) (hwithin : ∀ e ∈ es, e.Within) :
    t.host.data = (if es.any ControlEvent.heard
      then ((s.reply r).getD []).take r.wLength.toNat else []) ∧
      (t.dev.uep0.tRes = .ack ↔ (s.reply r).isSome) ∧
      (t.dev.uep0.tRes = .stall ↔ s.reply r = none) := by
  have hreading := run_reading hread (onSetup_reading hread (step_eq_some.1 hsetup).2) hrun hwithin
  generalize es.any ControlEvent.heard = heard at hreading ⊢
  cases hreading with
  | pending hanswer h =>
      rw [hanswer, h.host, h.tRes]
      refine ⟨?_, iff_of_true rfl rfl, by simp⟩
      cases heard
      · rfl
      · rfl
  | delivered hanswer h =>
      rw [hanswer, h.tRes]
      exact ⟨h.host, iff_of_true rfl rfl, by simp⟩
  | stalled hanswer h =>
      rw [hanswer, h.host, h.tRes]
      exact ⟨rfl, by decide, by decide⟩

/-- The first acknowledgement is lost, and the packet sent again. -/
theorem read_transfer_descriptor : ∃ (s : ControlEndpoint) (t : ControlRead),
    powerUp.step (.setup deviceDescriptorRequest) = some s ∧
      Run ControlRead.step ⟨s, .start⟩ [.inToken true false, .inToken true true] t ∧
      t.host.data = myDevDescr ∧ t.dev.uep0.tRes ≠ .stall := by
  have hstart : ∃ s : ControlEndpoint, powerUp.step (.setup deviceDescriptorRequest) = some s ∧
      ∃ t, exec ControlRead.step ⟨s, .start⟩ [.inToken true false, .inToken true true] = some t :=
    ⟨_, rfl, _, rfl⟩
  obtain ⟨s, hsetup, t, hexec⟩ := hstart
  have hrun := Run.exec_iff.1 hexec
  have hread : deviceDescriptorRequest.IsRead :=
    .standard (by decide) 0x06 (by decide) (by decide)
  have hwithin : ∀ e ∈ [ControlEvent.inToken true false, .inToken true true], e.Within := by
    intro e he
    rcases List.mem_pair.1 he with rfl | rfl
    · trivial
    · trivial
  obtain ⟨hdata, -, hstall⟩ := read_transfer hread hsetup hrun hwithin
  exact ⟨s, t, hsetup, hrun, hdata, fun h => absurd (hstall.1 h) (by decide)⟩

end ControlEndpoint

end UnsoloKey
