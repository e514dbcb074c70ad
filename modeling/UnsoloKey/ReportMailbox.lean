import UnsoloKey.PacketRing
import UnsoloKey.Trace
import Mathlib.Tactic

/-!
# The report buffer of endpoint 0

The interrupt copies a report to `HID_Report_Buffer`, sets the flag and acknowledges
at once.  The main loop tests the flag once in each round, hands the buffer to
`ProcessCTAPHID` and clears the flag when the report has been processed.  The buffer
holds one report, and nothing keeps the host from sending the next one before the flag
is clear.
-/

namespace UnsoloKey

open Trace

/-- The report in the buffer is being processed, or its flag is about to be cleared. -/
def Phase.fromReport : Phase → Bool
  | .main | .setReport | .restart => false
  | .handler src _ _ | .calibrate src | .sample src _ | .poll src _ | .consume src _
  | .check src _ | .returned src _ | .release src => src = .report

/-- The report which the main loop is going to find. -/
def System.waiting (c : System) : List Report :=
  if c.hidSetReportFlag ∧ c.phase.fromReport = false then [c.hidReportBuffer] else []

def acknowledged (actions : List Action) : List Report :=
  actions.filterMap fun a => match a with
    | .arriveReport r => some r
    | _ => none

/-- The report which this step passes to `ProcessCTAPHID`. -/
def System.passedBy (c : System) : Action → Option Report
  | .run _ => match c.phase with
    | .setReport => if c.hidSetReportFlag then some c.hidReportBuffer else none
    | _ => none
  | _ => none

def System.passed (c : System) : List Action → List Report
  | [] => []
  | a :: rest => (c.passedBy a).toList ++ ((c.step a).map fun d => d.passed rest).getD []

def Action.ofProgram : Action → Bool
  | .run _ | .wait => true
  | .enqueue _ | .arriveReport _ => false

/-- A round of the main loop, with one packet whose command waits for a touch until
the timeout. -/
def reportLatency : ℕ := 1211

/-- Every report is passed exactly once and in order, and soon after it arrived. -/
structure ReportsKept (actions : List Action) (c : System) : Prop where
  account : acknowledged actions = System.powerUp.passed actions ++ c.waiting
  soon : ∀ before after, actions = before ++ after →
    reportLatency ≤ (after.filter Action.ofProgram).length →
    acknowledged before <+: System.powerUp.passed actions

/-- The report before this one has been processed, and its flag is clear. -/
def MailboxFree (c : System) : Action → Prop
  | .arriveReport _ => c.hidSetReportFlag = false
  | _ => True

instance (c : System) (a : Action) : Decidable (MailboxFree c a) := by
  cases a <;> unfold MailboxFree <;> infer_instance

/-! ## One step -/

theorem dispatchPhase_fromReport (src : Source) (msg : Option Message) :
    (dispatchPhase src msg).fromReport = decide (src = .report) := by
  rcases dispatchPhase_cases src msg with h | ⟨cid, cmd, h⟩
  · rw [h]
    rfl
  · rw [h]
    rfl

/-- What a step of the program does to the buffer. -/
inductive System.Mailed (c : System) (a : Action) (d : System) : Prop
  | kept (hpassed : c.passedBy a = none) (hflag : d.hidSetReportFlag = c.hidSetReportFlag)
      (hbuffer : d.hidReportBuffer = c.hidReportBuffer)
      (hfrom : d.phase.fromReport = c.phase.fromReport)
  | passed (hpassed : c.passedBy a = some c.hidReportBuffer)
      (hphase : c.phase = .setReport) (hbefore : c.hidSetReportFlag = true)
      (hflag : d.hidSetReportFlag = true) (hfrom : d.phase.fromReport = true)
  | cleared (hpassed : c.passedBy a = none) (hbefore : c.phase.fromReport = true)
      (hflag : d.hidSetReportFlag = false) (hfrom : d.phase.fromReport = false)

theorem System.mailed_run {c d : System} {val : ℕ} (hstep : c.step (.run val) = some d) :
    c.Mailed (.run val) d := by
  cases hplace : c.phase with
  | main =>
      simp only [System.step, hplace] at hstep
      split_ifs at hstep with hempty
      · cases hstep
        exact .kept (by simp [passedBy, hplace]) rfl rfl (by rw [hplace]; rfl)
      · cases hstep
        refine .kept (by simp [passedBy, hplace]) rfl rfl ?_
        rw [hplace]
        exact dispatchPhase_fromReport .ring _
  | setReport =>
      simp only [System.step, hplace] at hstep
      split_ifs at hstep with hset
      · cases hstep
        exact .passed (by simp [passedBy, hplace, hset]) hplace hset hset
          (dispatchPhase_fromReport .report _)
      · cases hstep
        exact .kept (by simp [passedBy, hplace, hset]) rfl rfl (by rw [hplace]; rfl)
  | release src =>
      cases src with
      | ring =>
          simp only [System.step, hplace] at hstep
          cases hstep
          exact .kept (by simp [passedBy, hplace]) rfl rfl (by rw [hplace]; rfl)
      | report =>
          simp only [System.step, hplace] at hstep
          cases hstep
          exact .cleared (by simp [passedBy, hplace]) (by rw [hplace]; rfl) rfl rfl
  | poll src w =>
      simp only [System.step, hplace] at hstep
      cases hoob : oobCommand c.ring c.hid with
      | none =>
          rw [hoob] at hstep
          cases hstep
          exact .kept (by simp [passedBy, hplace]) rfl rfl (by rw [hplace]; rfl)
      | some x =>
          rw [hoob] at hstep
          cases hstep
          exact .kept (by simp [passedBy, hplace]) rfl rfl (by rw [hplace]; rfl)
  | sample src w | check src w =>
      simp only [System.step, hplace] at hstep
      split_ifs at hstep <;> cases hstep <;>
        exact .kept (by simp [passedBy, hplace]) rfl rfl (by rw [hplace]; rfl)
  | restart | handler src cid cmd | calibrate src | consume src w | returned src status =>
      simp only [System.step, hplace] at hstep
      cases hstep
      exact .kept (by simp [passedBy, hplace]) rfl rfl (by rw [hplace]; rfl)

theorem System.mailed_wait {c d : System} (hstep : c.step .wait = some d) :
    c.Mailed .wait d := by
  cases hplace : c.phase with
  | handler src cid cmd =>
      simp only [System.step, hplace] at hstep
      split_ifs at hstep
      cases hstep
      exact .kept rfl rfl rfl (by rw [hplace]; rfl)
  | _ => simp [System.step, hplace] at hstep

/-! ## What is passed -/

/-- `ack` was acknowledged and `pass` passed on. -/
structure Mailbox (ack pass : List Report) (c : System) : Prop where
  busy : c.phase.fromReport = true → c.hidSetReportFlag = true
  account : ack = pass ++ c.waiting

/-- A report has been lost. -/
structure Short (ack pass : List Report) (c : System) : Prop where
  busy : c.phase.fromReport = true → c.hidSetReportFlag = true
  short : pass.length + c.waiting.length < ack.length

theorem mailbox_powerUp : Mailbox [] [] System.powerUp where
  busy := by simp [System.powerUp, Phase.fromReport]
  account := rfl

variable {ack pass : List Report} {c d : System} {a : Action}

/-- The program moves a report from the buffer to `ProcessCTAPHID`, or leaves it. -/
theorem System.Mailed.waiting_eq (h : c.Mailed a d) :
    c.waiting = (c.passedBy a).toList ++ d.waiting := by
  unfold System.waiting
  cases h with
  | kept hpassed hflag hbuffer hfrom =>
      rw [hpassed, hflag, hbuffer, hfrom]
      rfl
  | passed hpassed hphase hbefore hflag hfrom =>
      rw [hpassed, hbefore, hphase, hfrom]
      simp [Phase.fromReport]
  | cleared hpassed hbefore hflag hfrom =>
      rw [hpassed, hbefore, hflag]
      simp

theorem System.Mailed.busy (h : c.Mailed a d)
    (hbusy : c.phase.fromReport = true → c.hidSetReportFlag = true) :
    d.phase.fromReport = true → d.hidSetReportFlag = true := by
  intro hfrom
  cases h with
  | kept hpassed hflag hbuffer hsame =>
      rw [hflag]
      exact hbusy (hsame ▸ hfrom)
  | passed hpassed hphase hbefore hflag hafter => exact hflag
  | cleared hpassed hbefore hflag hafter =>
      rw [hafter] at hfrom
      exact absurd hfrom Bool.false_ne_true

theorem Mailbox.program (h : Mailbox ack pass c) (hmailed : c.Mailed a d) :
    Mailbox ack (pass ++ (c.passedBy a).toList) d where
  busy := hmailed.busy h.busy
  account := by rw [List.append_assoc, ← hmailed.waiting_eq, h.account]

theorem Short.program (h : Short ack pass c) (hmailed : c.Mailed a d) :
    Short ack (pass ++ (c.passedBy a).toList) d where
  busy := hmailed.busy h.busy
  short := by
    have hshort := h.short
    rw [hmailed.waiting_eq, List.length_append] at hshort
    rw [List.length_append]
    omega

theorem mailbox_step (h : Mailbox ack pass c) (hfree : MailboxFree c a)
    (hstep : c.step a = some d) :
    Mailbox (ack ++ acknowledged [a]) (pass ++ (c.passedBy a).toList) d := by
  cases a with
  | enqueue r =>
      simp only [System.step] at hstep
      split_ifs at hstep
      cases hstep
      have hsame : Mailbox ack pass { c with ring := c.ring.enqueue r } := ⟨h.busy, h.account⟩
      simpa [acknowledged, System.passedBy] using hsame
  | arriveReport r =>
      cases hstep
      have hclear : c.hidSetReportFlag = false := hfree
      have hfrom : c.phase.fromReport = false := by
        by_contra hbusy
        rw [Bool.not_eq_false] at hbusy
        rw [h.busy hbusy] at hclear
        exact Bool.noConfusion hclear
      refine ⟨fun _ => rfl, ?_⟩
      simp [acknowledged, System.passedBy, System.waiting, hfrom, h.account, hclear]
  | run val =>
      have hmoved := h.program (System.mailed_run hstep)
      simpa [acknowledged] using hmoved
  | wait =>
      have hmoved := h.program (System.mailed_wait hstep)
      simpa [acknowledged] using hmoved

/-- What has been lost stays lost. -/
theorem short_step (h : Short ack pass c) (hstep : c.step a = some d) :
    Short (ack ++ acknowledged [a]) (pass ++ (c.passedBy a).toList) d := by
  cases a with
  | enqueue r =>
      simp only [System.step] at hstep
      split_ifs at hstep
      cases hstep
      have hsame : Short ack pass { c with ring := c.ring.enqueue r } := ⟨h.busy, h.short⟩
      simpa [acknowledged, System.passedBy] using hsame
  | arriveReport r =>
      cases hstep
      refine ⟨fun _ => rfl, ?_⟩
      have hshort := h.short
      unfold System.waiting at hshort ⊢
      by_cases hfrom : c.phase.fromReport = true
      · simp [acknowledged, System.passedBy, hfrom] at hshort ⊢
        omega
      · simp [acknowledged, System.passedBy, hfrom] at hshort ⊢
        omega
  | run val =>
      have hmoved := h.program (System.mailed_run hstep)
      simpa [acknowledged] using hmoved
  | wait =>
      have hmoved := h.program (System.mailed_wait hstep)
      simpa [acknowledged] using hmoved

theorem short_of_not_free (h : Mailbox ack pass c) (hfree : ¬ MailboxFree c a)
    (hstep : c.step a = some d) :
    Short (ack ++ acknowledged [a]) (pass ++ (c.passedBy a).toList) d := by
  cases a with
  | arriveReport r =>
      cases hstep
      have hset : c.hidSetReportFlag = true := by simpa [MailboxFree] using hfree
      have haccount := congrArg List.length h.account
      refine ⟨fun _ => rfl, ?_⟩
      rw [List.length_append] at haccount
      unfold System.waiting at haccount ⊢
      by_cases hfrom : c.phase.fromReport = true
      · simp [acknowledged, System.passedBy, hfrom] at haccount ⊢
        omega
      · simp [acknowledged, System.passedBy, hfrom, hset] at haccount ⊢
        omega
  | _ => exact absurd trivial hfree

theorem acknowledged_cons (a : Action) (actions : List Action) :
    acknowledged (a :: actions) = acknowledged [a] ++ acknowledged actions := by
  unfold acknowledged
  rw [← List.filterMap_append, List.singleton_append]

theorem System.passed_cons (hstep : c.step a = some d) (rest : List Action) :
    c.passed (a :: rest) = (c.passedBy a).toList ++ d.passed rest := by
  simp only [passed, hstep, Option.map_some, Option.getD_some]

theorem short_run {actions : List Action} (h : Short ack pass c)
    (hrun : Run System.step c actions d) :
    Short (ack ++ acknowledged actions) (pass ++ c.passed actions) d := by
  induction actions generalizing c ack pass with
  | nil =>
      rw [Run.nil_iff] at hrun
      subst hrun
      simpa [acknowledged, System.passed] using h
  | cons a rest ih =>
      rcases Run.cons_iff.1 hrun with ⟨e, hstep, hrest⟩
      rw [acknowledged_cons, System.passed_cons hstep, ← List.append_assoc,
        ← List.append_assoc]
      exact ih (short_step h hstep) hrest

theorem mailbox_run {actions : List Action} (h : Mailbox ack pass c)
    (hrun : Run System.step c actions d) :
    (Run.Guarded System.step MailboxFree c actions ∧
      Mailbox (ack ++ acknowledged actions) (pass ++ c.passed actions) d) ∨
    (¬ Run.Guarded System.step MailboxFree c actions ∧
      Short (ack ++ acknowledged actions) (pass ++ c.passed actions) d) := by
  induction actions generalizing c ack pass with
  | nil =>
      rw [Run.nil_iff] at hrun
      subst hrun
      exact .inl ⟨.nil, by simpa [acknowledged, System.passed] using h⟩
  | cons a rest ih =>
      rcases Run.cons_iff.1 hrun with ⟨e, hstep, hrest⟩
      rw [acknowledged_cons, System.passed_cons hstep, ← List.append_assoc,
        ← List.append_assoc, Run.guarded_cons]
      by_cases hfree : MailboxFree c a
      · rcases ih (mailbox_step h hfree hstep) hrest with ⟨hguard, hkept⟩ | ⟨hlate, hshort⟩
        · refine .inl ⟨⟨hfree, fun t ht => ?_⟩, hkept⟩
          rw [hstep, Option.some.injEq] at ht
          exact ht ▸ hguard
        · exact .inr ⟨fun hall => hlate (hall.2 e hstep), hshort⟩
      · exact .inr ⟨fun hall => hfree hall.1,
          short_run (short_of_not_free h hfree hstep) hrest⟩

/-! ## How long it takes -/

/-- The steps of the program until it tests the flag, at most.  One round of the wait
is four steps, and the wait gives up after 300 rounds. -/
def Phase.stepsLeft : Phase → ℕ
  | .setReport => 0
  | .release _ => 1
  | .returned _ _ => 2
  | .check _ w => 3 + 4 * (300 - w.loops)
  | .consume _ w => 4 + 4 * (300 - w.loops)
  | .poll _ w => 5 + 4 * (300 - w.loops)
  | .sample _ w => 6 + 4 * (300 - w.loops)
  | .calibrate _ => 1207
  | .handler _ _ _ => 1208
  | .main => 1209
  | .restart => 1210

theorem Phase.stepsLeft_lt (p : Phase) : p.stepsLeft < reportLatency := by
  have hlatency : reportLatency = 1211 := rfl
  cases p <;> simp only [stepsLeft, hlatency] <;> omega

theorem dispatchPhase_stepsLeft (src : Source) (msg : Option Message) :
    (dispatchPhase src msg).stepsLeft < 1209 := by
  rcases dispatchPhase_cases src msg with h | ⟨cid, cmd, h⟩
  · simp [h, Phase.stepsLeft]
  · simp [h, Phase.stepsLeft]

theorem stepsLeft_run {val : ℕ} (hphase : c.phase ≠ .setReport)
    (hfrom : c.phase.fromReport = false) (hstep : c.step (.run val) = some d) :
    d.phase.stepsLeft < c.phase.stepsLeft := by
  cases hplace : c.phase with
  | setReport => exact absurd hplace hphase
  | main =>
      simp only [System.step, hplace] at hstep
      split_ifs at hstep with hempty
      · cases hstep
        simp [Phase.stepsLeft]
      · cases hstep
        exact dispatchPhase_stepsLeft .ring _
  | release src =>
      rw [hplace] at hfrom
      cases src with
      | ring =>
          simp only [System.step, hplace] at hstep
          cases hstep
          simp [Phase.stepsLeft]
      | report => simp [Phase.fromReport] at hfrom
  | poll src w =>
      simp only [System.step, hplace] at hstep
      cases hoob : oobCommand c.ring c.hid with
      | none =>
          rw [hoob] at hstep
          cases hstep
          simp [Phase.stepsLeft]
      | some x =>
          rw [hoob] at hstep
          cases hstep
          simp [Phase.stepsLeft]
  | sample src w =>
      simp only [System.step, hplace] at hstep
      split_ifs at hstep <;> cases hstep <;> simp [Phase.stepsLeft]
      omega
  | check src w =>
      simp only [System.step, hplace] at hstep
      split_ifs at hstep with hcancel hlate
      · cases hstep
        simp only [Phase.stepsLeft]
        omega
      · cases hstep
        simp only [Phase.stepsLeft]
        omega
      · cases hstep
        simp only [Phase.stepsLeft]
        omega
  | restart | handler src cid cmd | calibrate src | consume src w | returned src status =>
      simp only [System.step, hplace] at hstep
      cases hstep
      simp [Phase.stepsLeft]

theorem stepsLeft_wait (hstep : c.step .wait = some d) :
    d.phase.stepsLeft < c.phase.stepsLeft := by
  cases hplace : c.phase with
  | handler src cid cmd =>
      simp only [System.step, hplace] at hstep
      split_ifs at hstep
      cases hstep
      simp [Phase.stepsLeft]
  | _ => simp [System.step, hplace] at hstep

/-- A step of the program passes the waiting report on or comes nearer to it. -/
theorem System.Mailed.passes (h : c.Mailed a d) (hset : c.hidSetReportFlag = true)
    (hfrom : c.phase.fromReport = false) :
    c.passedBy a ≠ none ∨ (d.hidSetReportFlag = true ∧ d.phase.fromReport = false) := by
  cases h with
  | kept hpassed hflag hbuffer hsame =>
      rw [hflag, hsame]
      exact .inr ⟨hset, hfrom⟩
  | passed hpassed => exact .inl (by simp [hpassed])
  | cleared hpassed hbefore =>
      rw [hfrom] at hbefore
      exact absurd hbefore Bool.false_ne_true

theorem passed_of_stepsLeft {actions : List Action} (hset : c.hidSetReportFlag = true)
    (hfrom : c.phase.fromReport = false) (hrun : Run System.step c actions d)
    (hlong : c.phase.stepsLeft < (actions.filter Action.ofProgram).length) :
    c.passed actions ≠ [] := by
  induction actions generalizing c with
  | nil => simp at hlong
  | cons a rest ih =>
      rcases Run.cons_iff.1 hrun with ⟨e, hstep, hrest⟩
      rw [System.passed_cons hstep]
      cases a with
      | enqueue r =>
          simp only [System.step] at hstep
          split_ifs at hstep
          cases hstep
          have hnext := ih (c := { c with ring := c.ring.enqueue r }) hset hfrom hrest
            (by simpa [Action.ofProgram] using hlong)
          simpa [System.passedBy] using hnext
      | arriveReport r =>
          cases hstep
          have hnext := ih (c := { c with hidReportBuffer := r, hidSetReportFlag := true })
            rfl hfrom hrest (by simpa [Action.ofProgram] using hlong)
          simpa [System.passedBy] using hnext
      | run val =>
          rcases (System.mailed_run hstep).passes hset hfrom with hnow | ⟨hset', hfrom'⟩
          · rcases Option.ne_none_iff_exists'.1 hnow with ⟨r, hr⟩
            simp [hr]
          · by_cases hphase : c.phase = .setReport
            · simp [System.passedBy, hphase, hset]
            · have hless := stepsLeft_run hphase hfrom hstep
              have hnext := ih hset' hfrom' hrest (by
                simp only [List.filter_cons, Action.ofProgram, if_true, List.length_cons] at hlong
                omega)
              simp [hnext]
      | wait =>
          rcases (System.mailed_wait hstep).passes hset hfrom with hnow | ⟨hset', hfrom'⟩
          · exact absurd rfl hnow
          · have hless := stepsLeft_wait hstep
            have hnext := ih hset' hfrom' hrest (by
              simp only [List.filter_cons, Action.ofProgram, if_true, List.length_cons] at hlong
              omega)
            simp [hnext]

/-! ## The buffer over a run -/

theorem System.passed_append {before after : List Action} (hrun : Run System.step c before d) :
    c.passed (before ++ after) = c.passed before ++ d.passed after := by
  induction before generalizing c with
  | nil =>
      rw [Run.nil_iff] at hrun
      subst hrun
      rfl
  | cons a rest ih =>
      rcases Run.cons_iff.1 hrun with ⟨e, hstep, hrest⟩
      rw [List.cons_append, passed_cons hstep, passed_cons hstep, ih hrest, List.append_assoc]

theorem acknowledged_append (before after : List Action) :
    acknowledged (before ++ after) = acknowledged before ++ acknowledged after :=
  List.filterMap_append

theorem mailbox_of_guarded {actions : List Action}
    (hrun : Run System.step System.powerUp actions d)
    (hfree : Run.Guarded System.step MailboxFree System.powerUp actions) :
    Mailbox (acknowledged actions) (System.powerUp.passed actions) d := by
  rcases mailbox_run mailbox_powerUp hrun with ⟨-, hkept⟩ | ⟨hlate, -⟩
  · exact hkept
  · exact absurd hfree hlate

theorem passed_soon {before after : List Action}
    (hrun : Run System.step System.powerUp (before ++ after) d)
    (hfree : Run.Guarded System.step MailboxFree System.powerUp (before ++ after))
    (hlong : reportLatency ≤ (after.filter Action.ofProgram).length) :
    acknowledged before <+: System.powerUp.passed (before ++ after) := by
  have hall := (mailbox_of_guarded hrun hfree).account
  rcases Run.append_iff.1 hrun with ⟨c, hbefore, hafter⟩
  have hthen := (mailbox_of_guarded hbefore hfree.left).account
  rw [acknowledged_append, System.passed_append hbefore, hthen] at hall
  rw [System.passed_append hbefore, hthen]
  by_cases hwaits : c.hidSetReportFlag = true ∧ c.phase.fromReport = false
  · -- what is passed next is the report which was waiting
    have hsome := passed_of_stepsLeft hwaits.1 hwaits.2 hafter
      ((Phase.stepsLeft_lt _).trans_le hlong)
    have hwaiting : c.waiting = [c.hidReportBuffer] := if_pos hwaits
    rcases List.exists_cons_of_ne_nil hsome with ⟨r, rest, hnext⟩
    rw [hnext, hwaiting] at hall
    rw [hnext, hwaiting]
    simp only [List.append_assoc, List.cons_append, List.nil_append,
      List.append_cancel_left_eq, List.cons.injEq] at hall
    rw [hall.1]
    exact ⟨rest, by simp⟩
  · have hwaiting : c.waiting = [] := if_neg hwaits
    rw [hwaiting, List.append_nil]
    exact List.prefix_append _ _

/-- The reports of a run from power-up are all passed on exactly when each arrives
while the flag is clear. -/
theorem reportsKept_iff {actions : List Action} {c : System}
    (hrun : Run System.step System.powerUp actions c) :
    ReportsKept actions c ↔ Run.Guarded System.step MailboxFree System.powerUp actions := by
  constructor
  · intro h
    rcases mailbox_run mailbox_powerUp hrun with ⟨hfree, -⟩ | ⟨-, hshort⟩
    · exact hfree
    · have hless := hshort.short
      have haccount := congrArg List.length h.account
      rw [List.length_append] at haccount
      simp only [List.nil_append] at hless
      omega
  · intro hfree
    refine ⟨(mailbox_of_guarded hrun hfree).account, ?_⟩
    rintro before after rfl hlong
    exact passed_soon hrun hfree hlong

/-- The first of two reports which carry 100 bytes. -/
def firstReport : Report where
  bytes := [1, 2, 3, 4, 0x90, 0, 100] ++ List.replicate 57 0x01
  fits := by decide

def secondReport : Report where
  bytes := [1, 2, 3, 4, 0x00] ++ List.replicate 59 0x01
  fits := by decide

/-- The second report comes once the first has been processed. -/
def reportsApart : List Action :=
  [.arriveReport firstReport, .run 0, .run 0, .run 0, .arriveReport secondReport,
    .run 0, .run 0, .run 0]

theorem reportsKept_apart : ∃ c, Run System.step System.powerUp reportsApart c ∧
    ReportsKept reportsApart c := by
  have hfinal : (exec System.step System.powerUp reportsApart).isSome = true := rfl
  rcases Option.isSome_iff_exists.1 hfinal with ⟨c, hc⟩
  rw [Run.exec_iff] at hc
  have hfree : Run.Guarded System.step MailboxFree System.powerUp reportsApart :=
    Run.guarded_of_check rfl
  exact ⟨c, hc, (reportsKept_iff hc).2 hfree⟩

/-- The second report comes before the flag of the first is cleared. -/
def reportsTogether : List Action :=
  [.arriveReport firstReport, .run 0, .run 0, .arriveReport secondReport, .run 0]

theorem reportsTogether_runs : ∃ c, Run System.step System.powerUp reportsTogether c ∧
    c.hidSetReportFlag = false := by
  have hfinal : (exec System.step System.powerUp reportsTogether).map
      System.hidSetReportFlag = some false := rfl
  rcases Option.map_eq_some_iff.1 hfinal with ⟨c, hc, hflag⟩
  exact ⟨c, Run.exec_iff.1 hc, hflag⟩

theorem reportsKept_together : ¬ ∀ actions c, Run System.step System.powerUp actions c →
    ReportsKept actions c := by
  intro h
  rcases reportsTogether_runs with ⟨c, hrun, hflag⟩
  have haccount := congrArg List.length (h _ c hrun).account
  have hwaiting : c.waiting = [] := if_neg (by simp [hflag])
  have hpassed : (System.powerUp.passed reportsTogether).length = 1 := rfl
  have hacknowledged : (acknowledged reportsTogether).length = 2 := rfl
  rw [hwaiting, List.append_nil, hpassed, hacknowledged] at haccount
  omega

end UnsoloKey
