import UnsoloKey.SlotChanges
import UnsoloKey.UserVerification
import Mathlib.Tactic

/-!
# Touches and what they stand behind

A command waits for a touch at most once.  Whatever claims the presence of the
user (an assertion or attestation with the UP bit, a stored credential, a reset)
happens in a command whose own wait has ended with a touch; along a run there are
therefore never more of them than confirmed waits.
-/

namespace UnsoloKey

open Rd Trace

/-- The calls of `fido2_wait_for_user_presence` during the command. -/
def Device.touches (d : Device) (c : Command) : List Presence :=
  if c.reqLen = 0 then []
  else if c.req 0 = 0x01 then
    match (mcDecision (d.onChannel c.cid) c.reqLen).run c.req with
    | some (.ok _) => [c.env.presence]
    | _ => []
  else if c.req 0 = 0x02 then
    match (gaDecision (d.onChannel c.cid) c.reqLen).run c.req with
    | some (_, .assert plan) => if plan.upRequired then [c.env.presence] else []
    | _ => []
  else if c.req 0 = 0x08 then
    if d.ctap.gGaCount = 0 ∨ d.ctap.gGaIdx + 1 ≥ d.ctap.gGaCount then []
    else
      match passkeyGetByRpIndex d.flash.mem d.ctap.gGaRpHash (d.ctap.gGaIdx + 1) with
      | some _ => [c.env.presence]
      | none => []
  else if c.req 0 = 0x07 then
    if c.env.sysTick > resetWindow then [] else [c.env.presence]
  else []

/-- The authenticator data of the response says that the user is present. -/
def saysUp (resp : List UInt8) : Bool :=
  (responseAuthData resp).any fun authData => authDataFlags authData &&& 0x01 ≠ 0

/-- A response of MakeCredential, GetAssertion or GetNextAssertion with the UP bit,
a flash step of MakeCredential, or one of authenticatorReset. -/
def Outcome.userPresent (o : Outcome) (c : Command) : Bool :=
  c.reqLen ≠ 0 ∧
    ((c.req 0 = 0x01 ∨ c.req 0 = 0x02 ∨ c.req 0 = 0x08) ∧ saysUp o.resp ∨
      (c.req 0 = 0x01 ∨ c.req 0 = 0x07) ∧ ¬ o.ops.isEmpty)

theorem saysUp_error {status : UInt8} (h : status ≠ 0x00) : saysUp [status] = false := by
  simp [saysUp, responseAuthData, responseEntry, h]

/-- The response holds this authenticator data and a signature over it. -/
structure SignedResponse (env : Env) (resp authData : List UInt8) : Prop where
  found : responseAuthData resp = some authData
  signed : ∃ key cdh, responseSignature resp =
    some (ecdsaSigToDer (signature env key authData cdh))

/-! ## One command -/

section

variable {d : Device} {c : Command} {o : Outcome}

def Env.withPresence (env : Env) (p : Presence) : Env := { env with presence := p }

theorem makeCredential_presence {reqLen : ℕ} {m : Mem} (env : Env) (p : Presence)
    (h : ∀ go, (mcDecision d reqLen).run m ≠ some (.ok go)) :
    (makeCredential (env.withPresence p) d reqLen).run m =
      (makeCredential env d reqLen).run m := by
  rw [makeCredential_run, makeCredential_run, run_bind, run_bind]
  cases hdecision : (mcDecision d reqLen).run m with
  | none => rfl
  | some decision =>
      cases decision with
      | error status => rfl
      | ok go => exact absurd hdecision (h go)

theorem getAssertion_presence {reqLen : ℕ} {m : Mem} (env : Env) (p : Presence)
    (h : ∀ ctap plan, (gaDecision d reqLen).run m = some (ctap, .assert plan) →
      plan.upRequired = false) :
    (getAssertion (env.withPresence p) d reqLen).run m =
      (getAssertion env d reqLen).run m := by
  rw [getAssertion_run, getAssertion_run, run_bind, run_bind]
  cases hdecision : (gaDecision d reqLen).run m with
  | none => rfl
  | some r =>
      rcases r with ⟨ctap, decision⟩
      cases decision with
      | refuse verified status => rfl
      | assert plan =>
          have hup := h ctap plan hdecision
          simp only [Option.bind_some, gaFinish, AssertionPlan.finish, hup]
          rfl

theorem getNextAssertion_presence (env : Env) (p : Presence)
    (h : d.ctap.gGaIdx + 1 < d.ctap.gGaCount →
      passkeyGetByRpIndex d.flash.mem d.ctap.gGaRpHash (d.ctap.gGaIdx + 1) = none) :
    getNextAssertion (env.withPresence p) d = getNextAssertion env d := by
  unfold getNextAssertion
  by_cases hdone : d.ctap.gGaCount = 0 ∨ d.ctap.gGaIdx + 1 ≥ d.ctap.gGaCount
  · rw [if_pos hdone, if_pos hdone]
  · rw [if_neg hdone, if_neg hdone]
    simp only [h (by omega)]

theorem authenticatorReset_presence (env : Env) (p : Presence)
    (h : env.sysTick > resetWindow) :
    authenticatorReset (env.withPresence p) d = authenticatorReset env d := by
  have h' : (env.withPresence p).sysTick > resetWindow := h
  unfold authenticatorReset
  rw [if_pos h, if_pos h']

theorem processCommand_presence {env : Env} {p : Presence} {reqLen : ℕ} {cmd : UInt8}
    {m : Mem}
    (hmake : cmd = 0x01 → (makeCredential (env.withPresence p) d reqLen).run m =
      (makeCredential env d reqLen).run m)
    (hget : cmd = 0x02 → (getAssertion (env.withPresence p) d reqLen).run m =
      (getAssertion env d reqLen).run m)
    (hnext : cmd = 0x08 → getNextAssertion (env.withPresence p) d =
      getNextAssertion env d)
    (hreset : cmd = 0x07 → authenticatorReset (env.withPresence p) d =
      authenticatorReset env d) :
    (processCommand (env.withPresence p) d reqLen cmd).run m =
      (processCommand env d reqLen cmd).run m := by
  unfold processCommand
  simp only [run_ite]
  split_ifs with h4 h1 h2 h8 h6 hA h7 h55
  · rfl
  · exact hmake h1
  · exact hget h2
  · rw [hnext h8]
  · rfl
  · rfl
  · rw [hreset h7]
  · rfl
  · rfl

/-- Without a wait the result of the wait does not matter. -/
theorem outcome_of_no_touch (h : d.touches c = []) (p : Presence) :
    d.outcome { c with env := c.env.withPresence p } = d.outcome c := by
  by_cases hlen : c.reqLen = 0
  · simp [Device.outcome, fido2ProcessCbor, hlen]
  have houtcome : ∀ env, d.outcome { c with env := env } =
      (processCommand env (d.onChannel c.cid) c.reqLen (c.req 0)).run c.req :=
    fun env => outcome_eq (c := { c with env := env }) hlen
  rw [houtcome, outcome_eq hlen]
  unfold Device.touches at h
  rw [if_neg hlen] at h
  refine processCommand_presence (fun hcmd => ?_) (fun hcmd => ?_) (fun hcmd => ?_)
    (fun hcmd => ?_)
  · refine makeCredential_presence c.env p fun go hgo => ?_
    simp [hcmd, hgo] at h
  · refine getAssertion_presence c.env p fun ctap plan hplan => ?_
    simpa [hcmd, hplan] using h
  · refine getNextAssertion_presence c.env p fun hmore => ?_
    have hmore : d.ctap.gGaIdx + 1 < d.ctap.gGaCount := hmore
    have hgo : ¬ (d.ctap.gGaCount = 0 ∨ d.ctap.gGaIdx + 1 ≥ d.ctap.gGaCount) := by omega
    cases hslot : passkeyGetByRpIndex d.flash.mem d.ctap.gGaRpHash
        (d.ctap.gGaIdx + 1) with
    | none => exact hslot
    | some i =>
        rw [hcmd, if_neg (by decide), if_neg (by decide), if_pos rfl, if_neg hgo,
          hslot] at h
        simp at h
  · refine authenticatorReset_presence c.env p ?_
    rw [hcmd, if_neg (by decide), if_neg (by decide), if_neg (by decide), if_pos rfl] at h
    by_contra hwindow
    rw [if_neg hwindow] at h
    simp at h

theorem touches_make (hlen : c.reqLen ≠ 0) (hcmd : c.req 0 = 0x01)
    {go : Option (ℕ × ℕ) × Option (List UInt8)}
    (h : (mcDecision (d.onChannel c.cid) c.reqLen).run c.req = some (.ok go)) :
    d.touches c = [c.env.presence] := by
  rw [Device.touches, if_neg hlen, if_pos hcmd, h]

theorem touches_get (hlen : c.reqLen ≠ 0) (hcmd : c.req 0 = 0x02) {ctap : CtapSession}
    {plan : AssertionPlan}
    (h : (gaDecision (d.onChannel c.cid) c.reqLen).run c.req =
      some (ctap, .assert plan)) :
    d.touches c = if plan.upRequired then [c.env.presence] else [] := by
  rw [Device.touches, if_neg hlen, if_neg (by rw [hcmd]; decide), if_pos hcmd, h]

theorem makeCredential_touched (hlen : c.reqLen ≠ 0) (hcmd : c.req 0 = 0x01)
    (h : MakeCredentialEffect c.env (d.onChannel c.cid) c.reqLen c.req o)
    (hpresent : saysUp o.resp ∨ o.ops ≠ []) : d.touches c = [.confirmed] := by
  cases h with
  | refused status hstatus _ ho =>
      subst ho
      simp [Device.reply, saysUp_error hstatus] at hpresent
  | untouched cdh verified _ hpresence ho =>
      subst ho
      have hstatus := mt (presence_status_eq_zero_iff c.env.presence).1 hpresence
      simp [Device.replyUnder, saysUp_error hstatus] at hpresent
  | registered cdh verified hdecision hpresence _ =>
      rw [touches_make hlen hcmd hdecision, hpresence]

theorem getAssertion_signed (hlen : c.reqLen ≠ 0) (hcmd : c.req 0 = 0x02)
    (h : GetAssertionEffect c.env (d.onChannel c.cid) c.reqLen c.req o) :
    (∃ status, status ≠ 0x00 ∧ o.resp = [status]) ∨
      d.touches c = [.confirmed] ∨
      d.touches c = [] ∧ ∃ authData, SignedResponse c.env o.resp authData ∧
        authDataFlags authData &&& 0x01 = 0 := by
  cases h with
  | refused status hstatus hresp _ => exact .inl ⟨status, hstatus, hresp⟩
  | asserted ctap plan cdhBuf hdecision hselect htouch _ hresp _ _ =>
      right
      cases hup : plan.upRequired with
      | true =>
          left
          rw [touches_get hlen hcmd hdecision, hup, if_pos rfl, htouch hup]
      | false =>
          right
          have htotal := hselect.total_lt
          have hlength := authDataHeader_length plan.rpIdHash
            (gaFlags plan.upRequired plan.verified.isSome)
          refine ⟨by rw [touches_get hlen hcmd hdecision, hup]; rfl,
            authDataHeader plan.rpIdHash (gaFlags plan.upRequired plan.verified.isSome),
            ⟨?_, (d.flash.mem.slotKey plan.slot).privateKey, cdhBuf.val, ?_⟩, ?_⟩
          · rw [hresp]
            exact responseAuthData_ga hlength htotal
          · rw [hresp]
            exact responseSignature_ga hlength htotal
          · have hflags := authDataFlags_header plan.rpIdHash
              (gaFlags plan.upRequired plan.verified.isSome) []
            rw [List.append_nil] at hflags
            rw [hflags, hup]
            cases plan.verified.isSome <;> decide

theorem getNextAssertion_touched (hlen : c.reqLen ≠ 0) (hcmd : c.req 0 = 0x08)
    (ho : o = getNextAssertion c.env (d.onChannel c.cid)) (hup : saysUp o.resp) :
    d.touches c = [.confirmed] := by
  subst ho
  cases getNextAssertion_effect (d := d.onChannel c.cid) with
  | refused status hstatus hresp _ =>
      rw [hresp, saysUp_error hstatus] at hup
      cases hup
  | asserted i hmore hslot hpresence _ _ _ =>
      have hmore : d.ctap.gGaIdx + 1 < d.ctap.gGaCount := hmore
      have hslot : passkeyGetByRpIndex d.flash.mem d.ctap.gGaRpHash
        (d.ctap.gGaIdx + 1) = some i := hslot
      rw [Device.touches, if_neg hlen, hcmd, if_neg (by decide), if_neg (by decide),
        if_pos rfl, if_neg (by omega), hslot, hpresence]

theorem authenticatorReset_touched (hlen : c.reqLen ≠ 0) (hcmd : c.req 0 = 0x07)
    (ho : o = authenticatorReset c.env (d.onChannel c.cid)) (hops : o.ops ≠ []) :
    d.touches c = [.confirmed] := by
  subst ho
  unfold authenticatorReset at hops
  split at hops
  · exact absurd rfl hops
  · rename_i hwindow
    dsimp only at hops
    split at hops
    · exact absurd rfl hops
    · rename_i hpresence
      rw [not_not, presence_status_eq_zero_iff] at hpresence
      rw [Device.touches, if_neg hlen, hcmd, if_neg (by decide), if_neg (by decide),
        if_neg (by decide), if_pos rfl, if_neg hwindow, hpresence]

theorem userPresent_touched (ho : d.outcome c = some o)
    (h : o.userPresent c = true) : d.touches c = [.confirmed] := by
  simp only [Outcome.userPresent, decide_eq_true_eq, List.isEmpty_iff] at h
  obtain ⟨hlen, h⟩ := h
  rw [outcome_eq hlen] at ho
  have hmake : c.req 0 = 0x01 → saysUp o.resp ∨ o.ops ≠ [] →
      d.touches c = [.confirmed] := by
    intro hcmd hpresent
    rw [hcmd] at ho
    exact makeCredential_touched hlen hcmd (makeCredential_effect o ho) hpresent
  rcases h with ⟨hcmd | hcmd | hcmd, hup⟩ | ⟨hcmd | hcmd, hops⟩
  · exact hmake hcmd (.inl hup)
  · rw [hcmd] at ho
    rcases getAssertion_signed hlen hcmd (getAssertion_effect o ho) with
      ⟨status, hstatus, hresp⟩ | htouched | ⟨-, authData, hsigned, hflags⟩
    · rw [hresp, saysUp_error hstatus] at hup
      cases hup
    · exact htouched
    · simp [saysUp, hsigned.found, hflags] at hup
  · rw [hcmd] at ho
    exact getNextAssertion_touched hlen hcmd (Option.some.inj ho).symm hup
  · exact hmake hcmd (.inr hops)
  · rw [hcmd] at ho
    exact authenticatorReset_touched hlen hcmd (Option.some.inj ho).symm hops

theorem getAssertion_untouched (hlen : c.reqLen ≠ 0) (hcmd : c.req 0 = 0x02)
    (ho : d.outcome c = some o) (hok : o.status = some 0x00)
    (hnone : d.touches c = []) :
    ∃ authData, SignedResponse c.env o.resp authData ∧
      authDataFlags authData &&& 0x01 = 0 := by
  rw [outcome_eq hlen, hcmd] at ho
  rcases getAssertion_signed hlen hcmd (getAssertion_effect o ho) with
    ⟨status, hstatus, hresp⟩ | htouched | ⟨-, hsigned⟩
  · simp [Outcome.status, hresp, hstatus] at hok
  · rw [hnone] at htouched
    cases htouched
  · exact hsigned

end

/-! ## Runs -/

/-- How many commands of the run claim the presence of the user. -/
def presentEffects (d : Device) : List Command → ℕ
  | [] => 0
  | c :: rest =>
      match d.outcome c with
      | none => 0
      | some o => (o.userPresent c).toNat + presentEffects (d.after o) rest

/-- How many waits of the run have ended with a touch. -/
def confirmedTouches (d : Device) : List Command → ℕ
  | [] => 0
  | c :: rest =>
      match d.outcome c with
      | none => 0
      | some o => (d.touches c).count .confirmed + confirmedTouches (d.after o) rest

theorem presentEffects_le (d : Device) (commands : List Command) :
    presentEffects d commands ≤ confirmedTouches d commands := by
  induction commands generalizing d with
  | nil => exact le_rfl
  | cons c rest ih =>
      simp only [presentEffects, confirmedTouches]
      cases ho : d.outcome c with
      | none => exact le_rfl
      | some o =>
          have htail := ih (d.after o)
          have hhead : (o.userPresent c).toNat ≤ (d.touches c).count .confirmed := by
            cases hpresent : o.userPresent c with
            | false => exact Nat.zero_le _
            | true => simp [userPresent_touched ho hpresent]
          exact Nat.add_le_add hhead htail

/-- Whatever claims the presence of the user stands behind a touch in the same
command; no wait serves two commands; and an assertion without a touch is signed
with the UP bit clear. -/
theorem userPresence {d d' : Device} {commands : List Command}
    (hrun : Run Device.step d commands d') :
    (∀ before c after, commands = before ++ c :: after → ∃ t o,
      Run Device.step d before t ∧ t.outcome c = some o ∧
      (o.userPresent c = true → t.touches c = [.confirmed]) ∧
      (c.reqLen ≠ 0 → c.req 0 = 0x02 → o.status = some 0x00 → t.touches c = [] →
        ∃ authData, SignedResponse c.env o.resp authData ∧
          authDataFlags authData &&& 0x01 = 0)) ∧
    ∀ before segment after t, commands = before ++ (segment ++ after) →
      Run Device.step d before t →
      presentEffects t segment ≤ confirmedTouches t segment := by
  refine ⟨?_, fun _ segment _ t _ _ => presentEffects_le t segment⟩
  rintro before c after rfl
  obtain ⟨t, hbefore, hrest⟩ := Run.append_iff.1 hrun
  obtain ⟨u, hstep, -⟩ := Run.cons_iff.1 hrest
  obtain ⟨o, ho, -⟩ := step_iff.1 hstep
  exact ⟨t, o, hbefore, ho, userPresent_touched ho,
    fun hlen hcmd hok hnone => getAssertion_untouched hlen hcmd ho hok hnone⟩

theorem userPresence_register : ∃ o,
    (Device.powerUp (fun _ => 0xFF)).outcome registerCommand = some o ∧
      o.userPresent registerCommand = true ∧
      (Device.powerUp (fun _ => 0xFF)).touches registerCommand = [.confirmed] := by
  have hruns : ((Device.powerUp (fun _ => 0xFF)).outcome registerCommand).any
      (fun o => o.userPresent registerCommand) = true := by decide +kernel
  obtain ⟨o, ho, hpresent⟩ := (Option.any_eq_true _ _).1 hruns
  have hrun : Run Device.step (Device.powerUp (fun _ => 0xFF)) [registerCommand]
      ((Device.powerUp (fun _ => 0xFF)).after o) := .single (step_iff.2 ⟨o, ho, rfl⟩)
  obtain ⟨t, o', ht, ho', htouched, -⟩ := (userPresence hrun).1 [] registerCommand [] rfl
  obtain rfl := Run.nil_iff.1 ht
  rw [ho, Option.some.injEq] at ho'
  subst ho'
  exact ⟨o, ho, hpresent, htouched hpresent⟩

end UnsoloKey
