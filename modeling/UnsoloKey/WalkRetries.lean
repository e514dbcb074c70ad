import UnsoloKey.WalkOrigin
import Mathlib.Tactic

/-!
# Failing in the middle of a walk

GetNextAssertion moves the cursor on before it looks the credential up and waits for
the touch.  A call which fails after that has used its credential up.  Where no call
fails before the end of the list, the successful assertions are its first entries.
-/

namespace UnsoloKey

open Rd Trace

def Command.IsNext (c : Command) : Prop := c.reqLen ≠ 0 ∧ c.req 0 = 0x08

/-- If the command fails, it leaves the walk as it was. -/
def Device.FailureKeepsWalk (d : Device) (c : Command) : Prop :=
  ∀ o, d.outcome c = some o → o.status ≠ some 0x00 →
    o.ctap.walkState = d.ctap.walkState

/-- The walk is over, or its next credential is still stored and gets its touch. -/
def Device.NextGranted (d : Device) (c : Command) : Prop :=
  ¬ d.ctap.MoreToWalk ∨
    (passkeyGetByRpIndex d.flash.mem d.ctap.gGaRpHash (d.ctap.gGaIdx + 1)).isSome ∧
      c.env.presence = .confirmed

instance (d : Device) (c : Command) : Decidable (d.NextGranted c) :=
  inferInstanceAs (Decidable (_ ∨ _))

section

variable {m : Mem} {rpIdHash cdh : Bytes 32} {d : Device} {k : ℕ} {c : Command}
  {env : Env}

/-! ## One call -/

theorem outcome_isNext (h : c.IsNext) :
    d.outcome c = some (getNextAssertion c.env (d.onChannel c.cid)) := by
  rw [outcome_eq h.1, h.2]
  rfl

/-- A call with a position to go to goes there, whatever comes of it. -/
theorem getNextAssertion_moves (hmore : d.ctap.MoreToWalk) :
    (getNextAssertion env d).ctap.walkState =
      (d.ctap.gGaRpHash, d.ctap.gGaCount, d.ctap.gGaIdx + 1, d.ctap.gGaCdh) := by
  have hnot : ¬ (d.ctap.gGaCount = 0 ∨ d.ctap.gGaIdx + 1 ≥ d.ctap.gGaCount) := by
    rw [CtapSession.MoreToWalk] at hmore
    omega
  unfold getNextAssertion
  rw [if_neg hnot]
  dsimp only
  split
  · rfl
  · split <;> rfl

theorem getNextAssertion_status (hmore : d.ctap.MoreToWalk) :
    (getNextAssertion env d).status = some 0x00 ↔
      (passkeyGetByRpIndex d.flash.mem d.ctap.gGaRpHash (d.ctap.gGaIdx + 1)).isSome ∧
        env.presence = .confirmed := by
  constructor
  · intro hok
    have heffect : GetNextAssertionEffect env d _ := getNextAssertion_effect
    cases heffect with
    | refused status hstatus hresp =>
        rw [Outcome.status, hresp] at hok
        exact absurd (Option.some.inj hok) hstatus
    | asserted i _ hslot hpresence =>
        rw [hslot]
        exact ⟨rfl, hpresence⟩
  · rintro ⟨hsome, hpresence⟩
    obtain ⟨i, hslot⟩ := Option.isSome_iff_exists.1 hsome
    rw [getNextAssertion_more hmore hslot hpresence]
    rfl

/-- The calls whose failure would leave the walk alone are those which cannot fail, and
those at its end. -/
theorem failureKeepsWalk_iff (hc : c.IsNext) :
    d.FailureKeepsWalk c ↔ d.NextGranted c := by
  have hout : d.outcome c = some (getNextAssertion c.env (d.onChannel c.cid)) :=
    outcome_isNext hc
  constructor
  · intro hkeeps
    by_contra hnot
    rw [Device.NextGranted, not_or, not_not] at hnot
    have hmore : (d.onChannel c.cid).ctap.MoreToWalk := hnot.1
    have hfails : (getNextAssertion c.env (d.onChannel c.cid)).status ≠ some 0x00 :=
      mt (getNextAssertion_status hmore).1 hnot.2
    have hkept := hkeeps _ hout hfails
    rw [getNextAssertion_moves hmore] at hkept
    have hidx : d.ctap.gGaIdx + 1 = d.ctap.gGaIdx := congrArg (fun w => w.2.2.1) hkept
    omega
  · intro hgranted o ho hfails
    rw [hout, Option.some.injEq] at ho
    subst ho
    cases hgranted with
    | inl hover =>
        rw [CtapSession.MoreToWalk, Nat.not_lt] at hover
        rw [getNextAssertion_done (d := d.onChannel c.cid) hover]
        rfl
    | inr hnext =>
        by_cases hmore : d.ctap.MoreToWalk
        · exact absurd ((getNextAssertion_status (d := d.onChannel c.cid) hmore).2 hnext)
            hfails
        · rw [CtapSession.MoreToWalk, Nat.not_lt] at hmore
          rw [getNextAssertion_done (d := d.onChannel c.cid) hmore]
          rfl

/-! ## A walk -/

/-- The responses which are assertions. -/
def successes (rs : List (List UInt8)) : List (List UInt8) :=
  rs.filter fun r => r.head? = some 0x00

theorem Walking.over (h : Walking m rpIdHash cdh d k) (hc : c.IsNext)
    (hend : (slotsOfRp m rpIdHash).length ≤ k + 1) :
    ∃ o, d.outcome c = some o ∧ o.resp = [0x2E] ∧ Walking m rpIdHash cdh (d.after o) k := by
  have hw := h.onChannel c.cid
  refine ⟨_, outcome_isNext hc, ?_⟩
  rw [getNextAssertion_done (by rw [hw.idx, hw.count]; exact hend)]
  exact ⟨rfl, hw.flash, hw.hash, hw.count, hw.idx, hw.cdh⟩

theorem Walking.moreToWalk (h : Walking m rpIdHash cdh d k) :
    d.ctap.MoreToWalk ↔ k + 1 < (slotsOfRp m rpIdHash).length := by
  rw [CtapSession.MoreToWalk, h.idx, h.count]

/-- Without a failure before the end, the assertions follow the list. -/
theorem Walking.assertions (h : Walking m rpIdHash cdh d k) {nexts : List Command}
    (hnexts : ∀ c ∈ nexts, c.IsNext)
    (hgranted : Run.Guarded Device.step Device.NextGranted d nexts) :
    ∃ rs, d.responses nexts = some rs ∧
      List.Forall₂ (fun i r => ∃ c ∈ nexts, r = gaBuildResponse c.env m i
        (authDataHeader rpIdHash 0x01) cdh (slotsOfRp m rpIdHash).length)
        (((slotsOfRp m rpIdHash).drop (k + 1)).take nexts.length) (successes rs) := by
  induction nexts generalizing d k with
  | nil => exact ⟨[], rfl, .nil⟩
  | cons c rest ih =>
      have hc := hnexts c List.mem_cons_self
      have hrest : ∀ c ∈ rest, c.IsNext := fun c hc => hnexts c (List.mem_cons_of_mem _ hc)
      obtain ⟨hhead, htail⟩ := Run.guarded_cons.1 hgranted
      by_cases hmore : k + 1 < (slotsOfRp m rpIdHash).length
      · have hpresence : c.env.presence = .confirmed :=
          (hhead.resolve_left (not_not.2 (h.moreToWalk.2 hmore))).2
        obtain ⟨o, ho, hresp, hwalk⟩ := h.next ⟨hc.1, hc.2, hpresence⟩
          (List.getElem?_eq_getElem hmore)
        obtain ⟨rs, hrs, hall⟩ := ih hwalk hrest
          (htail _ (by rw [Device.step, ho]; rfl))
        refine ⟨o.resp :: rs, ?_, ?_⟩
        · rw [Device.responses, ho, Option.bind_some, hrs]
          rfl
        · have hok : successes (o.resp :: rs) = o.resp :: successes rs := by
            rw [hresp]
            rfl
          rw [hok, List.drop_eq_getElem_cons hmore, List.length_cons, List.take_succ_cons]
          refine .cons ⟨c, List.mem_cons_self, hresp⟩ (hall.imp ?_)
          rintro i r ⟨c', hc', hr⟩
          exact ⟨c', List.mem_cons_of_mem _ hc', hr⟩
      · have hend : (slotsOfRp m rpIdHash).length ≤ k + 1 := Nat.le_of_not_lt hmore
        obtain ⟨o, ho, hresp, hwalk⟩ := h.over hc hend
        obtain ⟨rs, hrs, hall⟩ := ih hwalk hrest
          (htail _ (by rw [Device.step, ho]; rfl))
        refine ⟨o.resp :: rs, ?_, ?_⟩
        · rw [Device.responses, ho, Option.bind_some, hrs]
          rfl
        · have hnone : (slotsOfRp m rpIdHash).drop (k + 1) = [] :=
            List.drop_eq_nil_of_le hend
          rw [hnone, List.take_nil] at hall ⊢
          have hfail : successes (o.resp :: rs) = successes rs := by
            rw [hresp]
            rfl
          rw [hfail, List.forall₂_nil_left_iff.1 hall]
          exact .nil

end

/-- The assertions of a walk are the first `n` credentials of the relying party, or all
of them if there are not so many. -/
def WalkLists (m : Mem) (rpIdHash : Bytes 32) (n : ℕ) (rs : List (List UInt8)) : Prop :=
  rs.map responseCredentialId = ((idsOfRp m rpIdHash).take n).map some

/-- A GetNextAssertion keeps the walk on failure exactly where it cannot fail or the
walk is over.  A walk whose calls are all of that kind lists the credentials from the
first on, without a gap, and with enough calls all of them. -/
theorem failed_next_keeps_walk (d : Device) (c : Command) :
    (c.IsNext → (d.FailureKeepsWalk c ↔ d.NextGranted c)) ∧
    ∀ (o : Outcome) (rpIdHash : Bytes 32) (nexts : List Command),
      c.BareAssertion rpIdHash → d.outcome c = some o →
      o.status = some 0x00 → (∀ c ∈ nexts, c.IsNext) →
      Run.Guarded Device.step Device.NextGranted (d.after o) nexts →
      ∃ rs, (d.after o).responses nexts = some rs ∧
        WalkLists d.flash.mem rpIdHash (nexts.length + 1) (o.resp :: successes rs) ∧
        ((idsOfRp d.flash.mem rpIdHash).length ≤ nexts.length + 1 →
          (o.resp :: successes rs).map responseCredentialId =
            (idsOfRp d.flash.mem rpIdHash).map some) := by
  refine ⟨failureKeepsWalk_iff, ?_⟩
  intro o rpIdHash nexts hc ho hok hnexts hgranted
  obtain ⟨plan, signed, stored, hfirst⟩ := firstAssertion hc ho hok
  obtain ⟨rs, hrs, hall⟩ := hfirst.walking.assertions hnexts hgranted
  have hpos : 0 < (slotsOfRp d.flash.mem rpIdHash).length :=
    (List.getElem?_eq_some_iff.1 hfirst.first).1
  have hslots : slotsOfRp d.flash.mem rpIdHash =
      plan.slot :: (slotsOfRp d.flash.mem rpIdHash).drop 1 := by
    have hslot := hfirst.first
    rw [List.getElem?_eq_getElem hpos, Option.some.injEq] at hslot
    rw [← hslot, ← List.drop_eq_getElem_cons hpos, List.drop_zero]
  have hlists : WalkLists d.flash.mem rpIdHash (nexts.length + 1)
      (o.resp :: successes rs) := by
    have hnext : (successes rs).map responseCredentialId =
        (((slotsOfRp d.flash.mem rpIdHash).drop 1).take nexts.length).map
          fun i => some (d.flash.mem.slotKey i).credentialId.val := by
      refine map_eq_of_forall₂ hall ?_
      rintro i r ⟨c', -, rfl⟩
      exact gaResponse_credentialId (authDataHeader_length _ _) (slotsOfRp_length_lt _ _)
    have hhead : responseCredentialId o.resp =
        some (d.flash.mem.slotKey plan.slot).credentialId.val := by
      rw [hfirst.resp, AssertionPlan.response]
      refine gaResponse_credentialId (authDataHeader_length _ _) ?_
      rw [hfirst.total]
      exact slotsOfRp_length_lt _ _
    rw [WalkLists, idsOfRp, ← List.map_take, List.map_map, hslots, List.take_succ_cons,
      List.map_cons, List.map_cons, hnext, hhead]
    rfl
  refine ⟨rs, hrs, hlists, fun henough => ?_⟩
  rw [WalkLists, List.take_of_length_le henough] at hlists
  exact hlists

theorem failed_next_keeps_walk_two : ∃ o rs,
    (Device.powerUp (interleaved (sha256 [0x61]) (sha256 [0x62]))).outcome signInCommand =
      some o ∧
    ((Device.powerUp (interleaved (sha256 [0x61]) (sha256 [0x62]))).after o).FailureKeepsWalk
      nextCommand ∧
    ((Device.powerUp (interleaved (sha256 [0x61]) (sha256 [0x62]))).after o).responses
      [nextCommand, nextCommand] = some rs ∧
    (o.resp :: successes rs).map responseCredentialId =
      [some storedId.val, some otherId.val] := by
  obtain ⟨hruns, hids⟩ := interleaved_signIn
  obtain ⟨o, ho, hok⟩ := (Option.any_eq_true _ _).1 hruns
  have hstep : (Device.powerUp (interleaved (sha256 [0x61]) (sha256 [0x62]))).step
      signInCommand = some ((Device.powerUp
        (interleaved (sha256 [0x61]) (sha256 [0x62]))).after o) := by
    rw [Device.step, ho]
    rfl
  have hcheck : ((Device.powerUp (interleaved (sha256 [0x61]) (sha256 [0x62]))).step
      signInCommand).any (fun d => check Device.step Device.NextGranted d
        [nextCommand, nextCommand]) = true := by
    decide +kernel
  rw [hstep] at hcheck
  have hguard := Run.guarded_of_check hcheck
  have hnext : nextCommand.IsNext := ⟨by decide, by decide⟩
  obtain ⟨rs, hrs, -, hall⟩ := (failed_next_keeps_walk (Device.powerUp
    (interleaved (sha256 [0x61]) (sha256 [0x62]))) signInCommand).2 o _ [nextCommand, nextCommand]
      signInCommand_bare ho (of_decide_eq_true hok) (by simpa using hnext) hguard
  have hkeeps := ((failed_next_keeps_walk ((Device.powerUp
    (interleaved (sha256 [0x61]) (sha256 [0x62]))).after o) nextCommand).1 hnext).2
      (Run.guarded_cons.1 hguard).1
  refine ⟨o, rs, ho, hkeeps, hrs, (hall ?_).trans ?_⟩
  · change (idsOfRp (interleaved (sha256 [0x61]) (sha256 [0x62])) (sha256 [0x61])).length ≤ 3
    rw [hids]
    decide
  · change (idsOfRp (interleaved (sha256 [0x61]) (sha256 [0x62])) (sha256 [0x61])).map some = _
    rw [hids]
    rfl

/-- GetNextAssertion which nobody touches for. -/
def untouchedNext : Command :=
  { nextCommand with env := { hostEnv with presence := .timedOut } }

/-- A touch timeout after the first of two credentials moves the walk on. -/
theorem untouchedNext_skips :
    ¬ ∀ (mem : Mem) (past : List Command) (d : Device) (c : Command),
      Run Device.step (Device.powerUp mem) past d → c.IsNext → d.FailureKeepsWalk c := by
  intro hall
  have hruns : (exec Device.step (Device.powerUp (twoCredentials (sha256 [0x61])))
      [signInCommand]).any (fun d => ¬ d.NextGranted untouchedNext) = true := by
    decide +kernel
  obtain ⟨d, hexec, hskips⟩ := (Option.any_eq_true _ _).1 hruns
  have hnext : untouchedNext.IsNext := ⟨by decide, by decide⟩
  have hkeeps := hall _ _ d untouchedNext (Run.exec_iff.1 hexec) hnext
  exact of_decide_eq_true hskips ((failureKeepsWalk_iff hnext).1 hkeeps)

end UnsoloKey
