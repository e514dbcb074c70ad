import UnsoloKey.AssertionWalk
import UnsoloKey.TokenProtocol
import Mathlib.Tactic

/-!
# Where a GetNextAssertion comes from

The walk is four globals.  GetAssertion sets them when it has selected a
credential, before it checks the pinUvAuthParam and the options and waits for
the touch; where it finds no credential without an allowList it leaves them as
they are.  No other command starts a walk, and GetNextAssertion only moves on.
-/

namespace UnsoloKey

open Rd Trace Cbor

/-- Relying party, number of credentials and position of the walk. -/
def CtapSession.walk (s : CtapSession) : Bytes 32 × ℕ × ℕ :=
  (s.gGaRpHash, s.gGaCount, s.gGaIdx)

/-- The four globals of a walk. -/
def CtapSession.walkState (s : CtapSession) : Bytes 32 × ℕ × ℕ × Bytes 32 :=
  (s.gGaRpHash, s.gGaCount, s.gGaIdx, s.gGaCdh)

/-- GetNextAssertion has a position to go to. -/
def CtapSession.MoreToWalk (s : CtapSession) : Prop := s.gGaIdx + 1 < s.gGaCount

def Command.IsGetAssertion (c : Command) : Prop := c.reqLen ≠ 0 ∧ c.req 0 = 0x02

instance (s : CtapSession) : Decidable s.MoreToWalk :=
  inferInstanceAs (Decidable (_ < _))
instance (c : Command) : Decidable c.IsGetAssertion :=
  inferInstanceAs (Decidable (_ ∧ _))

/-! ## Commands which leave the walk alone -/

section

variable {env : Env} {d : Device} {reqLen : ℕ} {m : Mem} {cdh : Option (ℕ × ℕ)}
  {verified : Option (List UInt8)}

theorem makeCredential_walkState :
    (makeCredential env d reqLen).Returns m fun o => o.ctap.walkState = d.ctap.walkState := by
  intro o ho
  cases makeCredential_effect o ho with
  | refused status hstatus hdecision ho => rw [ho]; rfl
  | untouched cdh verified hdecision hpresence ho => rw [ho]; rfl
  | registered cdh verified hdecision hpresence h =>
      cases h with
      | excluded hex ho => rw [ho]; rfl
      | full r hread hslot ho => rw [ho]; rfl
      | saved r i cdhBytes hex hread hslot hcdh ho => rw [ho]; rfl

theorem clientPinFront_ctap :
    (clientPinFront env d 1 reqLen).Returns m fun r => match r with
      | .error o => o.ctap = d.ctap
      | .ok (_, d') => d'.ctap = d.ctap := by
  unfold clientPinFront
  refine Returns.ite (fun _ => Returns.pure rfl) fun _ => Returns.bind fun subCmd => ?_
  cases subCmd with
  | none => exact Returns.pure rfl
  | some subCmd =>
      refine Returns.bind fun proto => Returns.ite (fun _ => Returns.pure rfl) fun _ =>
        Returns.ite (fun _ => Returns.pure ?_) fun _ =>
        Returns.ite (fun _ => Returns.pure rfl) fun _ => Returns.ite (fun _ => ?_)
        fun _ => Returns.pure rfl
      · dsimp only
        unfold getPinRetries
        split <;> rfl
      · refine Returns.ite (fun _ => Returns.pure rfl) fun _ =>
          Returns.bind fun hostPub => ?_
        cases hostPub <;> exact Returns.pure rfl

theorem setPin_ctap : (setPin d 1 reqLen).Returns m fun o => o.ctap = d.ctap := by
  unfold setPin
  refine Returns.bind fun checked => ?_
  cases checked <;> exact Returns.pure rfl

theorem changePinOutcome_ctap (newPinEnc : List UInt8) (currentHash : Bytes 16) :
    (changePinOutcome d newPinEnc currentHash).ctap = d.ctap := by
  unfold changePinOutcome
  split
  · rfl
  · split
    · rfl
    · split <;> rfl

theorem changePin_ctap : (changePin d 1 reqLen).Returns m fun o => o.ctap = d.ctap := by
  unfold changePin
  refine Returns.bind fun checked => ?_
  cases checked with
  | error status => exact Returns.pure rfl
  | ok request => exact Returns.pure (changePinOutcome_ctap _ _)

theorem pinTokenOutcome_ctap (subCmd : ℕ) (currentHash : Bytes 16) :
    (pinTokenOutcome env d subCmd currentHash).ctap = d.ctap := by
  unfold pinTokenOutcome
  split
  · rfl
  · split
    · rfl
    · split <;> rfl

theorem getPinToken_ctap {subCmd : ℕ} :
    (getPinToken env d 1 reqLen subCmd).Returns m fun o => o.ctap = d.ctap := by
  unfold getPinToken
  refine Returns.bind fun claimed => ?_
  cases claimed with
  | error status => exact Returns.pure rfl
  | ok guess => exact Returns.pure (pinTokenOutcome_ctap _ _)

theorem processClientPin_ctap :
    (processClientPin env d 1 reqLen).Returns m fun o => o.ctap = d.ctap := by
  unfold processClientPin
  refine Returns.bind_of clientPinFront_ctap fun front hfront => ?_
  cases front with
  | error o => exact Returns.pure hfront
  | ok front =>
      rcases front with ⟨subCmd, d'⟩
      change d'.ctap = d.ctap at hfront
      rw [← hfront]
      exact Returns.ite (fun _ => setPin_ctap) fun _ =>
        Returns.ite (fun _ => changePin_ctap) fun _ => getPinToken_ctap

theorem enumerateRps_walkState (subCmd : ℕ) :
    (enumerateRps d subCmd).ctap.walkState = d.ctap.walkState := by
  unfold enumerateRps
  dsimp only
  split_ifs <;> rfl

theorem listCredential_ctap (subCmd : ℕ) : (listCredential d subCmd).ctap = d.ctap := by
  unfold listCredential
  dsimp only
  split
  · rfl
  · split_ifs <;> rfl

theorem enumerateCredentials_walkState {subCmd : ℕ} :
    (enumerateCredentials env d reqLen subCmd).Returns m fun o =>
      o.ctap.walkState = d.ctap.walkState := by
  unfold enumerateCredentials
  refine Returns.ite (fun _ => Returns.bind fun param => Returns.pure ?_)
    fun _ => Returns.pure ?_
  · rw [listCredential_ctap]
    rfl
  · rw [listCredential_ctap]
    rfl

theorem deleteCredential_walkState :
    (deleteCredential env d reqLen).Returns m fun o => o.ctap.walkState = d.ctap.walkState := by
  unfold deleteCredential
  refine Returns.bind fun target => ?_
  cases target with
  | none => exact Returns.pure rfl
  | some t =>
      exact Returns.ite (fun _ => Returns.pure rfl) fun _ =>
        Returns.bind fun _ => Returns.pure rfl

theorem cmDispatch_walkState {subCmd : ℕ} :
    (cmDispatch env d reqLen subCmd).Returns m fun o => o.ctap.walkState = d.ctap.walkState := by
  unfold cmDispatch
  exact Returns.bind fun _ => Returns.ite (fun _ => Returns.pure rfl) fun _ =>
    Returns.ite (fun _ => Returns.pure (enumerateRps_walkState subCmd)) fun _ =>
    Returns.ite (fun _ => enumerateCredentials_walkState) fun _ =>
    Returns.ite (fun _ => deleteCredential_walkState) fun _ => Returns.pure rfl

theorem credentialManagement_walkState :
    (credentialManagement env d reqLen).Returns m fun o => o.ctap.walkState = d.ctap.walkState := by
  unfold credentialManagement
  refine Returns.bind fun subCmd => Returns.ite (fun _ => Returns.bind fun authorized => ?_)
    fun _ => cmDispatch_walkState
  exact Returns.ite (fun _ => Returns.pure rfl) fun _ =>
    Returns.bind_of cmDispatch_walkState fun o ho => Returns.pure ho

theorem authenticatorReset_walkState :
    (authenticatorReset env d).ctap.walkState = d.ctap.walkState := by
  unfold authenticatorReset
  split
  · rfl
  · dsimp only
    split <;> rfl

theorem touchDebug_walkState : (touchDebug env d).ctap.walkState = d.ctap.walkState := by
  unfold touchDebug
  split <;> rfl

end

/-- Only GetAssertion and GetNextAssertion touch the walk. -/
theorem outcome_walkState {d : Device} {c : Command} {o : Outcome}
    (hget : ¬ c.IsGetAssertion) (hnext : c.reqLen ≠ 0 → c.req 0 ≠ 0x08)
    (ho : d.outcome c = some o) : o.ctap.walkState = d.ctap.walkState := by
  by_cases hlen : c.reqLen = 0
  · unfold Device.outcome fido2ProcessCbor at ho
    rw [if_pos hlen, run_pure, Option.some.injEq] at ho
    rw [← ho]
    rfl
  · rw [outcome_eq hlen] at ho
    have hother : (processCommand c.env (d.onChannel c.cid) c.reqLen (c.req 0)).Returns
        c.req fun o => o.ctap.walkState = (d.onChannel c.cid).ctap.walkState := by
      unfold processCommand
      refine Returns.ite (fun _ => Returns.pure rfl) fun _ =>
        Returns.ite (fun _ => makeCredential_walkState) fun _ =>
        Returns.ite (fun hcmd => absurd ⟨hlen, hcmd⟩ hget) fun _ =>
        Returns.ite (fun hcmd => absurd hcmd (hnext hlen)) fun _ =>
        Returns.ite (fun _ o ho => ?_) fun _ =>
        Returns.ite (fun _ => credentialManagement_walkState) fun _ =>
        Returns.ite (fun _ => Returns.pure authenticatorReset_walkState) fun _ =>
        Returns.ite (fun _ => Returns.pure touchDebug_walkState) fun _ => Returns.pure rfl
      rw [processClientPin_ctap o ho]
    exact hother o ho

theorem walk_of_walkState {s t : CtapSession} (h : s.walkState = t.walkState) :
    s.walk = t.walk := by
  simp only [CtapSession.walkState, Prod.mk.injEq] at h
  rw [CtapSession.walk, CtapSession.walk, h.1, h.2.1, h.2.2.1]

theorem outcome_walk {d : Device} {c : Command} {o : Outcome}
    (hget : ¬ c.IsGetAssertion) (hnext : c.reqLen ≠ 0 → c.req 0 ≠ 0x08)
    (ho : d.outcome c = some o) : o.ctap.walk = d.ctap.walk :=
  walk_of_walkState (outcome_walkState hget hnext ho)

/-! ## GetNextAssertion -/

theorem getNextAssertion_walk (env : Env) (d : Device) :
    ∃ idx, d.ctap.gGaIdx ≤ idx ∧ (getNextAssertion env d).ctap.walk =
      (d.ctap.gGaRpHash, d.ctap.gGaCount, idx) := by
  unfold getNextAssertion
  split
  · exact ⟨_, le_rfl, rfl⟩
  · dsimp only
    split
    · exact ⟨_, Nat.le_succ _, rfl⟩
    · split <;> exact ⟨_, Nat.le_succ _, rfl⟩

/-! ## GetAssertion -/

/-- Why GetAssertion refuses a request whose credential it has selected. -/
inductive RefusedLate (d : Device) (c : Command) : Prop
  | param (h : (pinAuthCheck d.pin c.reqLen 0x02 0x06).run c.req = some (some false))
  | uv (options : MapValue)
      (hparam : (pinAuthCheck d.pin c.reqLen 0x02 0x06).run c.req = some none)
      (hoptions : (getCborMapValue 1 (c.reqLen - 1) 0x05).run c.req = some (some options))
      (huv : (hasOption options.ptr (searchLen c.reqLen options.ptr) "uv" 0xF5).run c.req =
        some true)
  | touch (hpresence : c.env.presence ≠ .confirmed)
      (hup : ∀ options,
        (getCborMapValue 1 (c.reqLen - 1) 0x05).run c.req = some (some options) →
        (hasOption options.ptr (searchLen c.reqLen options.ptr) "up" 0xF4).run c.req ≠
          some true)

section

variable {env : Env} {d : Device} {c : Command} {reqLen : ℕ} {m : Mem}
  {rpIdHash : Bytes 32} {cdh : Option (ℕ × ℕ)} {verified : Option (List UInt8)}

/-- Without an allowList the selection starts a walk at the first credential, or
leaves the globals; with one it ends the walk. -/
theorem selectCredential_walk {allowList : Option MapValue} :
    (selectCredential d reqLen rpIdHash cdh allowList).Returns m fun selection =>
      ((∀ v, allowList = some v → v.type = 0x80 ∧ v.len = 0) ∧
        (slotsOfRp d.flash.mem rpIdHash = [] ∧ selection = (none, d.ctap) ∨
          slotsOfRp d.flash.mem rpIdHash ≠ [] ∧ selection.1.isSome ∧
          selection.2.walk =
            (rpIdHash, (slotsOfRp d.flash.mem rpIdHash).length, 0))) ∨
      selection.2.gGaCount = 0 := by
  unfold selectCredential
  refine Returns.ite (fun hbare => ?_) fun _ => ?_
  · have hallow : ∀ v, allowList = some v → v.type = 0x80 ∧ v.len = 0 := by
      intro v hv
      subst hv
      exact of_decide_eq_true hbare
    dsimp only
    split
    · rename_i hfirst
      have hempty : slotsOfRp d.flash.mem rpIdHash = [] := by
        rw [passkeyGetByRpIndex, List.getElem?_eq_none_iff] at hfirst
        exact List.eq_nil_of_length_eq_zero (Nat.le_zero.1 hfirst)
      exact Returns.pure (.inl ⟨hallow, .inl ⟨hempty, rfl⟩⟩)
    · rename_i i hfirst
      have hpos : 0 < (slotsOfRp d.flash.mem rpIdHash).length :=
        (List.getElem?_eq_some_iff.1 hfirst).1
      refine Returns.ite (fun hzero => ?_) fun _ => Returns.bind fun gGaCdh =>
        Returns.pure (.inl ⟨hallow, .inr ⟨List.length_pos_iff.1 hpos, rfl, ?_⟩⟩)
      · rw [passkeyCountForRp_eq] at hzero
        omega
      · rw [← passkeyCountForRp_eq]
        rfl
  · exact Returns.bind fun found => Returns.pure (.inr rfl)

theorem finish_walk (env : Env) (d : Device) (decision : GaDecision) :
    (gaFinish env d decision).Returns m fun o => o.ctap.walk = d.ctap.walk := by
  cases decision with
  | refuse verified status => exact Returns.pure rfl
  | assert plan =>
      have hwaited : (if plan.upRequired then d.waited env else d).ctap.walk =
          d.ctap.walk := by
        split <;> rfl
      unfold gaFinish AssertionPlan.finish
      exact Returns.ite (fun _ => Returns.pure hwaited) fun _ =>
        Returns.bind fun _ => Returns.pure hwaited

theorem assertCredential_accepts {i : Slot} {total : ℕ} {hasPinAuth : Bool}
    (huv : hasPinAuth = false → ∀ options,
      (getCborMapValue 1 (reqLen - 1) 0x05).run m = some (some options) →
      (hasOption options.ptr (searchLen reqLen options.ptr) "uv" 0xF5).run m ≠ some true)
    (htouch : env.presence ≠ .confirmed → ∃ options,
      (getCborMapValue 1 (reqLen - 1) 0x05).run m = some (some options) ∧
      (hasOption options.ptr (searchLen reqLen options.ptr) "up" 0xF4).run m = some true) :
    (assertCredential env d reqLen rpIdHash cdh i total verified hasPinAuth).Returns m
      fun o => o.status = some 0x00 := by
  have hanswered : ∀ upRequired : Bool, (env.presence ≠ .confirmed → upRequired = false) →
      (if upRequired ∧ env.presence.status ≠ 0x00 then
        (pure ((if upRequired then d.waited env else d).replyUnder verified []
          [env.presence.status]) : Rd Outcome)
      else do
        let cdhBuf ← signedCdh cdh
        return (if upRequired then d.waited env else d).replyUnder verified []
          (gaBuildResponse env (if upRequired then d.waited env else d).flash.mem i
            (authDataHeader rpIdHash (gaFlags upRequired verified.isSome)) cdhBuf
            total)).Returns m fun o => o.status = some 0x00 := by
    intro upRequired hup
    refine Returns.ite (fun hrefused => ?_) fun _ => Returns.bind fun _ => Returns.pure rfl
    rw [hup (mt (presence_status_eq_zero_iff _).2 hrefused.2)] at hrefused
    simp at hrefused
  unfold assertCredential
  refine Returns.bind_run fun options hoptions => Returns.bind_run fun decision hdecision => ?_
  cases options with
  | none =>
      obtain rfl : Except.ok true = decision := Option.some.inj hdecision
      refine hanswered true fun hpresence => ?_
      obtain ⟨options, hread, -⟩ := htouch hpresence
      rw [hoptions] at hread
      simp at hread
  | some options =>
      simp only [assertionOptions, run_bind_eq_some] at hdecision
      obtain ⟨uv, huvRun, hdecision⟩ := hdecision
      have hnot : uv = false := by
        cases hasPinAuth with
        | true => exact (Option.some.inj huvRun).symm
        | false =>
            by_contra huvTrue
            rw [Bool.not_eq_false] at huvTrue
            exact huv rfl options hoptions (huvTrue ▸ huvRun)
      subst hnot
      simp only [Bool.false_eq_true, if_false, run_bind_eq_some] at hdecision
      obtain ⟨preflight, hpreflight, hdecision⟩ := hdecision
      obtain rfl := Option.some.inj hdecision
      refine hanswered (!preflight) fun hpresence => ?_
      obtain ⟨options', hread, hup⟩ := htouch hpresence
      rw [hoptions, Option.some.injEq, Option.some.injEq] at hread
      subst hread
      rw [hpreflight, Option.some.injEq] at hup
      rw [hup]
      rfl

theorem assertSelected_accepts {ctap : CtapSession} {i : Slot} {total : ℕ}
    (hcdh : (getCborMapString 1 (c.reqLen - 1) 0x02).run c.req = some cdh)
    (hkept : ¬ RefusedLate d c) :
    (assertSelected c.env { d.onChannel c.cid with ctap := ctap } c.reqLen rpIdHash cdh
      (some (i, total))).Returns c.req fun o => o.status = some 0x00 := by
  have htouch : c.env.presence ≠ .confirmed → ∃ options,
      (getCborMapValue 1 (c.reqLen - 1) 0x05).run c.req = some (some options) ∧
      (hasOption options.ptr (searchLen c.reqLen options.ptr) "up" 0xF4).run c.req =
        some true := by
    intro hpresence
    by_contra hnone
    exact hkept (.touch hpresence fun options hread hup => hnone ⟨options, hread, hup⟩)
  unfold assertSelected
  refine Returns.bind_run fun param hparam => ?_
  cases param with
  | none =>
      have hcheck : (pinAuthCheck d.pin c.reqLen 0x02 0x06).run c.req = some none := by
        simp [pinAuthCheck, hcdh, hparam]
      exact assertCredential_accepts
        (fun _ options hoptions huv => hkept (.uv options hcheck hoptions huv)) htouch
  | some p =>
      refine Returns.bind_run fun valid hvalid => ?_
      have hcheck : (pinAuthCheck d.pin c.reqLen 0x02 0x06).run c.req =
          some (some valid) := by
        simp only [pinAuthCheck, run_bind, run_pure, hcdh, hparam, Option.bind_some]
        rw [show (pinAuthValid d.pin cdh p.1 p.2).run c.req = some valid from hvalid]
        rfl
      cases valid with
      | false => exact absurd (.param hcheck) hkept
      | true => exact assertCredential_accepts (fun h => absurd h (by simp)) htouch

/-- What a GetAssertion does to the walk. -/
theorem getAssertion_walk {o : Outcome} (hget : c.IsGetAssertion)
    (ho : d.outcome c = some o) :
    (∃ rpIdHash, c.BareAssertion rpIdHash ∧
      (slotsOfRp d.flash.mem rpIdHash = [] ∧ o.ctap.walk = d.ctap.walk ∨
        o.ctap.walk = (rpIdHash, (slotsOfRp d.flash.mem rpIdHash).length, 0) ∧
          (¬ RefusedLate d c → o.status = some 0x00))) ∨
      o.ctap.gGaCount = 0 := by
  rw [outcome_eq hget.1, hget.2] at ho
  change (getAssertion c.env (d.onChannel c.cid) c.reqLen).run c.req = some o at ho
  have hread := ho
  simp only [getAssertion, run_bind_eq_some] at hread
  obtain ⟨rpId, hrpId, cdh, hcdh, allowList, hallow, rpIdHash, hhash, selection, hselect,
    hassert⟩ := hread
  have hwalk : o.ctap.walk = selection.2.walk := by
    rw [assertSelected_run, run_bind_eq_some] at hassert
    obtain ⟨decision, -, hfinish⟩ := hassert
    exact finish_walk _ _ decision o hfinish
  rcases selectCredential_walk selection hselect with
    ⟨hbare, ⟨hempty, hsame⟩ | ⟨-, hsome, hstarts⟩⟩ | hzero
  · refine .inl ⟨rpIdHash, ⟨hget.1, hget.2, ?_, allowList, hallow, hbare⟩,
      .inl ⟨hempty, ?_⟩⟩
    · simp only [gaRpIdHash, run_bind, hrpId, Option.bind_some, hhash]
    · rw [hwalk, hsame]
      rfl
  · refine .inl ⟨rpIdHash, ⟨hget.1, hget.2, ?_, allowList, hallow, hbare⟩,
      .inr ⟨hwalk.trans hstarts, fun hkept => ?_⟩⟩
    · simp only [gaRpIdHash, run_bind, hrpId, Option.bind_some, hhash]
    · obtain ⟨selected, ctap⟩ := selection
      obtain ⟨⟨i, total⟩, rfl⟩ := Option.isSome_iff_exists.1 hsome
      exact assertSelected_accepts hcdh hkept o hassert
  · exact .inr ((Prod.mk.inj (Prod.mk.inj hwalk).2).1.trans hzero)

end

/-! ## Runs -/

/-- `ga` is the last GetAssertion among the commands, it names this relying party
without an allowList, and it has succeeded. -/
structure LastAssertion (mem : Mem) (past : List Command) (ga : Command)
    (rpIdHash : Bytes 32) : Prop where
  bare : ga.BareAssertion rpIdHash
  last : ∃ before between, past = before ++ ga :: between ∧
    (∀ c ∈ between, ¬ c.IsGetAssertion) ∧
    ∃ d o, Run Device.step (Device.powerUp mem) before d ∧
      d.outcome ga = some o ∧ o.status = some 0x00

theorem LastAssertion.snoc {mem : Mem} {past : List Command} {ga c : Command}
    {rpIdHash : Bytes 32} (h : LastAssertion mem past ga rpIdHash)
    (hc : ¬ c.IsGetAssertion) : LastAssertion mem (past ++ [c]) ga rpIdHash where
  bare := h.bare
  last := by
    obtain ⟨before, between, hsplit, hbetween, hrun⟩ := h.last
    refine ⟨before, between ++ [c], by simp [hsplit], ?_, hrun⟩
    intro c' hc'
    rcases List.mem_append.1 hc' with hold | hnew
    · exact hbetween c' hold
    · rw [List.mem_singleton.1 hnew]
      exact hc

structure WalkInvariant (mem : Mem) (past : List Command) (d : Device) : Prop where
  count : d.ctap.gGaCount < 2 ^ 32
  last : d.ctap.MoreToWalk → ∃ ga, LastAssertion mem past ga d.ctap.gGaRpHash

/-- A GetAssertion without an allowList which finds no credential comes while no walk
is open, and one which finds several is not refused afterwards. -/
def ClosesWalk (d : Device) (c : Command) : Prop :=
  ∀ rpIdHash, c.BareAssertion rpIdHash →
    (slotsOfRp d.flash.mem rpIdHash = [] → ¬ d.ctap.MoreToWalk) ∧
    (1 < (slotsOfRp d.flash.mem rpIdHash).length → ¬ RefusedLate d c)

section

variable {mem : Mem} {past : List Command} {d d' : Device} {c : Command}

theorem moreToWalk_of_walk {s t : CtapSession} (h : s.walk = t.walk) :
    s.MoreToWalk → t.MoreToWalk := by
  simp only [CtapSession.walk, Prod.mk.injEq] at h
  rw [CtapSession.MoreToWalk, CtapSession.MoreToWalk, h.2.1, h.2.2]
  exact id

theorem walkInvariant_step (h : WalkInvariant mem past d)
    (hrun : Run Device.step (Device.powerUp mem) past d) (hcloses : ClosesWalk d c)
    (hstep : d.step c = some d') : WalkInvariant mem (past ++ [c]) d' := by
  obtain ⟨o, ho, rfl⟩ := step_iff.1 hstep
  have hkept : ¬ c.IsGetAssertion → ∀ idx, d.ctap.gGaIdx ≤ idx →
      o.ctap.walk = (d.ctap.gGaRpHash, d.ctap.gGaCount, idx) →
      WalkInvariant mem (past ++ [c]) (d.after o) := by
    intro hc idx hidx hwalk
    obtain ⟨hhash, hcount, hat⟩ : o.ctap.gGaRpHash = d.ctap.gGaRpHash ∧
        o.ctap.gGaCount = d.ctap.gGaCount ∧ o.ctap.gGaIdx = idx := by
      simpa only [CtapSession.walk, Prod.mk.injEq] using hwalk
    refine ⟨hcount.trans_lt h.count, fun hmore => ?_⟩
    have hopen : d.ctap.MoreToWalk := by
      change o.ctap.gGaIdx + 1 < o.ctap.gGaCount at hmore
      rw [CtapSession.MoreToWalk]
      omega
    obtain ⟨ga, hga⟩ := h.last hopen
    exact ⟨ga, (show (d.after o).ctap.gGaRpHash = _ from hhash) ▸ hga.snoc hc⟩
  by_cases hget : c.IsGetAssertion
  · rcases getAssertion_walk hget ho with
      ⟨rpIdHash, hbare, ⟨hempty, hsame⟩ | ⟨hstarts, hsucceeds⟩⟩ | hzero
    · refine ⟨(Prod.mk.inj (Prod.mk.inj hsame).2).1.trans_lt h.count, fun hmore => ?_⟩
      exact absurd (moreToWalk_of_walk hsame hmore) ((hcloses _ hbare).1 hempty)
    · obtain ⟨hhash, hcount, hidx⟩ : o.ctap.gGaRpHash = rpIdHash ∧
          o.ctap.gGaCount = (slotsOfRp d.flash.mem rpIdHash).length ∧
          o.ctap.gGaIdx = 0 := by
        simpa only [CtapSession.walk, Prod.mk.injEq] using hstarts
      refine ⟨hcount.trans_lt (slotsOfRp_length_lt _ _), fun hmore => ?_⟩
      change o.ctap.gGaIdx + 1 < o.ctap.gGaCount at hmore
      refine ⟨c, (show (d.after o).ctap.gGaRpHash = _ from hhash) ▸ hbare,
        past, [], rfl, by simp, d, o, hrun, ho, ?_⟩
      exact hsucceeds ((hcloses _ hbare).2 (by omega))
    · refine ⟨?_, fun hmore => ?_⟩
      · change o.ctap.gGaCount < 2 ^ 32
        omega
      · change o.ctap.gGaIdx + 1 < o.ctap.gGaCount at hmore
        omega
  · by_cases hnext : c.reqLen ≠ 0 ∧ c.req 0 = 0x08
    · rw [outcome_eq hnext.1, hnext.2] at ho
      obtain rfl : getNextAssertion c.env (d.onChannel c.cid) = o := Option.some.inj ho
      obtain ⟨idx, hidx, hwalk⟩ := getNextAssertion_walk c.env (d.onChannel c.cid)
      exact hkept hget idx hidx hwalk
    · exact hkept hget _ le_rfl
        (outcome_walk hget (fun hlen hcmd => hnext ⟨hlen, hcmd⟩) ho)

theorem walkInvariant_run (hrun : Run Device.step (Device.powerUp mem) past d)
    (hcloses : Run.Guarded Device.step ClosesWalk (Device.powerUp mem) past) :
    WalkInvariant mem past d := by
  induction past using List.reverseRecOn generalizing d with
  | nil =>
      obtain rfl := Run.nil_iff.1 hrun
      have hclosed : ¬ CtapSession.powerUp.MoreToWalk := by decide
      exact ⟨Nat.two_pow_pos 32, fun hmore => absurd hmore hclosed⟩
  | append_singleton past c ih =>
      obtain ⟨d₀, hpast, hstep⟩ := Run.snoc_iff.1 hrun
      exact walkInvariant_step (ih hpast hcloses.left) hpast
        (hcloses past c [] d₀ rfl hpast) hstep

/-- In every run without such a GetAssertion, an assertion from GetNextAssertion
belongs to the relying party of the last GetAssertion, and that one had succeeded
without an allowList. -/
theorem nextAssertion_continues {o : Outcome}
    (hrun : Run Device.step (Device.powerUp mem) past d)
    (hcloses : Run.Guarded Device.step ClosesWalk (Device.powerUp mem) past)
    (hlen : c.reqLen ≠ 0) (hcmd : c.req 0 = 0x08) (ho : d.outcome c = some o)
    (hok : o.status = some 0x00) :
    ∃ ga rpIdHash i, LastAssertion mem past ga rpIdHash ∧
      isOfRp d.flash.mem rpIdHash i = true ∧
      responseCredentialId o.resp = some (d.flash.mem.slotKey i).credentialId.val := by
  rw [outcome_eq hlen, hcmd] at ho
  obtain rfl : getNextAssertion c.env (d.onChannel c.cid) = o := Option.some.inj ho
  have heffect : GetNextAssertionEffect c.env (d.onChannel c.cid) _ :=
    getNextAssertion_effect
  cases heffect with
  | refused status hstatus hresp =>
      rw [Outcome.status, hresp] at hok
      exact absurd (Option.some.inj hok) hstatus
  | asserted i hmore hslot hpresence hresp hops hctap =>
      have hinv := walkInvariant_run hrun hcloses
      obtain ⟨ga, hga⟩ := hinv.last hmore
      refine ⟨ga, _, i, hga, isOfRp_of_getByRpIndex hslot, ?_⟩
      rw [hresp]
      exact gaResponse_credentialId (authDataHeader_length _ _) hinv.count

end

/-- Two credentials of one relying party. -/
@[irreducible]
def twoCredentials (rpIdHash : Bytes 32) : Mem :=
  Mem.after (oneCredential rpIdHash)
    (writePageOps (slotAddr secondSlot) (storedKey rpIdHash).toBytes)

/-- GetAssertion for the relying party `a` with `"uv": true`. -/
def uvSignInCommand : Command :=
  hostCommand ([0x02, 0xA3, 0x01, 0x61, 0x61, 0x02, 0x58, 0x20] ++
    List.replicate 32 0xC5 ++ [0x05, 0xA1, 0x62, 0x75, 0x76, 0xF5])

theorem signInCommand_closes (mem : Mem) :
    ClosesWalk (Device.powerUp mem) signInCommand := by
  have hclosed : ¬ CtapSession.powerUp.MoreToWalk := by decide
  have hparam : (pinAuthCheck PinSession.powerUp signInCommand.reqLen 0x02 0x06).run
      signInCommand.req = some none := by
    decide +kernel
  have hoptions : (getCborMapValue 1 (signInCommand.reqLen - 1) 0x05).run
      signInCommand.req = some none := by
    decide +kernel
  refine fun rpIdHash _ => ⟨fun _ => hclosed, fun _ hrefused => ?_⟩
  cases hrefused with
  | param h =>
      rw [show (Device.powerUp mem).pin = PinSession.powerUp from rfl, hparam] at h
      simp at h
  | uv options _ h =>
      rw [hoptions] at h
      simp at h
  | touch hpresence => exact hpresence rfl

theorem nextAssertion_continues_two :
    ∃ (d : Device) (o : Outcome) (ga : Command) (rpIdHash : Bytes 32) (i : Slot),
      d.outcome nextCommand = some o ∧
      LastAssertion (twoCredentials (sha256 [0x61])) [signInCommand] ga rpIdHash ∧
      isOfRp d.flash.mem rpIdHash i = true ∧
      responseCredentialId o.resp = some (d.flash.mem.slotKey i).credentialId.val := by
  have hruns : ((exec Device.step (Device.powerUp (twoCredentials (sha256 [0x61])))
      [signInCommand]).bind fun d => d.outcome nextCommand).any
      (fun o => o.status = some 0x00) = true := by
    decide +kernel
  obtain ⟨o, hbind, hok⟩ := (Option.any_eq_true _ _).1 hruns
  obtain ⟨d, hexec, ho⟩ := Option.bind_eq_some_iff.1 hbind
  obtain ⟨ga, rpIdHash, i, hfound⟩ := nextAssertion_continues (Run.exec_iff.1 hexec)
    (Run.Guarded.single (signInCommand_closes _)) (by decide) (by decide) ho
    (of_decide_eq_true hok)
  exact ⟨d, o, ga, rpIdHash, i, ho, hfound⟩

/-- A GetAssertion refused for its options leaves a walk. -/
theorem nextAssertion_after_refusal :
    ¬ ∀ (mem : Mem) (past : List Command) (d : Device) (c : Command) (o : Outcome),
      Run Device.step (Device.powerUp mem) past d → c.reqLen ≠ 0 → c.req 0 = 0x08 →
      d.outcome c = some o → o.status = some 0x00 →
      ∃ ga rpIdHash i, LastAssertion mem past ga rpIdHash ∧
        isOfRp d.flash.mem rpIdHash i = true ∧
        responseCredentialId o.resp = some (d.flash.mem.slotKey i).credentialId.val := by
  intro h
  have hruns : ((exec Device.step (Device.powerUp (twoCredentials (sha256 [0x61])))
      [uvSignInCommand]).bind fun d => d.outcome nextCommand).any
      (fun o => o.status = some 0x00) = true := by
    decide +kernel
  have hrefused : ((Device.powerUp (twoCredentials (sha256 [0x61]))).outcome
      uvSignInCommand).all (fun o => o.status = some 0x35) = true := by
    decide +kernel
  obtain ⟨o, hbind, hok⟩ := (Option.any_eq_true _ _).1 hruns
  obtain ⟨d, hexec, ho⟩ := Option.bind_eq_some_iff.1 hbind
  obtain ⟨ga, rpIdHash, i, hlast, -⟩ := h _ _ d nextCommand o (Run.exec_iff.1 hexec)
    (by decide) (by decide) ho (of_decide_eq_true hok)
  obtain ⟨before, between, hsplit, -, d', o', hbefore, ho', hok'⟩ := hlast.last
  obtain ⟨rfl, rfl, rfl⟩ : before = [] ∧ ga = uvSignInCommand ∧ between = [] := by
    rcases before with _ | ⟨first, rest⟩
    · simpa [eq_comm] using hsplit
    · simp at hsplit
  obtain rfl := Run.nil_iff.1 hbefore
  rw [ho'] at hrefused
  have hstatus : o'.status = some 0x35 := of_decide_eq_true hrefused
  rw [hok'] at hstatus
  exact absurd hstatus (by decide)

end UnsoloKey
