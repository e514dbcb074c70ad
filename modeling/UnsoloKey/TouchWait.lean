import UnsoloKey.PacketRing
import Mathlib.Tactic

/-!
# Cancelling a touch wait

While a request from the ring waits for a touch, its own last packet is still
the block at `DealPtr`, and it stays there until the wait is over.  That packet
is a CBOR initialization packet or a continuation, neither of which
`Process_OOB_Commands` takes out.  So the poll never gets to any packet which
arrived later, and the wait ends by touch or by timeout only.
-/

namespace UnsoloKey

open Trace

/-- The packet is left in the ring by `Process_OOB_Commands`. -/
def Report.Deaf (r : Report) : Prop :=
  r.byte 4 = 0x90 ∨ r.byte 4 &&& 0x80 = 0

def Report.IsCancel (r : Report) : Prop := 5 ≤ r.len ∧ r.byte 4 = 0x91

theorem oobCommand_deaf {q : Ring} (h : q.head.Deaf) (s : Hid) :
    oobCommand q s = none := by
  unfold oobCommand
  cases h with
  | inl hcbor => simp [hcbor]
  | inr hcont => simp [hcont]

theorem oobCommand_pos {q : Ring} {s : Hid}
    {x : Hid × Option (ℕ × UInt8 × List UInt8)}
    (h : oobCommand q s = some x) : 0 < q.remainPack := by
  unfold oobCommand at h
  by_cases hzero : q.remainPack = 0
  · simp [hzero] at h
  · omega

theorem receiveInit_cmd {s s' : Hid} {r : Report}
    (h : receiveInit s r = some s') : s'.cmd = r.byte 4 := by
  unfold receiveInit at h
  split_ifs at h
  rw [Option.some.injEq] at h
  rw [← h]

theorem complete_cmd {s : Hid} {cid : ℕ} {msg : Message}
    (h : (complete s cid).2 = some msg) : msg.cmd = s.cmd := by
  unfold complete at h
  split_ifs at h
  rw [Option.some.injEq] at h
  rw [← h]

theorem deaf_of_dispatched {s : Hid} {r : Report} {msg : Message}
    (h : (processCtaphid s r).2 = some msg) (hcbor : msg.cmd = 0x90) :
    r.Deaf := by
  by_cases hbit : r.byte 4 &&& 0x80 = 0
  · exact Or.inr hbit
  · left
    unfold processCtaphid at h
    by_cases hlen : r.len < 5
    · simp [hlen] at h
    · by_cases hcancel : r.byte 4 = 0x91
      · simp [hlen, hcancel] at h
      · simp only [if_neg hlen, if_neg hcancel, ne_eq, hbit,
          not_false_eq_true, if_true] at h
        cases hrecv : receiveInit { s with currentCid := r.cid } r with
        | none => simp [hrecv] at h
        | some s' =>
            rw [hrecv] at h
            rw [← receiveInit_cmd hrecv, ← complete_cmd h, hcbor]

/-! ## The invariant -/

/-- The block being processed is at `DealPtr` and is left there by polls. -/
def Ring.Held (q : Ring) : Prop := 0 < q.remainPack ∧ q.head.Deaf

/-- What holds at each place of the program.  A packet from endpoint 0 is not
in the ring, so its waits may take packets out. -/
def Phase.Ok (q : Ring) (s : Hid) : Phase → Prop
  | .main | .setReport | .restart => True
  | .handler .ring _ _ => q.Held
  | .calibrate .ring => q.Held ∧ s.cancelRequested = false
  | .sample .ring _ => q.Held ∧ s.cancelRequested = false
  | .poll .ring _ => q.Held ∧ s.cancelRequested = false
  | .consume .ring _ => False
  | .check .ring _ => q.Held ∧ s.cancelRequested = false
  | .returned .ring status => q.Held ∧ (status = 0x00 ∨ status = 0x2F)
  | .release .ring => 0 < q.remainPack
  | .consume .report _ => 0 < q.remainPack
  | .handler .report _ _ | .calibrate .report | .sample .report _ => True
  | .poll .report _ | .check .report _ | .returned .report _ => True
  | .release .report => True

structure SystemInvariant (c : System) : Prop where
  ring : c.ring.WellFormed
  phase : c.phase.Ok c.ring c.hid

theorem Ring.Held.mono {q q' : Ring} (h : q.Held) (hpack : q.remainPack ≤ q'.remainPack)
    (hhead : 0 < q.remainPack → q'.head = q.head) : q'.Held := by
  refine ⟨h.1.trans_le hpack, ?_⟩
  rw [hhead h.1]
  exact h.2

/-- Packets which come in behind the block at `DealPtr` change nothing. -/
theorem Phase.Ok.mono {q q' : Ring} {s : Hid} {p : Phase} (h : p.Ok q s)
    (hpack : q.remainPack ≤ q'.remainPack)
    (hhead : 0 < q.remainPack → q'.head = q.head) : p.Ok q' s := by
  cases p with
  | main => trivial
  | setReport => trivial
  | restart => trivial
  | handler src cid cmd =>
      cases src with
      | ring => exact Ring.Held.mono h hpack hhead
      | report => trivial
  | calibrate src =>
      cases src with
      | ring => exact ⟨h.1.mono hpack hhead, h.2⟩
      | report => trivial
  | sample src w =>
      cases src with
      | ring => exact ⟨h.1.mono hpack hhead, h.2⟩
      | report => trivial
  | poll src w =>
      cases src with
      | ring => exact ⟨h.1.mono hpack hhead, h.2⟩
      | report => trivial
  | consume src w =>
      cases src with
      | ring => exact h
      | report => exact lt_of_lt_of_le h hpack
  | check src w =>
      cases src with
      | ring => exact ⟨h.1.mono hpack hhead, h.2⟩
      | report => trivial
  | returned src status =>
      cases src with
      | ring => exact ⟨h.1.mono hpack hhead, h.2⟩
      | report => trivial
  | release src =>
      cases src with
      | ring => exact lt_of_lt_of_le h hpack
      | report => trivial

theorem phaseOk_process {c : System} (src : Source) (r : Report)
    (hring : src = .ring → 0 < c.ring.remainPack ∧ c.ring.head = r) :
    (c.process src r).phase.Ok c.ring (c.process src r).hid := by
  change (dispatchPhase src (processCtaphid c.hid r).2).Ok c.ring _
  cases hmsg : (processCtaphid c.hid r).2 with
  | none =>
      cases src with
      | ring => exact (hring rfl).1
      | report => trivial
  | some msg =>
      simp only [dispatchPhase]
      cases src with
      | ring =>
          have hpos := (hring rfl).1
          split_ifs with hcbor
          · refine ⟨hpos, ?_⟩
            rw [(hring rfl).2]
            exact deaf_of_dispatched hmsg hcbor.1
          · exact hpos
      | report => split_ifs <;> trivial

theorem phaseOk_run {c c' : System} {val : ℕ} (hok : c.phase.Ok c.ring c.hid)
    (hstep : c.step (.run val) = some c') : c'.phase.Ok c'.ring c'.hid := by
  unfold System.step at hstep
  cases hphase : c.phase with
  | main =>
      simp only [hphase] at hstep
      split_ifs at hstep with hempty
      · cases hstep
        trivial
      · cases hstep
        exact phaseOk_process .ring _ fun _ => ⟨Nat.pos_of_ne_zero hempty, rfl⟩
  | setReport =>
      simp only [hphase] at hstep
      split_ifs at hstep
      · cases hstep
        exact phaseOk_process .report _ (by simp)
      · cases hstep
        trivial
  | restart =>
      simp only [hphase] at hstep
      cases hstep
      trivial
  | handler src cid cmd =>
      simp only [hphase] at hstep hok
      cases hstep
      cases src with
      | ring => exact hok.1
      | report => trivial
  | calibrate src =>
      simp only [hphase] at hstep hok
      cases hstep
      cases src with
      | ring => exact hok
      | report => trivial
  | sample src w =>
      simp only [hphase] at hstep hok
      cases src with
      | ring =>
          split_ifs at hstep
          · cases hstep
            exact ⟨hok.1, Or.inl rfl⟩
          · cases hstep
            exact hok
          · cases hstep
            exact hok
      | report =>
          split_ifs at hstep <;> cases hstep <;> trivial
  | poll src w =>
      simp only [hphase] at hstep hok
      cases src with
      | ring =>
          rw [oobCommand_deaf hok.1.2] at hstep
          cases hstep
          exact hok
      | report =>
          cases hoob : oobCommand c.ring c.hid with
          | none =>
              rw [hoob] at hstep
              cases hstep
              trivial
          | some x =>
              rw [hoob] at hstep
              cases hstep
              exact oobCommand_pos hoob
  | consume src w =>
      simp only [hphase] at hstep hok
      cases src with
      | ring => exact hok.elim
      | report =>
          cases hstep
          trivial
  | check src w =>
      simp only [hphase] at hstep hok
      cases src with
      | ring =>
          rw [hok.2] at hstep
          simp only [Bool.false_eq_true, if_false] at hstep
          split_ifs at hstep
          · cases hstep
            exact ⟨hok.1, Or.inr rfl⟩
          · cases hstep
            exact hok
      | report =>
          split_ifs at hstep <;> cases hstep <;> trivial
  | returned src status =>
      simp only [hphase] at hstep hok
      cases hstep
      cases src with
      | ring => exact hok.1.1
      | report => trivial
  | release src =>
      simp only [hphase] at hstep hok
      cases src with
      | ring =>
          cases hstep
          trivial
      | report =>
          cases hstep
          trivial

/-- What a step of the program does to the ring. -/
def Phase.ringAfter (q : Ring) : Phase → Ring
  | .consume _ _ | .release .ring => q.dequeue
  | .restart => q.restart
  | _ => q

theorem ring_run {c c' : System} {val : ℕ} (hstep : c.step (.run val) = some c') :
    c'.ring = c.phase.ringAfter c.ring := by
  unfold System.step at hstep
  cases hphase : c.phase with
  | main | setReport | sample | check =>
      simp only [hphase] at hstep
      split_ifs at hstep <;> cases hstep <;> rfl
  | poll =>
      simp only [hphase] at hstep
      cases hoob : oobCommand c.ring c.hid with
      | none =>
          rw [hoob] at hstep
          cases hstep
          rfl
      | some x =>
          rw [hoob] at hstep
          cases hstep
          rfl
  | release src =>
      cases src <;> simp only [hphase] at hstep <;> cases hstep <;> rfl
  | _ =>
      simp only [hphase] at hstep
      cases hstep
      rfl

/-- A block is removed only where there is one. -/
theorem Phase.Ok.removes {q : Ring} {s : Hid} {p : Phase} (h : p.Ok q s) :
    p.ringAfter q = q ∨ p.ringAfter q = q.restart ∨
      0 < q.remainPack ∧ p.ringAfter q = q.dequeue := by
  cases p with
  | consume src w =>
      cases src with
      | ring => exact h.elim
      | report => exact .inr (.inr ⟨h, rfl⟩)
  | release src =>
      cases src with
      | ring => exact .inr (.inr ⟨h, rfl⟩)
      | report => exact .inl rfl
  | restart => exact .inr (.inl rfl)
  | _ => exact .inl rfl

theorem systemInvariant_run {c c' : System} {val : ℕ} (h : SystemInvariant c)
    (hstep : c.step (.run val) = some c') : SystemInvariant c' := by
  refine ⟨?_, phaseOk_run h.phase hstep⟩
  rw [ring_run hstep]
  rcases h.phase.removes with hkept | hrestart | ⟨hpos, hremoved⟩
  · rw [hkept]
    exact h.ring
  · rw [hrestart]
    exact h.ring.restart
  · rw [hremoved]
    exact h.ring.dequeue hpos

theorem systemInvariant_step {c c' : System} {a : Action}
    (h : SystemInvariant c) (hstep : c.step a = some c') :
    SystemInvariant c' := by
  cases a with
  | enqueue r =>
      simp only [System.step] at hstep
      split_ifs at hstep with hack
      cases hstep
      refine ⟨h.ring.enqueue hack r, h.phase.mono ?_ fun hpos =>
        h.ring.head_enqueue hack hpos r⟩
      dsimp only
      rw [Ring.remainPack_enqueue]
      omega
  | arriveReport r =>
      cases hstep
      exact ⟨h.ring, h.phase⟩
  | run val => exact systemInvariant_run h hstep
  | wait =>
      have hok := h.phase
      cases hphase : c.phase with
      | handler src cid cmd =>
          simp only [System.step, hphase] at hstep hok
          split_ifs at hstep
          cases hstep
          cases src with
          | ring => exact ⟨h.ring, hok, rfl⟩
          | report => exact ⟨h.ring, trivial⟩
      | _ => simp [System.step, hphase] at hstep

theorem systemInvariant_reachable {c : System} {actions : List Action}
    (hrun : Run System.step System.powerUp actions c) : SystemInvariant c :=
  hrun.invariant (fun _ _ _ h hstep => systemInvariant_step h hstep)
    ⟨Ring.wellFormed_powerUp, trivial⟩

/-! ## The wait -/

/-- A wait which starts in `c` for a request from the ring: a CANCEL on the
channel of the request arrives among its actions, and the wait polls after
that. -/
structure CancelInTime (c : System) (actions : List Action) : Prop where
  oneWait : Action.wait ∉ actions
  arrives : ∃ cid cmd before r between val after u w,
    c.phase = .handler .ring cid cmd ∧
    actions = before ++ .enqueue r :: (between ++ .run val :: after) ∧
    r.IsCancel ∧ r.cid = cid ∧
    Run System.step c (.wait :: (before ++ .enqueue r :: between)) u ∧
    u.phase = .poll .ring w

/-- A wait with a CANCEL in time, from power-up to what it returns. -/
structure CancelledWait (actions : List Action) (status : UInt8) : Prop where
  run : ∃ prior c c', Run System.step System.powerUp prior c ∧
    Run System.step c (.wait :: actions) c' ∧ CancelInTime c actions ∧
    c'.phase = .returned .ring status

/-- No wait for a request from the ring is ever ended by a CANCEL: it ends by a
touch or by the timeout. -/
theorem cancelledWait_status {actions : List Action} {status : UInt8}
    (h : CancelledWait actions status) : status = 0x00 ∨ status = 0x2F := by
  rcases h.run with ⟨prior, c, c', hreach, hwait, -, hdone⟩
  have hinv := (systemInvariant_reachable (hreach.append hwait)).phase
  rw [hdone] at hinv
  exact hinv.2

/-- An authenticatorReset on channel `01020304`. -/
def resetPacket : Report where
  bytes := [1, 2, 3, 4, 0x90, 0, 1, 0x07]
  fits := by decide

def cancelPacket : Report where
  bytes := [1, 2, 3, 4, 0x91, 0, 0]
  fits := by decide

/-- The request arrives and is handed to its command. -/
def resetArrives : List Action := [.enqueue resetPacket, .run 0]

/-- The CANCEL arrives before the first poll, and the pad is touched later. -/
def beforeCancel : List Action := [.run 1000]

def untilPoll : List Action := [.run 1000]

def untilTouch : List Action :=
  [.run 0, .run 0, .run 0, .run 0, .run 0, .run 0, .run 0, .run 0]

def cancelledWait : List Action :=
  beforeCancel ++ .enqueue cancelPacket :: (untilPoll ++ .run 0 :: untilTouch)

theorem cancelledWait_runs : ∃ c u c' w,
    Run System.step System.powerUp resetArrives c ∧
    c.phase = .handler .ring resetPacket.cid 0x07 ∧
    Run System.step c (.wait :: (beforeCancel ++ .enqueue cancelPacket ::
      untilPoll)) u ∧ u.phase = .poll .ring w ∧
    Run System.step c (.wait :: cancelledWait) c' ∧
    c'.phase = .returned .ring 0x00 := by
  have hone : (exec System.step System.powerUp resetArrives).map
      System.phase = some (.handler .ring resetPacket.cid 0x07) := rfl
  have htwo : (exec System.step System.powerUp (resetArrives ++ .wait ::
      (beforeCancel ++ .enqueue cancelPacket :: untilPoll))).map System.phase =
      some (.poll .ring ⟨1000, 0, 0⟩) := rfl
  have hthree : (exec System.step System.powerUp
      (resetArrives ++ .wait :: cancelledWait)).map System.phase =
      some (.returned .ring 0x00) := rfl
  rw [Option.map_eq_some_iff] at hone htwo hthree
  rcases hone with ⟨c, hc, hphase⟩
  rcases htwo with ⟨u, hu, hpoll⟩
  rcases hthree with ⟨c', hc', hdone⟩
  rw [Run.exec_iff] at hc hu hc'
  rcases Run.append_iff.1 hu with ⟨c₁, hc₁, hu⟩
  rcases Run.append_iff.1 hc' with ⟨c₂, hc₂, hc'⟩
  rw [hc₁.unique hc] at hu
  rw [hc₂.unique hc] at hc'
  exact ⟨c, u, c', _, hc, hphase, hu, hpoll, hc', hdone⟩

theorem cancelledWait_reset : CancelledWait cancelledWait 0x00 := by
  rcases cancelledWait_runs with
    ⟨c, u, c', w, hc, hphase, hpoll, hu, hc', hdone⟩
  refine ⟨resetArrives, c, c', hc, hc', ⟨?_, ?_⟩, hdone⟩
  · simp [cancelledWait, beforeCancel, untilPoll, untilTouch]
  · exact ⟨resetPacket.cid, 0x07, beforeCancel, cancelPacket, untilPoll, 0,
      untilTouch, u, w, hphase, rfl, ⟨by decide, by decide⟩, by decide, hpoll,
      hu⟩

theorem cancelledWait_status_reset :
    (0x00 : UInt8) = 0x00 ∨ (0x00 : UInt8) = 0x2F :=
  cancelledWait_status cancelledWait_reset

/-- A CANCEL which arrives in time, and a reset which goes ahead. -/
theorem cancelledWait_not_answered :
    ¬ ∀ (actions : List Action) (status : UInt8),
      CancelledWait actions status → status = 0x2D := by
  intro h
  exact absurd (h _ _ cancelledWait_reset) (by decide)

end UnsoloKey
