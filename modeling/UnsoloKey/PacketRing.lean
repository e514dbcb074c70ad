import UnsoloKey.Ctaphid
import UnsoloKey.Trace
import Mathlib.Tactic

/-!
# The packet ring and the main loop

Packets of endpoint 1 reach the main loop through a ring of sixteen blocks
which the USB interrupt fills.  The main loop hands the block at `DealPtr` to
`ProcessCTAPHID` and only afterwards takes it out of the ring.  While a request
waits for a touch, `Process_OOB_Commands` looks at the block at `DealPtr` as
well.  The system is a step function over the places at which the interrupt
can come in; a packet can arrive at every one of them.
-/

namespace UnsoloKey

def ringBufferMaxBlks : ℕ := 16
def ringBufferRemine : ℕ := 4
def ringBufferRestart : ℕ := 10

structure Ring where
  loadPtr : ℕ
  dealPtr : ℕ
  remainPack : ℕ
  pack : ℕ → Report
  stopFlag : Bool
  ack : Bool

namespace Ring

def powerUp : Ring where
  loadPtr := 0
  dealPtr := 0
  remainPack := 0
  pack := fun _ => ⟨[], by decide⟩
  stopFlag := false
  ack := true

def advance (ptr : ℕ) : ℕ := if ptr + 1 = ringBufferMaxBlks then 0 else ptr + 1

def head (q : Ring) : Report := q.pack q.dealPtr

def store (q : Ring) (r : Report) : Ring :=
  { q with
    pack := Function.update q.pack q.loadPtr r
    loadPtr := advance q.loadPtr
    remainPack := q.remainPack + 1 }

/-- The endpoint 1 branch of the interrupt.  A nearly full ring makes the
endpoint refuse packets. -/
def enqueue (q : Ring) (r : Report) : Ring :=
  if q.remainPack + 1 ≥ ringBufferMaxBlks - ringBufferRemine then
    { q.store r with ack := false, stopFlag := true }
  else q.store r

def dequeue (q : Ring) : Ring :=
  { q with remainPack := q.remainPack - 1, dealPtr := advance q.dealPtr }

/-- The end of the main loop, which lets the endpoint accept again. -/
def restart (q : Ring) : Ring :=
  if q.remainPack < ringBufferMaxBlks - ringBufferRestart ∧ q.stopFlag then
    { q with stopFlag := false, ack := true }
  else q

end Ring

/-- `Process_OOB_Commands` up to the removal of the block: the transport state
afterwards, with the reply if one is sent, or `none` for a block which is left
in the ring. -/
def oobCommand (q : Ring) (s : Hid) :
    Option (Hid × Option (ℕ × UInt8 × List UInt8)) :=
  let r := q.head
  if q.remainPack = 0 then none
  else if r.len < 5 ∨ r.byte 4 &&& 0x80 = 0 then none
  else if r.byte 4 = 0x88 ∨ r.byte 4 = 0x84 then
    some (s, some (r.cid, r.byte 4, []))
  else if r.byte 4 = 0x91 then
    some ({ s with cancelRequested := true }, none)
  else if r.byte 4 = 0x86 then
    if r.len < 15 then some (s, none)
    else
      let nonce : Mem := fun i => r.byte (7 + i)
      if r.cid = 0xFFFFFFFF then
        some (s, some (r.cid, r.byte 4, initReply nonce s.allocatedCid))
      else
        some ({ s with
          allocatedCid := r.cid
          cancelRequested := s.cancelRequested || r.cid = s.currentCid },
          some (r.cid, r.byte 4, initReply nonce r.cid))
  else none

/-! ## The main loop and the touch wait -/

/-- Where the packet which is being processed came from. -/
inductive Source where
  | ring
  | report
  deriving DecidableEq

/-- The variables of `fido2_wait_for_user_presence`. -/
structure TouchWait where
  base : ℕ
  loops : ℕ
  confirm : ℕ

inductive Phase where
  | main
  | setReport
  | restart
  /-- In `fido2_process_cbor`, on channel `cid`, with the given command byte. -/
  | handler (src : Source) (cid : ℕ) (cmd : UInt8)
  | calibrate (src : Source)
  | sample (src : Source) (w : TouchWait)
  | poll (src : Source) (w : TouchWait)
  | consume (src : Source) (w : TouchWait)
  | check (src : Source) (w : TouchWait)
  | returned (src : Source) (status : UInt8)
  | release (src : Source)

structure System where
  ring : Ring
  hid : Hid
  hidReportBuffer : Report
  hidSetReportFlag : Bool
  phase : Phase

def System.powerUp : System where
  ring := Ring.powerUp
  hid := Hid.powerUp
  hidReportBuffer := ⟨[], by decide⟩
  hidSetReportFlag := false
  phase := .main

inductive Action where
  | enqueue (r : Report)
  | arriveReport (r : Report)
  /-- A step of the program; `val` is what the touch pad reads. -/
  | run (val : ℕ)
  /-- The handler calls `fido2_wait_for_user_presence`. -/
  | wait

/-- The commands which may wait for a touch. -/
def waitsForTouch (cmd : UInt8) : Bool :=
  cmd = 0x01 ∨ cmd = 0x02 ∨ cmd = 0x07 ∨ cmd = 0x08

/-- A CBOR message is processed; any other is answered at once. -/
def dispatchPhase (src : Source) : Option Message → Phase
  | some msg =>
      if msg.cmd = 0x90 ∧ msg.len ≠ 0 then .handler src msg.cid (msg.buf 0)
      else .release src
  | none => .release src

theorem dispatchPhase_cases (src : Source) (msg : Option Message) :
    dispatchPhase src msg = .release src ∨
      ∃ cid cmd, dispatchPhase src msg = .handler src cid cmd := by
  cases msg with
  | none => exact .inl rfl
  | some msg =>
      unfold dispatchPhase
      dsimp only
      split_ifs
      · exact .inr ⟨_, _, rfl⟩
      · exact .inl rfl

/-- `ProcessCTAPHID` on the packet taken by the main loop, up to the command it
dispatches. -/
def System.process (c : System) (src : Source) (r : Report) : System :=
  { c with
    hid := (processCtaphid c.hid r).1
    phase := dispatchPhase src (processCtaphid c.hid r).2 }

/-- The touch test of one round of the wait. -/
def touched (w : TouchWait) (val : ℕ) : Bool :=
  w.base > 64 ∧ val < w.base - w.base / 4

def System.step (c : System) : Action → Option System
  | .enqueue r =>
      if c.ring.ack then some { c with ring := c.ring.enqueue r } else none
  | .arriveReport r =>
      some { c with hidReportBuffer := r, hidSetReportFlag := true }
  | .wait =>
      match c.phase with
      | .handler src _ cmd =>
          if waitsForTouch cmd then
            some { c with
              hid := { c.hid with cancelRequested := false }
              phase := .calibrate src }
          else none
      | _ => none
  | .run val =>
      match c.phase with
      | .main =>
          if c.ring.remainPack = 0 then some { c with phase := .setReport }
          else some (c.process .ring c.ring.head)
      | .setReport =>
          if c.hidSetReportFlag then some (c.process .report c.hidReportBuffer)
          else some { c with phase := .restart }
      | .restart =>
          some { c with ring := c.ring.restart, phase := .main }
      | .handler src _ _ => some { c with phase := .release src }
      | .calibrate src => some { c with phase := .sample src ⟨val, 0, 0⟩ }
      | .sample src w =>
          if touched w val then
            if w.confirm + 1 ≥ 3 then some { c with phase := .returned src 0x00 }
            else some { c with
              phase := .poll src { w with confirm := w.confirm + 1 } }
          else some { c with phase := .poll src { w with confirm := 0 } }
      | .poll src w =>
          match oobCommand c.ring c.hid with
          | some (hid, _) => some { c with hid := hid, phase := .consume src w }
          | none => some { c with phase := .check src w }
      | .consume src w =>
          some { c with ring := c.ring.dequeue, phase := .check src w }
      | .check src w =>
          if c.hid.cancelRequested then
            some { c with phase := .returned src 0x2D }
          else if w.loops + 1 > 300 then
            some { c with phase := .returned src 0x2F }
          else some { c with
            phase := .sample src { w with loops := w.loops + 1 } }
      | .returned src _ => some { c with phase := .release src }
      | .release .ring =>
          some { c with ring := c.ring.dequeue, phase := .setReport }
      | .release .report =>
          some { c with hidSetReportFlag := false, phase := .restart }

/-! ## The ring -/

namespace Ring

/-- The blocks in use lie between the two pointers, and the endpoint refuses
packets before they meet. -/
structure WellFormed (q : Ring) : Prop where
  deal_lt : q.dealPtr < ringBufferMaxBlks
  load_eq : q.loadPtr = (q.dealPtr + q.remainPack) % ringBufferMaxBlks
  bounded : q.remainPack ≤ ringBufferMaxBlks - ringBufferRemine
  room : q.ack = true → q.remainPack < ringBufferMaxBlks - ringBufferRemine

theorem advance_eq {ptr : ℕ} (h : ptr < ringBufferMaxBlks) :
    advance ptr = (ptr + 1) % ringBufferMaxBlks := by
  have hmax : ringBufferMaxBlks = 16 := rfl
  unfold advance
  rw [hmax] at h ⊢
  split_ifs <;> omega

theorem wellFormed_powerUp : powerUp.WellFormed where
  deal_lt := by decide
  load_eq := by decide
  bounded := by decide
  room := by decide

variable {q : Ring}

theorem WellFormed.enqueue (h : q.WellFormed) (hack : q.ack = true)
    (r : Report) : (q.enqueue r).WellFormed := by
  have hmax : ringBufferMaxBlks = 16 := rfl
  have hremine : ringBufferRemine = 4 := rfl
  have hroom := h.room hack
  have hdeal := h.deal_lt
  have hload := h.load_eq
  have hlt : q.loadPtr < ringBufferMaxBlks := by
    rw [hload]
    exact Nat.mod_lt _ (by decide)
  have hnext : advance q.loadPtr =
      (q.dealPtr + (q.remainPack + 1)) % ringBufferMaxBlks := by
    rw [advance_eq hlt, hload, hmax]
    omega
  unfold Ring.enqueue
  split_ifs with hfull
  · exact ⟨hdeal, hnext, by dsimp only [store]; omega, by simp⟩
  · exact ⟨hdeal, hnext, by dsimp only [store]; omega,
      fun _ => by dsimp only [store]; omega⟩

theorem WellFormed.dequeue (h : q.WellFormed) (hpos : 0 < q.remainPack) :
    q.dequeue.WellFormed := by
  have hmax : ringBufferMaxBlks = 16 := rfl
  have hremine : ringBufferRemine = 4 := rfl
  have hdeal := h.deal_lt
  have hload := h.load_eq
  have hbounded := h.bounded
  constructor
  · change advance q.dealPtr < _
    rw [advance_eq hdeal]
    exact Nat.mod_lt _ (by decide)
  · change q.loadPtr = (advance q.dealPtr + (q.remainPack - 1)) % _
    rw [advance_eq hdeal, hload, hmax]
    omega
  · change q.remainPack - 1 ≤ _
    omega
  · intro hack
    have hroom := h.room hack
    change q.remainPack - 1 < _
    omega

theorem WellFormed.restart (h : q.WellFormed) : q.restart.WellFormed := by
  have hmax : ringBufferMaxBlks = 16 := rfl
  have hremine : ringBufferRemine = 4 := rfl
  have hrestart : ringBufferRestart = 10 := rfl
  unfold Ring.restart
  split_ifs with hlow
  · exact ⟨h.deal_lt, h.load_eq, h.bounded, fun _ => by
      dsimp only
      have hlow := hlow.1
      omega⟩
  · exact h

theorem WellFormed.head_enqueue (h : q.WellFormed) (hack : q.ack = true)
    (hpos : 0 < q.remainPack) (r : Report) : (q.enqueue r).head = q.head := by
  have hmax : ringBufferMaxBlks = 16 := rfl
  have hremine : ringBufferRemine = 4 := rfl
  have hroom := h.room hack
  have hdeal := h.deal_lt
  have hne : q.dealPtr ≠ q.loadPtr := by
    rw [h.load_eq, hmax]
    omega
  unfold Ring.enqueue head
  split_ifs <;> exact Function.update_of_ne hne _ _

theorem remainPack_enqueue (q : Ring) (r : Report) :
    (q.enqueue r).remainPack = q.remainPack + 1 := by
  unfold Ring.enqueue
  split_ifs <;> rfl

end Ring

end UnsoloKey
