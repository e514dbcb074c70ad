import UnsoloKey.RingQueue
import UnsoloKey.TouchWait
import Mathlib.Tactic

/-!
# Endpoint 1 and its ring

The controller writes a packet to the address in its DMA register, before the
interrupt enters the packet into the ring.  The interrupt moves that register along
with `LoadPtr`; a bus reset sets it to the first block and leaves `LoadPtr` where it
is.  A bus reset and the end of a halt make the endpoint accept packets however full
the ring is.  Apart from these, the ring hands over the packets in order.
-/

namespace UnsoloKey

open Trace RingQueue

inductive EndpointResponse where
  | ack
  | nak
  | stall
  deriving DecidableEq

def packSize : ℕ := 64

/-- `UEP1_DMA` is an offset into `Data_Buffer`; a length is at most a packet. -/
structure Endpoint where
  uep1Dma : ℕ
  dataBuffer : Mem
  packLen : ℕ → Fin (packSize + 1)
  loadPtr : ℕ
  dealPtr : ℕ
  remainPack : ℕ
  stopFlag : Bool
  response : EndpointResponse

namespace Endpoint

def powerUp : Endpoint where
  uep1Dma := 0
  dataBuffer := fun _ => 0
  packLen := fun _ => 0
  loadPtr := 0
  dealPtr := 0
  remainPack := 0
  stopFlag := false
  response := .ack

def block (e : Endpoint) (i : ℕ) : Report where
  bytes := e.dataBuffer.slice (packSize * i) (e.packLen i)
  fits := by
    rw [Mem.slice_length]
    exact Nat.lt_succ_iff.1 (e.packLen i).isLt

/-- The ring as the program sees it. -/
def ring (e : Endpoint) : Ring where
  loadPtr := e.loadPtr
  dealPtr := e.dealPtr
  remainPack := e.remainPack
  pack := e.block
  stopFlag := e.stopFlag
  ack := e.response = .ack

/-- The transfer by the controller, and the endpoint 1 branch of the interrupt. -/
def acceptOut (e : Endpoint) (r : Report) : Endpoint :=
  let next := Ring.advance e.loadPtr
  let full : Bool := e.remainPack + 1 ≥ ringBufferMaxBlks - ringBufferRemine
  { dataBuffer := e.dataBuffer.write e.uep1Dma r.bytes
    packLen := Function.update e.packLen e.loadPtr ⟨r.len, Nat.lt_succ_iff.2 r.fits⟩
    loadPtr := next
    uep1Dma := packSize * next
    dealPtr := e.dealPtr
    remainPack := e.remainPack + 1
    stopFlag := e.stopFlag || full
    response := if full then .nak else e.response }

/-- `USBFS_Device_Endp_Init`, which a bus reset calls. -/
def endpInit (e : Endpoint) : Endpoint := { e with uep1Dma := 0, response := .ack }

end Endpoint

/-- Where the main loop is in its test whether the endpoint may accept again. -/
inductive RestartStep where
  | idle
  | low
  | stopped
  | cleared

structure Usb where
  ep : Endpoint
  hid : Hid
  hidReportBuffer : Report
  hidSetReportFlag : Bool
  phase : Phase
  restart : RestartStep

namespace Usb

def powerUp : Usb where
  ep := Endpoint.powerUp
  hid := Hid.powerUp
  hidReportBuffer := System.powerUp.hidReportBuffer
  hidSetReportFlag := false
  phase := .main
  restart := .idle

def view (c : Usb) : System where
  ring := c.ep.ring
  hid := c.hid
  hidReportBuffer := c.hidReportBuffer
  hidSetReportFlag := c.hidSetReportFlag
  phase := c.phase

/-- The program moves `DealPtr` and `RemainPack` only. -/
def follow (c : Usb) (s : System) : Usb where
  ep := { c.ep with dealPtr := s.ring.dealPtr, remainPack := s.ring.remainPack }
  hid := s.hid
  hidReportBuffer := s.hidReportBuffer
  hidSetReportFlag := s.hidSetReportFlag
  phase := s.phase
  restart := c.restart

end Usb

inductive UsbAction where
  | out (r : Report)
  | busReset
  | setHalt
  | clearHalt
  | setReport (r : Report)
  | run (val : ℕ)
  | wait

/-- The end of the main loop; an interrupt can come in between any two of its reads
and writes. -/
def Usb.restartStep (c : Usb) : Usb :=
  match c.restart with
  | .idle =>
      if c.ep.remainPack < ringBufferMaxBlks - ringBufferRestart then
        { c with restart := .low }
      else { c with phase := .main }
  | .low =>
      if c.ep.stopFlag then { c with restart := .stopped }
      else { c with restart := .idle, phase := .main }
  | .stopped => { c with ep := { c.ep with stopFlag := false }, restart := .cleared }
  | .cleared =>
      { c with ep := { c.ep with response := .ack }, restart := .idle, phase := .main }

def Usb.step (c : Usb) : UsbAction → Option Usb
  | .out r =>
      if c.ep.response = .ack then some { c with ep := c.ep.acceptOut r } else none
  | .busReset => some { c with ep := c.ep.endpInit }
  | .setHalt => some { c with ep := { c.ep with response := .stall } }
  | .clearHalt => some { c with ep := { c.ep with response := .ack } }
  | .setReport r => some { c with hidReportBuffer := r, hidSetReportFlag := true }
  | .run val =>
      match c.phase with
      | .restart => some c.restartStep
      | _ => (c.view.step (.run val)).map c.follow
  | .wait => (c.view.step .wait).map c.follow

/-! ## What is accepted and what is handed over -/

def accepted (actions : List UsbAction) : List Report :=
  actions.filterMap fun a => match a with
    | .out r => some r
    | _ => none

/-- The packet of the ring which this step hands to `ProcessCTAPHID`, or which
`Process_OOB_Commands` answers. -/
def Usb.handedBy (c : Usb) : UsbAction → Option Report
  | .run _ => match c.phase with
    | .main => if c.ep.remainPack = 0 then none else some c.ep.ring.head
    | .poll _ _ =>
        if (oobCommand c.ep.ring c.hid).isSome then some c.ep.ring.head else none
    | _ => none
  | _ => none

/-- The number of packets which this step takes out of the ring. -/
def Usb.removedBy (c : Usb) : UsbAction → ℕ
  | .run _ => match c.phase with
    | .consume _ _ | .release .ring => 1
    | _ => 0
  | _ => 0

def Usb.handed (c : Usb) : List UsbAction → List Report
  | [] => []
  | a :: rest => (c.handedBy a).toList ++ ((c.step a).map fun c' => c'.handed rest).getD []

def Usb.removed (c : Usb) : List UsbAction → ℕ
  | [] => 0
  | a :: rest => c.removedBy a + ((c.step a).map fun c' => c'.removed rest).getD 0

/-- What is expected of the ring after these actions. -/
structure Lossless (actions : List UsbAction) (c : Usb) : Prop where
  order : Usb.powerUp.handed actions <+: accepted actions
  bounded : c.ep.remainPack ≤ ringBufferMaxBlks
  count : c.ep.remainPack + Usb.powerUp.removed actions = (accepted actions).length
  dma : c.ep.uep1Dma = packSize * c.ep.loadPtr

/-- No bus reset while `LoadPtr` is not at the first block, and no packet while the
ring is full. -/
def SafeForRing (c : Usb) : UsbAction → Prop
  | .busReset => c.ep.loadPtr = 0
  | .out _ => c.ep.remainPack < ringBufferMaxBlks
  | _ => True

instance (c : Usb) (a : UsbAction) : Decidable (SafeForRing c a) := by
  cases a <;> unfold SafeForRing <;> infer_instance

/-! ## One transfer -/

namespace Endpoint

variable {e : Endpoint}

theorem block_ext {r r' : Report} (h : r.bytes = r'.bytes) : r = r' := by
  cases r
  cases r'
  simp only at h
  subst h
  rfl

theorem block_acceptOut_load (hdma : e.uep1Dma = packSize * e.loadPtr) (r : Report) :
    (e.acceptOut r).block e.loadPtr = r := by
  have hlen : (e.acceptOut r).packLen e.loadPtr = ⟨r.len, Nat.lt_succ_iff.2 r.fits⟩ :=
    Function.update_self _ _ _
  apply block_ext
  change (e.dataBuffer.write e.uep1Dma r.bytes).slice _ ((e.acceptOut r).packLen _) = _
  rw [hlen, hdma]
  exact (Mem.holds_write _ _ _).slice_eq rfl

/-- The blocks lie apart. -/
theorem block_acceptOut_of_ne (hdma : e.uep1Dma = packSize * e.loadPtr) (r : Report)
    {i : ℕ} (hne : i ≠ e.loadPtr) : (e.acceptOut r).block i = e.block i := by
  have hsize : packSize = 64 := rfl
  have hsame : (e.acceptOut r).packLen i = e.packLen i := Function.update_of_ne hne _ _
  apply block_ext
  change (e.dataBuffer.write e.uep1Dma r.bytes).slice _ ((e.acceptOut r).packLen _) =
    e.dataBuffer.slice _ _
  rw [hsame, hdma]
  apply List.ext_getElem (by simp)
  intro j hj _
  have hlen : (e.packLen i : ℕ) ≤ 64 := Nat.lt_succ_iff.1 (e.packLen i).isLt
  have hfits := r.fits
  rw [Mem.slice_length] at hj
  rw [Mem.getElem_slice, Mem.getElem_slice, Mem.write, if_neg]
  rintro ⟨hfrom, hto⟩
  rw [hsize] at hfrom hto
  rcases Nat.lt_or_gt_of_ne hne with hbefore | hafter <;> omega

theorem block_acceptOut (hdma : e.uep1Dma = packSize * e.loadPtr) (r : Report) :
    (e.acceptOut r).block = Function.update e.block e.loadPtr r := by
  funext i
  by_cases hi : i = e.loadPtr
  · rw [hi, block_acceptOut_load hdma, Function.update_self]
  · rw [block_acceptOut_of_ne hdma r hi, Function.update_of_ne hi]

/-- The packets in the ring, the next one first. -/
def contents (e : Endpoint) : List Report :=
  queue e.block ringBufferMaxBlks e.dealPtr e.remainPack

theorem contents_length (e : Endpoint) : e.contents.length = e.remainPack :=
  queue_length _ _ _ _

/-- The indices and the address agree. -/
structure Aligned (e : Endpoint) : Prop where
  dma : e.uep1Dma = packSize * e.loadPtr
  deal_lt : e.dealPtr < ringBufferMaxBlks
  load_eq : e.loadPtr = (e.dealPtr + e.remainPack) % ringBufferMaxBlks
  bounded : e.remainPack ≤ ringBufferMaxBlks

theorem aligned_powerUp : powerUp.Aligned := by
  constructor <;> decide

theorem Aligned.load_lt (h : e.Aligned) : e.loadPtr < ringBufferMaxBlks := by
  rw [h.load_eq]
  exact Nat.mod_lt _ (by decide)

theorem Aligned.acceptOut (h : e.Aligned) (hroom : e.remainPack < ringBufferMaxBlks)
    (r : Report) : (e.acceptOut r).Aligned where
  dma := rfl
  deal_lt := h.deal_lt
  load_eq := by
    change Ring.advance e.loadPtr = (e.dealPtr + (e.remainPack + 1)) % _
    rw [Ring.advance_eq h.load_lt, h.load_eq, Nat.mod_add_mod, Nat.add_assoc]
  bounded := hroom

theorem Aligned.contents_acceptOut (h : e.Aligned)
    (hroom : e.remainPack < ringBufferMaxBlks) (r : Report) :
    (e.acceptOut r).contents = e.contents ++ [r] := by
  change queue (e.acceptOut r).block _ e.dealPtr (e.remainPack + 1) = _
  rw [block_acceptOut h.dma, h.load_eq]
  exact queue_push e.block r hroom

theorem Aligned.head_acceptOut (h : e.Aligned)
    (hroom : e.remainPack < ringBufferMaxBlks) (hpos : 0 < e.remainPack) (r : Report) :
    (e.acceptOut r).ring.head = e.ring.head := by
  apply block_acceptOut_of_ne h.dma
  have hne := @cell_ne _ e.dealPtr _ _ hpos hroom
  rw [Nat.add_zero, Nat.mod_eq_of_lt h.deal_lt, ← h.load_eq] at hne
  exact hne

/-- What the program does to the ring. -/
def dequeue (e : Endpoint) : Endpoint :=
  { e with dealPtr := Ring.advance e.dealPtr, remainPack := e.remainPack - 1 }

theorem Aligned.dequeue (h : e.Aligned) (hpos : 0 < e.remainPack) : e.dequeue.Aligned where
  dma := h.dma
  deal_lt := by
    change Ring.advance e.dealPtr < _
    rw [Ring.advance_eq h.deal_lt]
    exact Nat.mod_lt _ (by decide)
  load_eq := by
    change e.loadPtr = (Ring.advance e.dealPtr + (e.remainPack - 1)) % _
    rw [Ring.advance_eq h.deal_lt, h.load_eq, Nat.mod_add_mod]
    congr 1
    omega
  bounded := (Nat.sub_le _ _).trans h.bounded

theorem Aligned.contents_dequeue (h : e.Aligned) (hpos : 0 < e.remainPack) :
    e.contents = e.ring.head :: e.dequeue.contents := by
  change queue _ _ _ e.remainPack =
    e.block e.dealPtr :: queue e.block _ (Ring.advance e.dealPtr) (e.remainPack - 1)
  rw [Ring.advance_eq h.deal_lt]
  have hpop := queue_pop e.block ringBufferMaxBlks e.dealPtr (e.remainPack - 1)
  rw [Nat.sub_add_cancel hpos, Nat.mod_eq_of_lt h.deal_lt] at hpop
  exact hpop

end Endpoint

/-! ## Every run -/

/-- The packet at `DealPtr` has been handed over already. -/
def Phase.handedOver : Phase → Bool
  | .main | .setReport | .restart => false
  | .consume _ _ => true
  | .handler src _ _ | .calibrate src | .sample src _ | .poll src _ | .check src _
  | .returned src _ | .release src => src = .ring

/-- The packets which are still to be handed over. -/
def Usb.unread (c : Usb) : List Report :=
  if c.phase.handedOver then c.ep.contents.tail else c.ep.contents

/-- `acc` was accepted, `hand` handed over and `rem` packets were taken out. -/
structure Fifo (acc hand : List Report) (rem : ℕ) (c : Usb) : Prop where
  aligned : c.ep.Aligned
  phase : c.phase.Ok c.ep.ring c.hid
  order : acc = hand ++ c.unread
  count : c.ep.remainPack + rem = acc.length

theorem fifo_powerUp : Fifo [] [] 0 Usb.powerUp where
  aligned := Endpoint.aligned_powerUp
  phase := trivial
  order := rfl
  count := rfl

/-- A packet which has been handed over is in the ring. -/
theorem Phase.Ok.pos {q : Ring} {s : Hid} {p : Phase} (h : p.Ok q s)
    (hover : p.handedOver = true) : 0 < q.remainPack := by
  cases p with
  | main | setReport | restart => simp [Phase.handedOver] at hover
  | handler src cid cmd | calibrate src | sample src w | poll src w | check src w
  | returned src status | release src =>
      have hsrc : src = .ring := by simpa [Phase.handedOver] using hover
      subst hsrc
      first
        | exact h.1
        | exact h.1.1
        | exact h
  | consume src w =>
      cases src with
      | ring => exact h.elim
      | report => exact h

variable {acc hand : List Report} {rem : ℕ} {c c' : Usb}

theorem Fifo.out (h : Fifo acc hand rem c) (hroom : c.ep.remainPack < ringBufferMaxBlks)
    (r : Report) : Fifo (acc ++ [r]) hand rem { c with ep := c.ep.acceptOut r } where
  aligned := h.aligned.acceptOut hroom r
  phase := h.phase.mono (Nat.le_succ _) fun hpos => h.aligned.head_acceptOut hroom hpos r
  order := by
    have hcontents := h.aligned.contents_acceptOut hroom r
    rw [h.order, List.append_assoc]
    congr 1
    unfold Usb.unread
    by_cases hover : c.phase.handedOver = true
    · have hpos := h.phase.pos hover
      have hne : c.ep.contents ≠ [] := by
        apply List.ne_nil_of_length_pos
        rw [Endpoint.contents_length]
        exact hpos
      rw [if_pos hover, if_pos hover, hcontents, List.tail_append_of_ne_nil hne]
    · rw [if_neg hover, if_neg hover, hcontents]
  count := by
    have hcount := h.count
    change c.ep.remainPack + 1 + rem = _
    rw [List.length_append, List.length_singleton, ← hcount]
    omega

theorem dispatchPhase_handedOver (src : Source) (msg : Option Message) :
    (dispatchPhase src msg).handedOver = decide (src = .ring) := by
  rcases dispatchPhase_cases src msg with h | ⟨cid, cmd, h⟩
  · rw [h]
    rfl
  · rw [h]
    rfl

/-- What a step of the program means for the packet at `DealPtr`. -/
inductive Usb.Moved (c : Usb) (a : UsbAction) (s : System) : Prop
  | kept (hhanded : c.handedBy a = none) (hremoved : c.removedBy a = 0)
      (hring : s.ring = c.ep.ring) (hover : s.phase.handedOver = c.phase.handedOver)
  | handed (hhanded : c.handedBy a = some c.ep.ring.head) (hremoved : c.removedBy a = 0)
      (hring : s.ring = c.ep.ring) (hpos : 0 < c.ep.remainPack)
      (hbefore : c.phase.handedOver = false) (hafter : s.phase.handedOver = true)
  | removed (hhanded : c.handedBy a = none) (hremoved : c.removedBy a = 1)
      (hring : s.ring = c.ep.ring.dequeue) (hpos : 0 < c.ep.remainPack)
      (hbefore : c.phase.handedOver = true) (hafter : s.phase.handedOver = false)

theorem Usb.moved_run {s : System} {val : ℕ} (hok : c.phase.Ok c.ep.ring c.hid)
    (hphase : c.phase ≠ .restart) (hstep : c.view.step (.run val) = some s) :
    c.Moved (.run val) s := by
  have hring := ring_run hstep
  have hview : c.view.phase = c.phase := rfl
  cases hplace : c.phase with
  | restart => exact absurd hplace hphase
  | main =>
      simp only [System.step, hview, hplace] at hstep hring
      split_ifs at hstep with hempty
      · cases hstep
        exact .kept (by simp [handedBy, hplace, show c.ep.remainPack = 0 from hempty])
          (by simp [removedBy, hplace]) rfl (by simp [hplace, Phase.handedOver])
      · cases hstep
        have hne : c.ep.remainPack ≠ 0 := hempty
        exact .handed (by simp [handedBy, hplace, hne]) (by simp [removedBy, hplace]) rfl
          (Nat.pos_of_ne_zero hne) (by simp [hplace, Phase.handedOver])
          (dispatchPhase_handedOver .ring _)
  | setReport =>
      refine .kept (by simp [handedBy, hplace]) (by simp [removedBy, hplace]) ?_ ?_
      · rw [hring, hview, hplace]
        rfl
      · simp only [System.step, hview, hplace] at hstep ⊢
        split_ifs at hstep
        · cases hstep
          exact dispatchPhase_handedOver .report _
        · cases hstep
          rfl
  | poll src w =>
      simp only [System.step, hview, hplace] at hstep hring
      cases hoob : oobCommand c.ep.ring c.hid with
      | none =>
          have hnone : oobCommand c.view.ring c.view.hid = none := hoob
          rw [hnone] at hstep
          cases hstep
          exact .kept (by simp [handedBy, hplace, hoob]) (by simp [removedBy, hplace]) rfl
            (by rw [hplace]; rfl)
      | some x =>
          have hsome : oobCommand c.view.ring c.view.hid = some x := hoob
          rw [hsome] at hstep
          cases hstep
          refine .handed (by simp [handedBy, hplace, hoob]) (by simp [removedBy, hplace]) rfl
            (oobCommand_pos hoob) ?_ rfl
          rw [hplace] at hok ⊢
          -- a packet of the ring which waits is not answered by the poll
          cases src with
          | ring =>
              rw [oobCommand_deaf hok.1.2] at hoob
              simp at hoob
          | report => rfl
  | consume src w =>
      rw [hplace] at hok
      cases src with
      | ring => exact hok.elim
      | report =>
          simp only [System.step, hview, hplace] at hstep
          cases hstep
          exact .removed (by simp [handedBy, hplace]) (by simp [removedBy, hplace]) rfl hok
            (by rw [hplace]; rfl) rfl
  | release src =>
      rw [hplace] at hok
      simp only [System.step, hview, hplace] at hstep
      cases src with
      | ring =>
          cases hstep
          exact .removed (by simp [handedBy, hplace]) (by simp [removedBy, hplace]) rfl hok
            (by rw [hplace]; rfl) rfl
      | report =>
          cases hstep
          exact .kept (by simp [handedBy, hplace]) (by simp [removedBy, hplace]) rfl
            (by rw [hplace]; rfl)
  | handler src cid cmd | calibrate src | returned src status =>
      simp only [System.step, hview, hplace] at hstep
      cases hstep
      exact .kept (by simp [handedBy, hplace]) (by simp [removedBy, hplace]) rfl
        (by rw [hplace]; rfl)
  | sample src w | check src w =>
      refine .kept (by simp [handedBy, hplace]) (by simp [removedBy, hplace]) ?_ ?_
      · rw [hring, hview, hplace]
        rfl
      · simp only [System.step, hview, hplace] at hstep ⊢
        split_ifs at hstep <;> cases hstep <;> rfl

theorem Usb.follow_ep_eq {s : System} (h : s.ring = c.ep.ring) : (c.follow s).ep = c.ep := by
  unfold Usb.follow
  rw [h]
  rfl

theorem Usb.follow_ep_dequeue {s : System} (h : s.ring = c.ep.ring.dequeue) :
    (c.follow s).ep = c.ep.dequeue := by
  unfold Usb.follow
  rw [h]
  rfl

theorem Fifo.follow {s : System} {a : UsbAction} (h : Fifo acc hand rem c)
    (hmoved : c.Moved a s) (hok : s.phase.Ok s.ring s.hid) :
    Fifo acc (hand ++ (c.handedBy a).toList) (rem + c.removedBy a) (c.follow s) := by
  have hphase : (c.follow s).phase = s.phase := rfl
  have hhid : (c.follow s).hid = s.hid := rfl
  cases hmoved with
  | kept hhanded hremoved hring hover =>
      have hep := Usb.follow_ep_eq hring
      rw [hring] at hok
      rw [hhanded, hremoved, Option.toList_none, List.append_nil]
      exact
        { aligned := by rw [hep]; exact h.aligned
          phase := by rw [hep]; exact hok
          order := by
            unfold Usb.unread
            rw [hep, hphase, hover]
            exact h.order
          count := by rw [hep]; exact h.count }
  | handed hhanded hremoved hring hpos hbefore hafter =>
      have hep := Usb.follow_ep_eq hring
      have horder := h.order
      rw [hring] at hok
      rw [hhanded, hremoved]
      exact
        { aligned := by rw [hep]; exact h.aligned
          phase := by rw [hep]; exact hok
          order := by
            unfold Usb.unread at horder ⊢
            rw [hep, hphase, hafter]
            rw [hbefore, if_neg Bool.false_ne_true, h.aligned.contents_dequeue hpos] at horder
            rw [if_pos rfl, h.aligned.contents_dequeue hpos, List.tail_cons, horder]
            simp
          count := by rw [hep]; exact h.count }
  | removed hhanded hremoved hring hpos hbefore hafter =>
      have hep := Usb.follow_ep_dequeue hring
      have horder := h.order
      have hcount := h.count
      rw [hring] at hok
      rw [hhanded, hremoved, Option.toList_none, List.append_nil]
      exact
        { aligned := by rw [hep]; exact h.aligned.dequeue hpos
          phase := by rw [hep]; exact hok
          order := by
            unfold Usb.unread at horder ⊢
            rw [hep, hphase, hafter, if_neg Bool.false_ne_true]
            rw [hbefore, if_pos rfl, h.aligned.contents_dequeue hpos, List.tail_cons] at horder
            exact horder
          count := by
            rw [hep]
            change c.ep.remainPack - 1 + (rem + 1) = _
            omega }

theorem Fifo.restart (h : Fifo acc hand rem c) (hphase : c.phase = .restart) :
    Fifo acc hand rem c.restartStep := by
  have hover : c.phase.handedOver = false := by
    rw [hphase]
    rfl
  have horder := h.order
  unfold Usb.unread at horder
  rw [hover, if_neg Bool.false_ne_true] at horder
  unfold Usb.restartStep
  cases c.restart with
  | idle =>
      dsimp only
      split_ifs
      · exact ⟨h.aligned, h.phase, h.order, h.count⟩
      · exact ⟨h.aligned, trivial, horder, h.count⟩
  | low =>
      dsimp only
      split_ifs
      · exact ⟨h.aligned, h.phase, h.order, h.count⟩
      · exact ⟨h.aligned, trivial, horder, h.count⟩
  | stopped =>
      have haligned := h.aligned
      refine ⟨⟨haligned.dma, haligned.deal_lt, haligned.load_eq, haligned.bounded⟩, ?_,
        h.order, h.count⟩
      rw [hphase]
      trivial
  | cleared =>
      have haligned := h.aligned
      exact ⟨⟨haligned.dma, haligned.deal_lt, haligned.load_eq, haligned.bounded⟩, trivial,
        horder, h.count⟩

/-- The interrupt changes the answer of the endpoint. -/
theorem Fifo.respond (h : Fifo acc hand rem c) (response : EndpointResponse) :
    Fifo acc hand rem { c with ep := { c.ep with response := response } } := by
  have haligned := h.aligned
  exact ⟨⟨haligned.dma, haligned.deal_lt, haligned.load_eq, haligned.bounded⟩,
    h.phase.mono le_rfl fun _ => rfl, h.order, h.count⟩

theorem Fifo.busReset (h : Fifo acc hand rem c) (hload : c.ep.loadPtr = 0) :
    Fifo acc hand rem { c with ep := c.ep.endpInit } := by
  have haligned := h.aligned
  refine ⟨⟨?_, haligned.deal_lt, haligned.load_eq, haligned.bounded⟩,
    h.phase.mono le_rfl fun _ => rfl, h.order, h.count⟩
  change 0 = packSize * c.ep.loadPtr
  rw [hload, Nat.mul_zero]

/-- A step which neither accepts, hands over nor removes a packet. -/
theorem Fifo.quiet {a : UsbAction} (h : Fifo acc hand rem c') (hacc : accepted [a] = [])
    (hhanded : c.handedBy a = none) (hremoved : c.removedBy a = 0) :
    Fifo (acc ++ accepted [a]) (hand ++ (c.handedBy a).toList) (rem + c.removedBy a) c' := by
  rw [hacc, hhanded, hremoved, Option.toList_none, List.append_nil, List.append_nil]
  exact h

theorem fifo_step {a : UsbAction} (h : Fifo acc hand rem c) (hsafe : SafeForRing c a)
    (hstep : c.step a = some c') :
    Fifo (acc ++ accepted [a]) (hand ++ (c.handedBy a).toList) (rem + c.removedBy a) c' := by
  cases a with
  | out r =>
      simp only [Usb.step] at hstep
      split_ifs at hstep
      cases hstep
      rw [show (c.handedBy (.out r)).toList = [] from rfl, List.append_nil]
      exact h.out hsafe r
  | busReset =>
      cases hstep
      exact (h.busReset hsafe).quiet rfl rfl rfl
  | setHalt =>
      cases hstep
      exact (h.respond .stall).quiet rfl rfl rfl
  | clearHalt =>
      cases hstep
      exact (h.respond .ack).quiet rfl rfl rfl
  | setReport r =>
      cases hstep
      have hsame : Fifo acc hand rem { c with hidReportBuffer := r, hidSetReportFlag := true } :=
        ⟨h.aligned, h.phase, h.order, h.count⟩
      exact hsame.quiet rfl rfl rfl
  | run val =>
      by_cases hphase : c.phase = .restart
      · have hrestart : c.step (.run val) = some c.restartStep := by
          simp [Usb.step, hphase]
        rw [hrestart, Option.some.injEq] at hstep
        rw [← hstep]
        exact (h.restart hphase).quiet rfl (by simp [Usb.handedBy, hphase])
          (by simp [Usb.removedBy, hphase])
      · have hprogram : c.step (.run val) = (c.view.step (.run val)).map c.follow := by
          cases hplace : c.phase with
          | restart => exact absurd hplace hphase
          | _ => simp only [Usb.step, hplace]
        rw [hprogram, Option.map_eq_some_iff] at hstep
        rcases hstep with ⟨s, hs, hfollow⟩
        rw [show accepted [UsbAction.run val] = [] from rfl, List.append_nil, ← hfollow]
        exact h.follow (Usb.moved_run h.phase hphase hs) (phaseOk_run h.phase hs)
  | wait =>
      rw [show accepted [UsbAction.wait] = [] from rfl, List.append_nil]
      rcases Option.map_eq_some_iff.1 hstep with ⟨s, hs, hfollow⟩
      rw [← hfollow]
      have hok := h.phase
      cases hplace : c.phase with
      | handler src cid cmd =>
          simp only [System.step, show c.view.phase = _ from hplace] at hs
          split_ifs at hs
          cases hs
          refine h.follow (.kept rfl rfl rfl ?_) ?_
          · rw [hplace]
            rfl
          · rw [hplace] at hok
            cases src with
            | ring => exact ⟨hok, rfl⟩
            | report => trivial
      | _ => simp [System.step, show c.view.phase = _ from hplace] at hs

theorem accepted_cons (a : UsbAction) (actions : List UsbAction) :
    accepted (a :: actions) = accepted [a] ++ accepted actions := by
  unfold accepted
  rw [← List.filterMap_append, List.singleton_append]

theorem fifo_run {actions : List UsbAction} (h : Fifo acc hand rem c)
    (hrun : Run Usb.step c actions c') (hsafe : Run.Guarded Usb.step SafeForRing c actions) :
    Fifo (acc ++ accepted actions) (hand ++ c.handed actions) (rem + c.removed actions) c' := by
  induction actions generalizing c acc hand rem with
  | nil =>
      rw [Run.nil_iff] at hrun
      subst hrun
      simpa [accepted, Usb.handed, Usb.removed] using h
  | cons a rest ih =>
      rcases Run.cons_iff.1 hrun with ⟨d, hstep, hrest⟩
      rw [Run.guarded_cons] at hsafe
      have hnext := ih (fifo_step h hsafe.1 hstep) hrest (hsafe.2 d hstep)
      simp only [Usb.handed, Usb.removed, hstep, Option.map_some, Option.getD_some]
      rw [accepted_cons, ← List.append_assoc, ← List.append_assoc, ← Nat.add_assoc]
      exact hnext

theorem lossless_of_fifo {actions : List UsbAction} {c : Usb}
    (h : Fifo (accepted actions) (Usb.powerUp.handed actions)
      (Usb.powerUp.removed actions) c) : Lossless actions c where
  order := ⟨_, h.order.symm⟩
  bounded := h.aligned.bounded
  count := h.count
  dma := h.aligned.dma

/-- A step which is not safe leads to a state which is not as expected. -/
theorem safe_of_lossless {actions : List UsbAction} {a : UsbAction}
    (hstep : c.step a = some c') (h : Lossless (actions ++ [a]) c') : SafeForRing c a := by
  cases a with
  | out r =>
      simp only [Usb.step] at hstep
      split_ifs at hstep
      cases hstep
      exact h.bounded
  | busReset =>
      cases hstep
      have hdma : 0 = packSize * c.ep.loadPtr := h.dma
      rw [show packSize = 64 from rfl] at hdma
      change c.ep.loadPtr = 0
      omega
  | _ => trivial

/-- The ring is a lossless queue all along a run from power-up exactly when every step
of the run is safe for it. -/
theorem endpointRing_lossless {actions : List UsbAction} {c : Usb}
    (hrun : Run Usb.step Usb.powerUp actions c) :
    (∀ before after c', actions = before ++ after → Run Usb.step Usb.powerUp before c' →
      Lossless before c') ↔
    Run.Guarded Usb.step SafeForRing Usb.powerUp actions := by
  constructor
  · intro h before a after t hsplit hbefore
    rw [hsplit] at hrun
    rcases Run.append_iff.1 hrun with ⟨u, hu, hrest⟩
    rw [hu.unique hbefore] at hrest
    rcases Run.cons_iff.1 hrest with ⟨v, hstep, -⟩
    have hprefix : actions = (before ++ [a]) ++ after := by
      rw [hsplit, List.append_cons]
    exact safe_of_lossless hstep (h _ after v hprefix (hbefore.snoc hstep))
  · intro hsafe before after c' hsplit hbefore
    rw [hsplit] at hsafe
    have hfifo := fifo_run fifo_powerUp hbefore hsafe.left
    rw [List.nil_append, List.nil_append, Nat.zero_add] at hfifo
    exact lossless_of_fifo hfifo

/-- A packet, whose request takes three steps of the program, and a reset of the bus. -/
def packetThenReset : List UsbAction := [.out cancelPacket, .run 0, .run 0, .busReset]

theorem packetThenReset_runs : ∃ c, Run Usb.step Usb.powerUp packetThenReset c ∧
    c.ep.uep1Dma = 0 ∧ c.ep.loadPtr = 1 := by
  have hfinal : (exec Usb.step Usb.powerUp packetThenReset).map
      (fun c => (c.ep.uep1Dma, c.ep.loadPtr)) = some (0, 1) := rfl
  rcases Option.map_eq_some_iff.1 hfinal with ⟨c, hc, hpair⟩
  rw [Prod.mk.injEq] at hpair
  exact ⟨c, Run.exec_iff.1 hc, hpair⟩

/-- After a reset of the bus the controller writes into the first block, whichever
block is next. -/
theorem endpointRing_reset : ¬ ∀ actions c, Run Usb.step Usb.powerUp actions c →
    Lossless actions c := by
  intro h
  rcases packetThenReset_runs with ⟨c, hrun, hdma, hload⟩
  have hslot := (h _ c hrun).dma
  rw [hdma, hload] at hslot
  simp [packSize] at hslot

/-- The same packet, twice, with no reset. -/
theorem endpointRing_lossless_twice : ∃ c, Run Usb.step Usb.powerUp
      [.busReset, .out cancelPacket, .out cancelPacket, .run 0] c ∧
    Lossless [.busReset, .out cancelPacket, .out cancelPacket, .run 0] c := by
  have hfinal : (exec Usb.step Usb.powerUp
      [.busReset, .out cancelPacket, .out cancelPacket, .run 0]).isSome = true := rfl
  rcases Option.isSome_iff_exists.1 hfinal with ⟨c, hc⟩
  rw [Run.exec_iff] at hc
  have hsafe : Run.Guarded Usb.step SafeForRing Usb.powerUp
      [.busReset, .out cancelPacket, .out cancelPacket, .run 0] :=
    Run.guarded_of_check rfl
  exact ⟨c, hc, (endpointRing_lossless hc).2 hsafe _ [] c (by simp) hc⟩

end UnsoloKey
