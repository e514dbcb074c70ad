import UnsoloKey.EndpointRing
import UnsoloKey.Flash
import Mathlib.Tactic

/-!
# The control endpoint

The branches of the interrupt for endpoint 0.  A token is an event of the controller: an
`IN` token is answered from the buffer where the endpoint has it ready, and the interrupt
follows when the host has acknowledged the packet.  What the other endpoints and the
program do between two of these is any change of what they share.  The handler is `none`
where a `memcpy` would leave an array.
-/

namespace UnsoloKey

/-! ## The descriptors -/

def endp0Size : ℕ := 64

def myDevDescr : List UInt8 :=
  [0x12, 0x01, 0x10, 0x01, 0x00, 0x00, 0x00, 0x40, 0x86, 0x1A, 0x07, 0xFE, 0x00, 0x01, 0x01, 0x02,
    0x03, 0x01]

def myCfgDescr : List UInt8 :=
  [0x09, 0x02, 0x29, 0x00, 0x01, 0x01, 0x03, 0x80, 0x23,
    0x09, 0x04, 0x00, 0x00, 0x02, 0x03, 0x00, 0x00, 0x00,
    0x09, 0x21, 0x11, 0x01, 0x00, 0x01, 0x22, 0x22, 0x00,
    0x07, 0x05, 0x01, 0x03, 0x40, 0x00, 0x05,
    0x07, 0x05, 0x82, 0x03, 0x40, 0x00, 0x05]

def myHidReportDesc : List UInt8 :=
  [0x06, 0xD0, 0xF1, 0x09, 0x01, 0xA1, 0x01, 0x09, 0x20, 0x15, 0x00, 0x26, 0xFF, 0x00, 0x75, 0x08,
    0x95, 0x40, 0x81, 0x02, 0x09, 0x21, 0x15, 0x00, 0x26, 0xFF, 0x00, 0x75, 0x08, 0x95, 0x40, 0x91,
    0x02, 0xC0]

def myLangDescr : List UInt8 := [0x04, 0x03, 0x09, 0x04]

def myManuInfo : List UInt8 :=
  [0x0E, 0x03, 0x41, 0, 0x6E, 0, 0x74, 0, 0x69, 0, 0x67, 0, 0x72, 0]

def myProdInfo : List UInt8 :=
  [0x12, 0x03, 0x46, 0, 0x49, 0, 0x44, 0, 0x4F, 0, 0x32, 0, 0x20, 0, 0x4B, 0, 0x65, 0, 0x79, 0]

def mySerNumInfo : List UInt8 :=
  [0x16, 0x03, 0x30, 0, 0x31, 0, 0x32, 0, 0x33, 0, 0x34, 0, 0x35, 0, 0x36, 0, 0x37, 0, 0x38, 0,
    0x39, 0]

/-! ## The state -/

structure SetupReq where
  bRequestType : UInt8
  bRequest : UInt8
  wValue : UInt16
  wIndex : UInt16
  wLength : UInt16
  deriving DecidableEq

namespace SetupReq

def bytes (r : SetupReq) : List UInt8 :=
  [r.bRequestType, r.bRequest, r.wValue.toUInt8, (r.wValue >>> 8).toUInt8,
    r.wIndex.toUInt8, (r.wIndex >>> 8).toUInt8, r.wLength.toUInt8, (r.wLength >>> 8).toUInt8]

def typ (r : SetupReq) : UInt8 := r.bRequestType &&& 0x60

def recip (r : SetupReq) : UInt8 := r.bRequestType &&& 0x1F

def isIn (r : SetupReq) : Prop := r.bRequestType &&& 0x80 ≠ 0

instance (r : SetupReq) : Decidable r.isIn := by
  unfold isIn
  infer_instance

/-- The array which `GET_DESCRIPTOR` points into, from there on, and the length it sends. -/
def descriptor (r : SetupReq) : Option (List UInt8 × ℕ) :=
  match (r.wValue >>> 8).toUInt8 with
  | 0x01 => some (myDevDescr, 18)
  | 0x02 => some (myCfgDescr, 41)
  | 0x22 => if r.wIndex = 0 then some (myHidReportDesc, 34) else none
  | 0x21 => if r.wIndex = 0 then some (myCfgDescr.drop 18, 9) else none
  | 0x03 =>
      match r.wValue.toUInt8 with
      | 0 => some (myLangDescr, 4)
      | 1 => some (myManuInfo, 14)
      | 2 => some (myProdInfo, 20)
      | 3 => some (mySerNumInfo, 22)
      | _ => none
  | _ => none

end SetupReq

/-- `UEPn_CTRL_H`: the toggles and what the controller answers. -/
structure EndpointControl where
  tTog : Bool
  tRes : EndpointResponse
  rTog : Bool
  rRes : EndpointResponse

/-- `descr` is what is left of the array under `pUSBFS_Descr`. -/
structure ControlEndpoint where
  ep0Buf : Bytes endp0Size
  uep0 : EndpointControl
  uep0TxLen : ℕ
  descr : List UInt8
  setupReq : SetupReq
  setupReqLen : ℕ
  devConfig : UInt8
  devAddr : UInt8
  devSleepStatus : UInt8
  devEnumStatus : UInt8
  hidIdle : UInt8
  hidProtocol : UInt8
  devAddrReg : UInt8
  uep1 : EndpointControl
  uep2 : EndpointControl
  hidReportBuffer : Bytes 64
  hidSetReportFlag : Bool

/-- What the rest of the firmware changes. -/
structure SharedState where
  uep1 : EndpointControl
  uep2 : EndpointControl
  hidReportBuffer : Bytes 64
  hidSetReportFlag : Bool

/-- `heard` and `acked`: whether the packet and the acknowledgement arrive. -/
inductive ControlEvent where
  | setup (r : SetupReq)
  | inToken (heard acked : Bool)
  | outToken (tog : Bool) (r : Report)
  | busReset
  | suspend (suspended : Bool)
  | other (shared : SharedState)

namespace Bytes

variable {n : ℕ}

/-- A copy of the bytes to the front of the array. -/
def overwrite (b : Bytes n) (bs : List UInt8) (h : bs.length ≤ n) : Bytes n :=
  ⟨bs ++ b.val.drop bs.length, by simp [h]⟩

/-- `memcpy` of that many bytes, where both arrays have them. -/
def memcpy (b : Bytes n) (src : List UInt8) (len : ℕ) : Option (Bytes n) :=
  if h : len ≤ n ∧ len ≤ src.length then
    some (b.overwrite (src.take len) ((List.length_take_le _ _).trans h.1))
  else none

theorem take_overwrite {b : Bytes n} {bs : List UInt8} {h : bs.length ≤ n} {len : ℕ}
    (hlen : len ≤ bs.length) : (b.overwrite bs h).val.take len = bs.take len :=
  List.take_append_of_le_length hlen

theorem memcpy_run {b : Bytes n} {src : List UInt8} {len : ℕ} (hn : len ≤ n)
    (hsrc : len ≤ src.length) :
    ∃ b', b.memcpy src len = some b' ∧ b'.val.take len = src.take len := by
  have hlength : (src.take len).length = len := List.length_take_of_le hsrc
  refine ⟨_, dif_pos ⟨hn, hsrc⟩, ?_⟩
  rw [take_overwrite hlength.ge, List.take_take, min_self]

end Bytes

namespace ControlEndpoint

def uepInit : EndpointControl where
  tTog := false
  tRes := .nak
  rTog := false
  rRes := .ack

/-- `UEP1_CTRL_H` is all zero, which is `ACK` for both directions. -/
def uep1Init : EndpointControl := { uepInit with tRes := .ack }

def powerUp : ControlEndpoint where
  ep0Buf := Bytes.fill 0 _ []
  uep0 := uepInit
  uep0TxLen := 0
  descr := []
  setupReq := ⟨0, 0, 0, 0, 0⟩
  setupReqLen := 0
  devConfig := 0
  devAddr := 0
  devSleepStatus := 0
  devEnumStatus := 0
  hidIdle := 0
  hidProtocol := 0
  devAddrReg := 0
  uep1 := uep1Init
  uep2 := uepInit
  hidReportBuffer := Bytes.fill 0 _ []
  hidSetReportFlag := false

/-! ## Setup -/

variable (s : ControlEndpoint)

/-- The controller writes the packet into the buffer, and the handler stores its fields. -/
def storeSetup (r : SetupReq) : ControlEndpoint :=
  { s with
    ep0Buf := s.ep0Buf.overwrite r.bytes (by decide : 8 ≤ endp0Size)
    uep0 := { tTog := true, tRes := .nak, rTog := true, rRes := .nak }
    setupReq := r
    setupReqLen := r.wLength.toNat }

/-- A state and whether `errflag` is set. -/
abbrev Handled : Type := ControlEndpoint × Bool

def put (bs : List UInt8) (h : bs.length ≤ endp0Size) : ControlEndpoint :=
  { s with ep0Buf := s.ep0Buf.overwrite bs h }

/-- The requests of the HID class, which name the interface 0. -/
def classRequest : Handled :=
  match s.setupReq.bRequest with
  | 0x09 => (s, false)
  | 0x01 =>
      if s.setupReq.wIndex = 0 then
        (s.put s.hidReportBuffer.val (Bytes.length_val _).le, false)
      else (s, true)
  | 0x0A =>
      if s.setupReq.wIndex = 0 then ({ s with hidIdle := s.ep0Buf.val.getD 3 0 }, false)
      else (s, true)
  | 0x0B =>
      if s.setupReq.wIndex = 0 then ({ s with hidProtocol := s.ep0Buf.val.getD 2 0 }, false)
      else (s, true)
  | 0x02 =>
      if s.setupReq.wIndex = 0 then (s.put [s.hidIdle] (by simp [endp0Size]), false)
      else (s, true)
  | 0x03 =>
      if s.setupReq.wIndex = 0 then (s.put [s.hidProtocol] (by simp [endp0Size]), false)
      else (s, true)
  | _ => (s, true)

def atMost (len : ℕ) : ControlEndpoint := { s with setupReqLen := min s.setupReqLen len }

def getDescriptor : Option Handled :=
  let found := (s.setupReq.descriptor).getD (s.descr, 0)
  let s := { s with descr := found.1 }.atMost found.2
  let len := min s.setupReqLen endp0Size
  (s.ep0Buf.memcpy s.descr len).map fun buf =>
    ({ s with ep0Buf := buf, descr := s.descr.drop len }, s.setupReq.descriptor.isNone)

def clearFeature : Handled :=
  if s.setupReq.recip = 0x00 then
    if s.setupReq.wValue.toUInt8 = 0x01 then
      ({ s with devSleepStatus := s.devSleepStatus &&& 0xFE }, false)
    else (s, false)
  else if s.setupReq.recip = 0x02 then
    if s.setupReq.wValue.toUInt8 = 0x00 then
      match s.setupReq.wIndex.toUInt8 with
      | 0x01 => ({ s with uep1 := uep1Init }, false)
      | 0x82 => ({ s with uep2 := uepInit }, false)
      | _ => (s, true)
    else (s, true)
  else (s, true)

def setFeature : Handled :=
  if s.setupReq.recip = 0x00 then
    if s.setupReq.wValue.toUInt8 = 0x01 then
      if myCfgDescr.getD 7 0 &&& 0x20 ≠ 0 then
        ({ s with devSleepStatus := s.devSleepStatus ||| 0x01 }, false)
      else (s, true)
    else (s, true)
  else if s.setupReq.recip = 0x02 then
    if s.setupReq.wValue.toUInt8 = 0x00 then
      match s.setupReq.wIndex.toUInt8 with
      | 0x01 => ({ s with uep1 := { s.uep1 with rRes := .stall } }, false)
      | 0x82 => ({ s with uep2 := { s.uep2 with tRes := .stall } }, false)
      | _ => (s, true)
    else (s, true)
  else (s, true)

/-- The first byte which `GET_STATUS` answers with. -/
def status (r : SetupReq) : Option UInt8 :=
  if r.recip = 0x00 then some (if s.devSleepStatus &&& 0x01 ≠ 0 then 0x02 else 0x00)
  else if r.recip = 0x02 then
    if r.wIndex.toUInt8 = 0x01 then some (if s.uep1.rRes = .stall then 0x01 else 0x00)
    else if r.wIndex.toUInt8 = 0x82 then some (if s.uep2.tRes = .stall then 0x01 else 0x00)
    else none
  else none

def getStatus : Handled :=
  (((s.put [(s.status s.setupReq).getD 0, 0] (by simp [endp0Size])).atMost 2),
    (s.status s.setupReq).isNone)

def standardRequest : Option Handled :=
  match s.setupReq.bRequest with
  | 0x06 => s.getDescriptor
  | 0x05 => some ({ s with devAddr := s.setupReq.wValue.toUInt8 }, false)
  | 0x08 => some ((s.put [s.devConfig] (by simp [endp0Size])).atMost 1, false)
  | 0x09 => some ({ s with devConfig := s.setupReq.wValue.toUInt8, devEnumStatus := 1 }, false)
  | 0x01 => some s.clearFeature
  | 0x03 => some s.setFeature
  | 0x0A => some ((s.put [0] (by simp [endp0Size])).atMost 1, false)
  | 0x0B => some (s, false)
  | 0x00 => some s.getStatus
  | _ => some (s, true)

def request : Option Handled :=
  if s.setupReq.typ ≠ 0x00 then
    some (if s.setupReq.typ = 0x20 then s.classRequest else (s, false))
  else s.standardRequest

/-- The end of the setup branch: a stall, or the data or status stage. -/
def answerSetup (err : Bool) : ControlEndpoint :=
  if err then { s with uep0 := { tTog := true, tRes := .stall, rTog := true, rRes := .stall } }
  else if s.setupReq.isIn then
    { s with
      setupReqLen := s.setupReqLen - min s.setupReqLen endp0Size
      uep0TxLen := min s.setupReqLen endp0Size
      uep0 := { s.uep0 with tTog := true, tRes := .ack } }
  else if s.setupReqLen = 0 then
    { s with uep0TxLen := 0, uep0 := { s.uep0 with tTog := true, tRes := .ack } }
  else { s with uep0 := { s.uep0 with rTog := true, rRes := .ack } }

def onSetup (r : SetupReq) : Option ControlEndpoint :=
  (s.storeSetup r).request.map fun h => h.1.answerSetup h.2

/-! ## The other tokens -/

def sendDescriptor : Option ControlEndpoint :=
  let len := min s.setupReqLen endp0Size
  (s.ep0Buf.memcpy s.descr len).map fun buf =>
    { s with
      ep0Buf := buf
      setupReqLen := s.setupReqLen - len
      descr := s.descr.drop len
      uep0TxLen := len
      uep0 := { s.uep0 with tTog := !s.uep0.tTog } }

/-- The data that is left over allows a status stage. -/
def openStatus : ControlEndpoint :=
  if s.setupReqLen = 0 then { s with uep0 := { s.uep0 with rTog := true, rRes := .ack } } else s

def setAddress : ControlEndpoint :=
  { s with devAddrReg := (s.devAddrReg &&& 0x80) ||| s.devAddr }

def onIn : Option ControlEndpoint :=
  let s := s.openStatus
  if s.setupReq.typ ≠ 0x00 then some s
  else match s.setupReq.bRequest with
    | 0x06 => s.sendDescriptor
    | 0x05 => some s.setAddress
    | _ => some s

/-- The controller writes the packet into the buffer, whatever its toggle. -/
def onOut (tog : Bool) (r : Report) : ControlEndpoint :=
  let s := s.put r.bytes r.fits
  if tog = s.uep0.rTog ∧ s.setupReq.typ = 0x20 ∧ s.setupReq.bRequest = 0x09 then
    { s with
      hidReportBuffer := s.ep0Buf
      hidSetReportFlag := true
      uep0TxLen := 0
      uep0 := { tTog := true, tRes := .ack, rTog := true, rRes := .ack } }
  else s

def onBusReset : ControlEndpoint :=
  { s with
    devConfig := 0
    devAddr := 0
    devSleepStatus := 0
    devEnumStatus := 0
    devAddrReg := 0
    uep0 := uepInit
    uep1 := uep1Init
    uep2 := uepInit }

def onSuspend (suspended : Bool) : ControlEndpoint :=
  { s with
    devSleepStatus :=
      if suspended then s.devSleepStatus ||| 0x02 else s.devSleepStatus &&& 0xFD }

def share (shared : SharedState) : ControlEndpoint :=
  { s with
    uep1 := shared.uep1
    uep2 := shared.uep2
    hidReportBuffer := shared.hidReportBuffer
    hidSetReportFlag := shared.hidSetReportFlag }

/-- What the controller lets happen: it answers a token for itself unless the endpoint
is ready for it. -/
def Enabled : ControlEvent → Prop
  | .inToken heard acked => s.uep0.tRes = .ack ∧ (acked → heard)
  | .outToken _ _ => s.uep0.rRes = .ack
  | _ => True

instance (e : ControlEvent) : Decidable (s.Enabled e) := by
  cases e <;> unfold Enabled <;> infer_instance

/-- `USBFS_IRQHandler` for endpoint 0, and the rest of the firmware. -/
def irqHandler : ControlEvent → Option ControlEndpoint
  | .setup r => s.onSetup r
  | .inToken _ acked => if acked then s.onIn else some s
  | .outToken tog r => some (s.onOut tog r)
  | .busReset => some s.onBusReset
  | .suspend suspended => some (s.onSuspend suspended)
  | .other shared => some (s.share shared)

def step (e : ControlEvent) : Option ControlEndpoint :=
  if s.Enabled e then s.irqHandler e else none

/-- The packet which an `IN` token gets. -/
def offered : Option (Bool × List UInt8) :=
  if s.uep0.tRes = .ack then some (s.uep0.tTog, s.ep0Buf.val.take s.uep0TxLen) else none

end ControlEndpoint

end UnsoloKey
