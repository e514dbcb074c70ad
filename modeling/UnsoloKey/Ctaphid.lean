import UnsoloKey.Reader
import UnsoloKey.CborScan
import Mathlib.Tactic

/-!
# CTAPHID transport

`ProcessCTAPHID` is fed one report at a time.  It keeps the message which is
being received in six globals and the request buffer, and hands over a
complete message to the command it names.  The functions here follow its exits
one by one: `receiveInit` and `receiveContinuation` end with `none` where the
source returns before its completeness test.
-/

namespace UnsoloKey

/-- The bytes of a report which count, at most a packet of 64. -/
structure Report where
  bytes : List UInt8
  fits : bytes.length ≤ 64

namespace Report

def len (r : Report) : ℕ := r.bytes.length

def byte (r : Report) (i : ℕ) : UInt8 := r.bytes.getD i 0

def cid (r : Report) : ℕ :=
  16777216 * (r.byte 0).toNat + 65536 * (r.byte 1).toNat +
    256 * (r.byte 2).toNat + (r.byte 3).toNat

def payloadLen (r : Report) : ℕ := 256 * (r.byte 5).toNat + (r.byte 6).toNat

end Report

def ctapReqBufSize : ℕ := 1024

structure Hid where
  reqBuf : Mem
  reqLen : ℕ
  expectedLen : ℕ
  seq : UInt8
  cid : ℕ
  cmd : UInt8
  allocatedCid : ℕ
  currentCid : ℕ
  cancelRequested : Bool

def Hid.powerUp : Hid where
  reqBuf := fun _ => 0
  reqLen := 0
  expectedLen := 0
  seq := 0
  cid := 0
  cmd := 0
  allocatedCid := 0xCAFEBABE
  currentCid := 0
  cancelRequested := false

/-- A complete message: the request buffer counts up to `len`. -/
structure Message where
  cid : ℕ
  cmd : UInt8
  buf : Mem
  len : ℕ

def Message.payload (msg : Message) : List UInt8 := msg.buf.slice 0 msg.len

/-- What becomes of a message: a CBOR request, or a reply sent at once. -/
inductive Dispatch where
  | cbor (cid : ℕ) (req : Mem) (reqLen : ℕ)
  | reply (cid : ℕ) (cmd : UInt8) (payload : List UInt8)

def be32Bytes (n : ℕ) : List UInt8 :=
  [UInt8.ofNat (n / 16777216), UInt8.ofNat (n / 65536), UInt8.ofNat (n / 256),
    UInt8.ofNat n]

/-- The reply to CTAPHID_INIT: the nonce, the channel and the device. -/
def initReply (buf : Mem) (respCid : ℕ) : List UInt8 :=
  buf.slice 0 8 ++ be32Bytes respCid ++ [2, 1, 0, 0, 0x04 ||| 0x01 ||| 0x08]

/-- The command switch at the end of `ProcessCTAPHID`, with the channel
allocated afterwards. -/
def dispatch (allocatedCid : ℕ) (msg : Message) : ℕ × Dispatch :=
  if msg.cmd = 0x90 then
    (allocatedCid, .cbor msg.cid msg.buf msg.len)
  else if msg.cmd = 0x86 then
    if msg.cid = 0xFFFFFFFF then
      (allocatedCid, .reply msg.cid msg.cmd (initReply msg.buf allocatedCid))
    else
      (msg.cid, .reply msg.cid msg.cmd (initReply msg.buf msg.cid))
  else if msg.cmd = 0x81 then
    (allocatedCid, .reply msg.cid msg.cmd msg.payload)
  else if msg.cmd = 0x88 ∨ msg.cmd = 0x84 then
    (allocatedCid, .reply msg.cid msg.cmd [])
  else
    (allocatedCid, .reply msg.cid 0xBF [0x01])

/-- The initialization packet branch. -/
def receiveInit (s : Hid) (r : Report) : Option Hid :=
  if r.len < 7 then none
  else if r.payloadLen > ctapReqBufSize then none
  else
    let chunkLen := r.len - 7
    let reqLen := if chunkLen > r.payloadLen then r.payloadLen else chunkLen
    some { s with
      cid := r.cid
      cmd := r.byte 4
      expectedLen := r.payloadLen
      reqLen := reqLen
      reqBuf := s.reqBuf.write 0 ((r.bytes.drop 7).take reqLen)
      seq := 0 }

/-- The continuation packet branch; the second component tells whether the
completeness test is reached. -/
def receiveContinuation (s : Hid) (r : Report) : Hid × Bool :=
  if r.cid ≠ s.cid ∨ s.expectedLen = 0 then (s, false)
  else if r.byte 4 ≠ s.seq then ({ s with expectedLen := 0 }, false)
  else
    let chunkLen := r.len - 5
    let remain := u16 (s.expectedLen + 65536 - s.reqLen)
    let copyLen := if chunkLen > remain then remain else chunkLen
    ({ s with
      seq := s.seq + 1
      reqBuf := s.reqBuf.write s.reqLen ((r.bytes.drop 5).take copyLen)
      reqLen := u16 (s.reqLen + copyLen) }, true)

/-- The completeness test: a complete message is dispatched, and the state
reset for the next one. -/
def complete (s : Hid) (cid : ℕ) : Hid × Option Message :=
  if s.reqLen = s.expectedLen ∧ s.cmd &&& 0x80 ≠ 0 then
    let msg : Message := ⟨cid, s.cmd, s.reqBuf, s.expectedLen⟩
    ({ s with
      allocatedCid := (dispatch s.allocatedCid msg).1
      expectedLen := 0
      cmd := 0 }, some msg)
  else (s, none)

/-- `ProcessCTAPHID`, with the message it dispatches. -/
def processCtaphid (s : Hid) (r : Report) : Hid × Option Message :=
  if r.len < 5 then (s, none)
  else
    let s := { s with currentCid := r.cid }
    if r.byte 4 = 0x91 then ({ s with cancelRequested := true }, none)
    else if r.byte 4 &&& 0x80 ≠ 0 then
      match receiveInit s r with
      | none => (s, none)
      | some s => complete s r.cid
    else
      match receiveContinuation s r with
      | (s, false) => (s, none)
      | (s, true) => complete s r.cid

def hidAfter (reports : List Report) : Hid :=
  reports.foldl (fun s r => (processCtaphid s r).1) Hid.powerUp

/-- The messages which the reports make it dispatch, in order. -/
def messages (s : Hid) : List Report → List Message
  | [] => []
  | r :: rest => (processCtaphid s r).2.toList ++ messages (processCtaphid s r).1 rest

end UnsoloKey
