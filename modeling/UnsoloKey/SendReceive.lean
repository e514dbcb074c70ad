import UnsoloKey.ChannelIsolation
import UnsoloKey.Flash
import Mathlib.Tactic

/-!
# Sending and receiving

`ctap_send_response` cuts a message into one initialization frame of 57 bytes and
continuation frames of 59 bytes.  `ProcessCTAPHID`, fed with these frames, puts the
message together again.
-/

namespace UnsoloKey

/-! ## `ctap_send_response` -/

/-- The endpoint buffer: cleared, then filled with the channel, a header and data. -/
def frame (cid : ℕ) (header data : List UInt8) : Report where
  bytes := (Bytes.fill 0 64 (be32Bytes cid ++ (header ++ data))).val
  fits := by simp

def initChunk (payloadLen : ℕ) : ℕ := if payloadLen > 57 then 57 else payloadLen

def initFrame (cid : ℕ) (cmd : UInt8) (payload : List UInt8) : Report :=
  frame cid
    [cmd, UInt8.ofNat (payload.length / 256), UInt8.ofNat payload.length]
    (payload.take (initChunk payload.length))

def continuationChunk (left : ℕ) : ℕ := if left > 59 then 59 else left

def continuationFrame (cid : ℕ) (seq : UInt8) (data : List UInt8) : Report :=
  frame cid [seq] data

/-- The loop over the continuation frames.  It ends early after a frame which the
host does not collect in time. -/
def sendContinuations (collected : ℕ → Bool) (cid : ℕ) (payload : List UInt8)
    (sent offset : ℕ) (seq : UInt8) : List Report :=
  if _h : offset < payload.length then
    let toCopy := continuationChunk (payload.length - offset)
    continuationFrame cid seq ((payload.drop offset).take toCopy) ::
      if collected sent then
        sendContinuations collected cid payload (sent + 1) (offset + toCopy) (seq + 1)
      else []
  else []
termination_by payload.length - offset
decreasing_by
  unfold continuationChunk
  split_ifs <;> omega

/-- The frames which `ctap_send_response` emits; `idle` is whether the endpoint gets
free in time, and `collected k` whether the host collects frame `k`. -/
def ctapSendResponse (idle : Bool) (collected : ℕ → Bool) (cid : ℕ) (cmd : UInt8)
    (payload : List UInt8) : List Report :=
  if idle then
    initFrame cid cmd payload ::
      if collected 0 then
        sendContinuations collected cid payload 1 (initChunk payload.length) 0
      else []
  else []

/-! ## Frames as packets -/

section

variable {cid : ℕ} {header data : List UInt8}

theorem frame_len : (frame cid header data).len = 64 := by
  simp [frame, Report.len]

theorem fill_getD {n i : ℕ} {bs : List UInt8} (h : bs.length ≤ n) :
    (Bytes.fill 0 n bs).val.getD i 0 = bs.getD i 0 := by
  simp only [Bytes.fill, List.getD_eq_getElem?_getD, List.getElem?_take,
    List.getElem?_append, List.getElem?_replicate]
  by_cases hi : i < bs.length
  · rw [if_pos (by omega), if_pos hi]
  · rw [if_neg hi, List.getElem?_eq_none (by omega)]
    split_ifs <;> rfl

theorem frame_byte (hfits : header.length + data.length ≤ 60) (i : ℕ) :
    (frame cid header data).byte i = (be32Bytes cid ++ (header ++ data)).getD i 0 :=
  fill_getD (by
    have hcid : (be32Bytes cid).length = 4 := rfl
    simp only [List.length_append, hcid]
    omega)

theorem frame_cid (hcid : cid < 2 ^ 32) (hfits : header.length + data.length ≤ 60) :
    (frame cid header data).cid = cid := by
  have hbyte : ∀ n : ℕ, (UInt8.ofNat n).toNat = n % 256 := fun n => UInt8.toNat_ofNat'
  have h0 : (frame cid header data).byte 0 = UInt8.ofNat (cid / 16777216) := frame_byte hfits 0
  have h1 : (frame cid header data).byte 1 = UInt8.ofNat (cid / 65536) := frame_byte hfits 1
  have h2 : (frame cid header data).byte 2 = UInt8.ofNat (cid / 256) := frame_byte hfits 2
  have h3 : (frame cid header data).byte 3 = UInt8.ofNat cid := frame_byte hfits 3
  unfold Report.cid
  rw [h0, h1, h2, h3, hbyte, hbyte, hbyte, hbyte]
  omega

theorem frame_data (hfits : header.length + data.length ≤ 60) :
    ((frame cid header data).bytes.drop (4 + header.length)).take data.length = data := by
  have hlen : (be32Bytes cid ++ (header ++ data)).length =
      (4 + header.length) + data.length := by
    have hcid : (be32Bytes cid).length = 4 := rfl
    simp only [List.length_append, hcid]
    omega
  have hshort : (be32Bytes cid ++ (header ++ data)).length ≤ 64 := by omega
  have htake := @Bytes.fill_take 0 64 _ hshort
  rw [hlen] at htake
  change ((Bytes.fill 0 64 (be32Bytes cid ++ (header ++ data))).val.drop
    (4 + header.length)).take data.length = data
  have hswap := congrArg (List.drop (4 + header.length)) htake
  rw [List.drop_take, Nat.add_sub_cancel_left] at hswap
  rw [hswap, ← List.append_assoc]
  exact List.drop_left' (by
    have hcid : (be32Bytes cid).length = 4 := rfl
    rw [List.length_append, hcid])

variable {cmd seq : UInt8} {payload : List UInt8} {offset : ℕ}

theorem initChunk_le (n : ℕ) : initChunk n ≤ n ∧ initChunk n ≤ 57 := by
  unfold initChunk
  split_ifs <;> omega

theorem continuationChunk_le (n : ℕ) :
    continuationChunk n ≤ n ∧ continuationChunk n ≤ 59 := by
  unfold continuationChunk
  split_ifs <;> omega

theorem initFrame_fits (payload : List UInt8) :
    [cmd, UInt8.ofNat (payload.length / 256), UInt8.ofNat payload.length].length +
      (payload.take (initChunk payload.length)).length ≤ 60 := by
  have hchunk := initChunk_le payload.length
  simp only [List.length_cons, List.length_nil, List.length_take]
  omega

theorem initFrame_byte4 (cid : ℕ) (cmd : UInt8) (payload : List UInt8) :
    (initFrame cid cmd payload).byte 4 = cmd :=
  frame_byte (initFrame_fits payload) 4

theorem initFrame_payloadLen (hlen : payload.length ≤ 1024) :
    (initFrame cid cmd payload).payloadLen = payload.length := by
  have h5 : (initFrame cid cmd payload).byte 5 = UInt8.ofNat (payload.length / 256) :=
    frame_byte (initFrame_fits payload) 5
  have h6 : (initFrame cid cmd payload).byte 6 = UInt8.ofNat payload.length :=
    frame_byte (initFrame_fits payload) 6
  rw [Report.payloadLen, h5, h6, UInt8.toNat_ofNat', UInt8.toNat_ofNat']
  omega

theorem initFrame_accepted (hlen : payload.length ≤ 1024) (hbit : cmd &&& 0x80 ≠ 0)
    (hcancel : cmd ≠ 0x91) : (initFrame cid cmd payload).Accepted := by
  have hsize : (initFrame cid cmd payload).len = 64 := frame_len
  refine ⟨⟨⟨by omega, ?_⟩, ?_⟩, by omega, ?_⟩
  · rw [initFrame_byte4]
    exact hbit
  · rw [initFrame_byte4]
    exact hcancel
  · rw [initFrame_payloadLen hlen]
    exact hlen

theorem initFrame_initLen (hlen : payload.length ≤ 1024) :
    (initFrame cid cmd payload).initLen = initChunk payload.length := by
  have hsize : (initFrame cid cmd payload).len = 64 := frame_len
  unfold Report.initLen initChunk
  rw [initFrame_payloadLen hlen, hsize]
  split_ifs <;> omega

theorem initFrame_data (hlen : payload.length ≤ 1024) :
    (initFrame cid cmd payload).initData.take (initFrame cid cmd payload).initLen =
      payload.take (initChunk payload.length) := by
  have hchunk := initChunk_le payload.length
  have hdata := @frame_data cid _ _ (@initFrame_fits cmd payload)
  rw [List.length_take, Nat.min_eq_left hchunk.1] at hdata
  rw [initFrame_initLen hlen]
  exact hdata

theorem no_top_bit_of_lt {b : UInt8} (h : b.toNat < 128) : b &&& 0x80 = 0 := by
  have hall : ∀ n : Fin 128, UInt8.ofNat n.val &&& 0x80 = 0 := by decide +kernel
  have hb := hall ⟨b.toNat, h⟩
  rwa [UInt8.ofNat_toNat] at hb

section

variable {data : List UInt8} (hdata : data.length ≤ 59)

include hdata

theorem continuationFrame_fits : [seq].length + data.length ≤ 60 := by
  rw [List.length_singleton]
  omega

theorem continuationFrame_byte4 : (continuationFrame cid seq data).byte 4 = seq :=
  frame_byte (continuationFrame_fits hdata) 4

theorem continuationFrame_continuation (hseq : seq.toNat < 128) :
    (continuationFrame cid seq data).IsContinuation := by
  have hsize : (continuationFrame cid seq data).len = 64 := frame_len
  refine ⟨by omega, ?_⟩
  rw [continuationFrame_byte4 hdata]
  exact no_top_bit_of_lt hseq

theorem continuationFrame_data :
    (continuationFrame cid seq data).continuationData.take data.length = data :=
  frame_data (continuationFrame_fits hdata)

end

end

/-! ## Receiving the frames -/

/-- The first `offset` bytes of the message have come in. -/
structure Receiving (cid : ℕ) (cmd : UInt8) (payload : List UInt8) (offset : ℕ)
    (seq : UInt8) (s : Hid) : Prop where
  cid : s.cid = cid
  cmd : s.cmd = cmd
  expectedLen : s.expectedLen = payload.length
  reqLen : s.reqLen = offset
  seq : s.seq = seq
  data : s.reqBuf.slice 0 offset = payload.take offset

section

variable {cid : ℕ} {cmd seq : UInt8} {payload : List UInt8} {offset : ℕ} {s : Hid}

theorem Receiving.unfinished (h : Receiving cid cmd payload offset seq s)
    (hmore : offset < payload.length) : complete s cid = (s, none) := by
  unfold complete
  rw [if_neg]
  rw [h.reqLen, h.expectedLen]
  omega

theorem Receiving.finished (h : Receiving cid cmd payload payload.length seq s)
    (hbit : cmd &&& 0x80 ≠ 0) : ∃ msg, (complete s cid).2 = some msg ∧
      msg.content = (cid, cmd, payload) ∧ (complete s cid).1.expectedLen = 0 := by
  have hdone : s.reqLen = s.expectedLen ∧ s.cmd &&& 0x80 ≠ 0 := by
    rw [h.reqLen, h.expectedLen, h.cmd]
    exact ⟨rfl, hbit⟩
  unfold complete
  rw [if_pos hdone]
  refine ⟨_, rfl, ?_, rfl⟩
  have hdata := h.data
  rw [List.take_length] at hdata
  rw [Message.content, Message.payload, h.expectedLen, hdata, h.cmd]

theorem receiving_started (hcid : cid < 2 ^ 32) (hlen : payload.length ≤ 1024) (s : Hid) :
    Receiving cid cmd payload (initChunk payload.length) 0
      (s.started (initFrame cid cmd payload)) where
  cid := frame_cid hcid (initFrame_fits payload)
  cmd := initFrame_byte4 cid cmd payload
  expectedLen := initFrame_payloadLen hlen
  reqLen := initFrame_initLen hlen
  seq := rfl
  data := by
    have hdata := started_data s (initFrame cid cmd payload)
    rw [initFrame_data hlen] at hdata
    rw [← hdata]
    congr 1
    exact (initFrame_initLen hlen).symm

theorem Receiving.frame (h : Receiving cid cmd payload offset seq s) (hcid : cid < 2 ^ 32)
    (hlen : payload.length ≤ 1024) (hmore : offset < payload.length)
    (hseq : seq.toNat < 128) :
    let n := continuationChunk (payload.length - offset)
    let r := continuationFrame cid seq ((payload.drop offset).take n)
    processCtaphid s r = complete (s.continued r) cid ∧
      Receiving cid cmd payload (offset + n) (seq + 1) (s.continued r) := by
  intro n r
  have hn := continuationChunk_le (payload.length - offset)
  have hchunk : ((payload.drop offset).take n).length = n := by
    rw [List.length_take, List.length_drop, Nat.min_eq_left hn.1]
  have hfits : ((payload.drop offset).take n).length ≤ 59 := by
    rw [hchunk]
    exact hn.2
  have hsize : r.len = 64 := frame_len
  have hrcid : r.cid = cid := frame_cid hcid (continuationFrame_fits hfits)
  have hcopy : s.copyLen r = n := by
    have hremain : u16 (payload.length + 65536 - offset) = payload.length - offset := by
      unfold u16
      omega
    simp only [Hid.copyLen, h.expectedLen, h.reqLen, hremain, hsize]
    change _ = continuationChunk (payload.length - offset)
    unfold continuationChunk
    split_ifs <;> omega
  have hreqLen : (s.continued r).reqLen = offset + n := by
    simp only [Hid.continued, hcopy, h.reqLen]
    exact Nat.mod_eq_of_lt (by omega)
  constructor
  · have hpending : s.Assembling r.cid := by
      refine ⟨?_, by rw [hrcid, h.cid]⟩
      rw [h.expectedLen]
      omega
    rw [processCtaphid_copied (continuationFrame_continuation hfits hseq) hpending
      (by rw [continuationFrame_byte4 hfits, h.seq]), hrcid]
  · refine ⟨h.cid, h.cmd, h.expectedLen, hreqLen, ?_, ?_⟩
    · rw [← h.seq]
      rfl
    · have hdata := continued_data s r
      have hcont := @continuationFrame_data cid seq _ hfits
      rw [hchunk] at hcont
      rw [hreqLen, h.reqLen, h.data, hcopy, hcont] at hdata
      rw [hdata, ← List.take_add, List.take_take, Nat.min_self]

end

def Hid.feed (s : Hid) (reports : List Report) : Hid :=
  reports.foldl (fun s r => (processCtaphid s r).1) s

/-- The reports make it dispatch one message, with the last of them. -/
structure Delivers (s : Hid) (reports : List Report)
    (content : ℕ × UInt8 × List UInt8) : Prop where
  last : ∃ before r msg, reports = before ++ [r] ∧ messages s before = [] ∧
    (processCtaphid (s.feed before) r).2 = some msg ∧ msg.content = content
  closed : (s.feed reports).expectedLen = 0

section

variable {s : Hid} {r : Report} {reports : List Report}
  {content : ℕ × UInt8 × List UInt8}

theorem delivers_single {msg : Message} (hmsg : (processCtaphid s r).2 = some msg)
    (hcontent : msg.content = content) (hclosed : (processCtaphid s r).1.expectedLen = 0) :
    Delivers s [r] content :=
  ⟨⟨[], r, msg, rfl, rfl, hmsg, hcontent⟩, hclosed⟩

theorem Delivers.cons (h : Delivers (processCtaphid s r).1 reports content)
    (hnone : (processCtaphid s r).2 = none) : Delivers s (r :: reports) content := by
  obtain ⟨before, last, msg, rfl, hbefore, hmsg, hcontent⟩ := h.last
  refine ⟨⟨r :: before, last, msg, rfl, ?_, hmsg, hcontent⟩, h.closed⟩
  rw [messages, hnone, hbefore]
  rfl

theorem Delivers.refuses (h : Delivers s reports content) (hr : r.IsContinuation) :
    processCtaphid (s.feed reports) r =
      ({ s.feed reports with currentCid := r.cid }, none) :=
  processCtaphid_ignored hr (.inr h.closed)

end

section

variable {cid : ℕ} {cmd : UInt8} {payload : List UInt8} {collected : ℕ → Bool}

theorem continuations_delivered (hcid : cid < 2 ^ 32) (hlen : payload.length ≤ 1024)
    (hbit : cmd &&& 0x80 ≠ 0) (hcollected : ∀ k, collected k = true) {offset : ℕ}
    {seq : UInt8} {s : Hid} (sent : ℕ) (h : Receiving cid cmd payload offset seq s)
    (hmore : offset < payload.length) (hoffset : offset = 57 + 59 * seq.toNat) :
    Delivers s (sendContinuations collected cid payload sent offset seq)
      (cid, cmd, payload) := by
  induction hleft : payload.length - offset using Nat.strong_induction_on
    generalizing offset seq s sent with
  | _ left ih =>
      have hseq : seq.toNat < 128 := by omega
      have hn := continuationChunk_le (payload.length - offset)
      obtain ⟨hprocess, hnext⟩ := h.frame hcid hlen hmore hseq
      rw [sendContinuations, dif_pos hmore]
      dsimp only
      rw [if_pos (hcollected sent)]
      by_cases hlast : payload.length - offset ≤ 59
      · have hchunk : continuationChunk (payload.length - offset) =
            payload.length - offset := if_neg (by omega)
        have hall : offset + continuationChunk (payload.length - offset) =
            payload.length := by omega
        rw [hall] at hnext
        obtain ⟨msg, hmsg, hcontent, hclosed⟩ := hnext.finished hbit
        rw [← hprocess] at hmsg hclosed
        have hnil : sendContinuations collected cid payload (sent + 1)
            (offset + continuationChunk (payload.length - offset)) (seq + 1) = [] := by
          rw [sendContinuations, dif_neg (by omega)]
        rw [hnil]
        exact delivers_single hmsg hcontent hclosed
      · have hchunk : continuationChunk (payload.length - offset) = 59 :=
          if_pos (by omega)
        rw [hchunk] at hprocess hnext
        rw [hnext.unfinished (by omega)] at hprocess
        rw [hchunk]
        refine Delivers.cons ?_ (by rw [hprocess])
        rw [hprocess]
        refine ih _ ?_ (sent + 1) hnext ?_ ?_ rfl
        · omega
        · omega
        · rw [UInt8.toNat_add, hoffset]
          have hone : (1 : UInt8).toNat = 1 := rfl
          omega

/-- Fed with the frames of a message which the host collects in time,
`ProcessCTAPHID` dispatches that message with the last frame, and nothing else. -/
theorem sent_delivered (hcid : cid < 2 ^ 32) (hbit : cmd &&& 0x80 ≠ 0)
    (hcancel : cmd ≠ 0x91) (hlen : payload.length ≤ 1024)
    (hcollected : ∀ k, collected k = true) (s : Hid) :
    Delivers s (ctapSendResponse true collected cid cmd payload) (cid, cmd, payload) ∧
      ∀ r, r.IsContinuation →
        processCtaphid (s.feed (ctapSendResponse true collected cid cmd payload)) r =
          ({ s.feed (ctapSendResponse true collected cid cmd payload) with
            currentCid := r.cid }, none) := by
  have hchunk := initChunk_le payload.length
  have hstarted := @receiving_started cid cmd payload hcid hlen s
  have hprocess : processCtaphid s (initFrame cid cmd payload) =
      complete (s.started (initFrame cid cmd payload)) cid := by
    rw [processCtaphid_accepted (initFrame_accepted hlen hbit hcancel),
      show (initFrame cid cmd payload).cid = cid from
        frame_cid hcid (initFrame_fits payload)]
  have hdelivers :
      Delivers s (ctapSendResponse true collected cid cmd payload) (cid, cmd, payload) := by
    rw [ctapSendResponse, if_pos rfl, if_pos (hcollected 0)]
    by_cases hone : payload.length ≤ 57
    · have hall : initChunk payload.length = payload.length := if_neg (by omega)
      rw [hall] at hstarted
      obtain ⟨msg, hmsg, hcontent, hclosed⟩ := hstarted.finished hbit
      rw [← hprocess] at hmsg hclosed
      rw [hall, sendContinuations, dif_neg (by omega)]
      exact delivers_single hmsg hcontent hclosed
    · have hfirst : initChunk payload.length = 57 := if_pos (by omega)
      rw [hfirst] at hstarted
      rw [hstarted.unfinished (by omega)] at hprocess
      rw [hfirst]
      refine Delivers.cons ?_ (by rw [hprocess])
      rw [hprocess]
      exact continuations_delivered hcid hlen hbit hcollected 1 hstarted (by omega) rfl
  exact ⟨hdelivers, fun r hr => hdelivers.refuses hr⟩

theorem sent_delivered_ping : Delivers Hid.powerUp
    (ctapSendResponse true (fun _ => true) 0x01020304 0x81 (List.replicate 100 0x58))
    (0x01020304, 0x81, List.replicate 100 0x58) :=
  (sent_delivered (by decide) (by decide) (by decide) (by decide) (fun _ => rfl)
    Hid.powerUp).1

end

end UnsoloKey
