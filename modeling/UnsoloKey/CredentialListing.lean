import UnsoloKey.ManagementResponses
import UnsoloKey.AssertionWalk
import UnsoloKey.Management
import UnsoloKey.DeleteCredential
import Mathlib.Tactic

/-!
# The list of all credentials

The host asks for every relying party and, after each, for its credentials.  Both walks
keep their position in globals of the device and share the relying party hash; what is
counted and what stands at a position come from four scans of the slots.
-/

namespace UnsoloKey

open Rd Cbor

/-! ## The host -/

def Cbor.Item.asUint : Item → Option ℕ
  | .uint n => some n
  | _ => none

def Cbor.Item.asBytes : Item → Option (List UInt8)
  | .bytes bs => some bs
  | _ => none

def Cbor.Item.asText : Item → Option (List UInt8)
  | .text bs => some bs
  | _ => none

def Cbor.Item.asMap : Item → Option (List Entry)
  | .map entries => some entries
  | _ => none

structure ListedCredential where
  userId : List UInt8
  userName : List UInt8
  credentialId : List UInt8

def readCredential (resp : List UInt8) : Option ListedCredential := do
  let user ← (responseEntry resp 1).bind Item.asMap
  let userId ← (lookupText (ascii "id") user).bind Item.asBytes
  let userName ← (lookupText (ascii "name") user).bind Item.asText
  let descriptor ← (responseEntry resp 2).bind Item.asMap
  let credentialId ← (lookupText (ascii "id") descriptor).bind Item.asBytes
  return ⟨userId, userName, credentialId⟩

def readTotal (resp : List UInt8) : Option ℕ := (responseEntry resp 3).bind Item.asUint

def readRpIdHash (resp : List UInt8) : Option (List UInt8) :=
  (responseEntry resp 2).bind Item.asBytes

def Device.ask (d : Device) (c : Command) : Option (List UInt8 × Device) :=
  (d.outcome c).map fun o => (o.resp, d.after o)

/-- What the host has read of one relying party, and the device after that. -/
structure ListedRp where
  rpIdHash : List UInt8
  total : ℕ
  credentials : List ListedCredential
  after : Device

/-- The commands which the host sends at each position of the two walks. -/
structure HostScript where
  rpsBegin : Command
  rpsNext : ℕ → Command
  credentialsBegin : ℕ → List UInt8 → Command
  credentialsNext : ℕ → ℕ → Command

namespace HostScript

def nextCredentials (s : HostScript) (k : ℕ) :
    ℕ → ℕ → Device → Option (List ListedCredential × Device)
  | 0, _, d => some ([], d)
  | left + 1, j, d => do
      let (resp, d) ← d.ask (s.credentialsNext k j)
      let first ← readCredential resp
      let (rest, d) ← s.nextCredentials k left (j + 1) d
      return (first :: rest, d)

def credentials (s : HostScript) (k : ℕ) (rpIdHash : List UInt8) (d : Device) :
    Option ListedRp := do
  let (resp, d) ← d.ask (s.credentialsBegin k rpIdHash)
  let total ← readTotal resp
  let first ← readCredential resp
  let (rest, d) ← s.nextCredentials k (total - 1) 1 d
  return ⟨rpIdHash, total, first :: rest, d⟩

def nextRps (s : HostScript) : ℕ → ℕ → Device → Option (List ListedRp × Device)
  | 0, _, d => some ([], d)
  | left + 1, k, d => do
      let (resp, d) ← d.ask (s.rpsNext k)
      let rpIdHash ← readRpIdHash resp
      let first ← s.credentials k rpIdHash d
      let (rest, d) ← s.nextRps left (k + 1) first.after
      return (first :: rest, d)

/-- `list_all`. -/
def listAll (s : HostScript) (d : Device) : Option (List ListedRp × Device) := do
  let (resp, d) ← d.ask s.rpsBegin
  let total ← readTotal resp
  let rpIdHash ← readRpIdHash resp
  let first ← s.credentials 0 rpIdHash d
  let (rest, d) ← s.nextRps (total - 1) 1 first.after
  return (first :: rest, d)

end HostScript

/-! ## Authorised commands -/

/-- A CredentialManagement request for the subcommand which the device accepts. -/
structure Manages (d : Device) (c : Command) (subCmd : ℕ) : Prop where
  len : c.reqLen ≠ 0
  cmd : c.req 0 = 0x0A
  sub : (cmSubCmd c.reqLen).run c.req = some subCmd
  params : ∃ v, (getCborMapValue 1 (c.reqLen - 1) 0x02).run c.req = some v
  authorized : (pinLoad d.flash.mem).isSome →
    (cmAuthorized c.env d.pin c.reqLen subCmd).run c.req = some true

/-- enumerateCredentialsBegin, with the rpIDHash which the device reads in it. -/
structure BeginsCredentials (d : Device) (c : Command) (param : Option (Bytes 32)) : Prop where
  manages : Manages d c 0x04
  param : (enumRpHashParam c.env c.reqLen).run c.req = some param

structure HostScript.Fits (s : HostScript) (d : Device) : Prop where
  rpsBegin : Manages d s.rpsBegin 0x02
  rpsNext : ∀ k, Manages d (s.rpsNext k) 0x03
  credentialsBegin : ∀ k i, (d.flash.mem.slotKey i).isOccupied →
    BeginsCredentials d (s.credentialsBegin k (d.flash.mem.slotKey i).rpIdHash.val)
      (some (d.flash.mem.slotKey i).rpIdHash)
  credentialsNext : ∀ k j, Manages d (s.credentialsNext k j) 0x05

section

variable {d d' : Device} {c : Command} {subCmd : ℕ}

theorem Manages.of_same (h : Manages d c subCmd) (hflash : d'.flash = d.flash)
    (hpin : d'.pin = d.pin) : Manages d' c subCmd where
  len := h.len
  cmd := h.cmd
  sub := h.sub
  params := h.params
  authorized := by
    rw [hflash, hpin]
    exact h.authorized

/-- An accepted request is answered by the dispatcher. -/
theorem Manages.ask (h : Manages d c subCmd) : d.ask c =
    ((cmDispatch c.env (d.onChannel c.cid) c.reqLen subCmd).run c.req).map
      fun o => (o.resp, d.after o) := by
  have hsub := h.sub
  unfold cmSubCmd at hsub
  rw [run_bind_eq_some] at hsub
  obtain ⟨sub, hread, hsub⟩ := hsub
  rw [run_pure, Option.some.injEq] at hsub
  rw [Device.ask, outcome_eq h.len, h.cmd]
  change Option.map _ ((credentialManagement c.env (d.onChannel c.cid) c.reqLen).run c.req) = _
  unfold credentialManagement
  rw [run_bind, hread, Option.bind_some, hsub, run_ite]
  by_cases hset : (pinLoad (d.onChannel c.cid).flash.mem).isSome
  · have hauthorized := h.authorized hset
    change (cmAuthorized c.env (d.onChannel c.cid).pin c.reqLen subCmd).run c.req = _
      at hauthorized
    rw [if_pos hset, run_bind, hauthorized, Option.bind_some, run_ite, if_neg (by decide),
      run_bind]
    cases (cmDispatch c.env (d.onChannel c.cid) c.reqLen subCmd).run c.req <;> rfl
  · rw [if_neg hset]

theorem Manages.ask_metadata (h : Manages d c 0x01) :
    d.ask c = some (getCredsMetadata (d.onChannel c.cid), d.onChannel c.cid) := by
  obtain ⟨v, hv⟩ := h.params
  rw [h.ask, cmDispatch, run_bind, hv]
  rfl

theorem Manages.ask_rps (h : Manages d c subCmd) (hsub : subCmd = 0x02 ∨ subCmd = 0x03) :
    d.ask c = some ((enumerateRps (d.onChannel c.cid) subCmd).resp,
      d.after (enumerateRps (d.onChannel c.cid) subCmd)) := by
  obtain ⟨v, hv⟩ := h.params
  rw [h.ask, cmDispatch, run_bind, hv, Option.bind_some, run_ite, if_neg (by omega), run_ite,
    if_pos hsub]
  rfl

/-! ## The two listing steps -/

/-- The slots which are the first of their relying party. -/
def firstSlots (m : Mem) : List Slot := slots.filter (isFirstOfRp m)

def Device.atRp (d : Device) (cid k : ℕ) (rpIdHash : Bytes 32) : Device :=
  { d.onChannel cid with ctap := { (d.onChannel cid).ctap with
    gEnumRpIdx := k, gEnumRpHash := rpIdHash } }

def Device.atCredential (d : Device) (cid j : ℕ) (rpIdHash : Bytes 32) : Device :=
  { d.onChannel cid with ctap := { (d.onChannel cid).ctap with
    gEnumRpHash := rpIdHash, gEnumCredIdx := j } }

theorem firstSlots_length (m : Mem) : (firstSlots m).length ≤ 5 :=
  (List.length_filter_le _ _).trans (by decide)

theorem passkeyCountUniqueRps_eq (m : Mem) :
    passkeyCountUniqueRps m = (firstSlots m).length :=
  List.countP_eq_length_filter

theorem Manages.ask_rp (h : Manages d c subCmd) (hsub : subCmd = 0x02 ∨ subCmd = 0x03) {k : ℕ}
    (hk : (if subCmd = 0x02 then 0 else (d.ctap.gEnumRpIdx + 1) % 2 ^ 32) = k) {i : Slot}
    (hi : (firstSlots d.flash.mem)[k]? = some i) :
    d.ask c = some (rpResponse (rpDisplay d.flash.mem (d.flash.mem.slotKey i).rpIdHash)
      (d.flash.mem.slotKey i).rpIdHash (subCmd = 0x02) (firstSlots d.flash.mem).length,
      d.atRp c.cid k (d.flash.mem.slotKey i).rpIdHash) := by
  have hlt : k < (firstSlots d.flash.mem).length := (List.getElem?_eq_some_iff.1 hi).1
  have hmore : ¬ (passkeyCountUniqueRps d.flash.mem = 0 ∨
      k ≥ passkeyCountUniqueRps d.flash.mem) := by
    rw [passkeyCountUniqueRps_eq]
    omega
  have hhash : passkeyGetUniqueRpHash d.flash.mem k = some (d.flash.mem.slotKey i).rpIdHash :=
    congrArg (Option.map _) hi
  have hreply : enumerateRps (d.onChannel c.cid) subCmd =
      (d.atRp c.cid k (d.flash.mem.slotKey i).rpIdHash).reply
        (rpResponse (rpDisplay d.flash.mem (d.flash.mem.slotKey i).rpIdHash)
          (d.flash.mem.slotKey i).rpIdHash (subCmd = 0x02) (firstSlots d.flash.mem).length) := by
    unfold enumerateRps
    dsimp only [Device.onChannel]
    rw [hk, if_neg hmore, hhash, passkeyCountUniqueRps_eq]
    rfl
  rw [h.ask_rps hsub, hreply]
  rfl

theorem Manages.ask_rp_end (h : Manages d c subCmd) (hsub : subCmd = 0x02 ∨ subCmd = 0x03)
    {k : ℕ} (hk : (if subCmd = 0x02 then 0 else (d.ctap.gEnumRpIdx + 1) % 2 ^ 32) = k)
    (hend : (firstSlots d.flash.mem).length ≤ k) :
    ∃ o, d.outcome c = some o ∧ o.resp = [0x2E] := by
  have hdone : passkeyCountUniqueRps d.flash.mem = 0 ∨
      k ≥ passkeyCountUniqueRps d.flash.mem := by
    rw [passkeyCountUniqueRps_eq]
    omega
  have hreply : (enumerateRps (d.onChannel c.cid) subCmd).resp = [0x2E] := by
    unfold enumerateRps
    dsimp only [Device.onChannel]
    rw [hk, if_pos hdone]
    rfl
  have hask := h.ask_rps hsub
  rw [hreply] at hask
  obtain ⟨o, ho, hresp⟩ := Option.map_eq_some_iff.1 hask
  exact ⟨o, ho, (Prod.mk.inj hresp).1⟩

theorem listCredential_some {i : Slot}
    (hi : (slotsOfRp d.flash.mem d.ctap.gEnumRpHash)[d.ctap.gEnumCredIdx]? = some i) :
    listCredential d subCmd = d.reply (credentialResponse d subCmd
      (slotsOfRp d.flash.mem d.ctap.gEnumRpHash).length i) := by
  have hlt := (List.getElem?_eq_some_iff.1 hi).1
  have hfound : passkeyGetByRpIndex d.flash.mem d.ctap.gEnumRpHash d.ctap.gEnumCredIdx =
      some i := hi
  unfold listCredential
  rw [hfound, passkeyCountForRp_eq]
  dsimp only
  rw [if_neg (by omega)]

theorem listCredential_none
    (hnone : (slotsOfRp d.flash.mem d.ctap.gEnumRpHash)[d.ctap.gEnumCredIdx]? = none) :
    listCredential d subCmd = d.reply [0x2E] := by
  have hmissing : passkeyGetByRpIndex d.flash.mem d.ctap.gEnumRpHash d.ctap.gEnumCredIdx =
      none := hnone
  unfold listCredential
  rw [hmissing]

theorem listCredential_after (d : Device) (subCmd : ℕ) :
    d.after (listCredential d subCmd) = d := by
  cases hi : (slotsOfRp d.flash.mem d.ctap.gEnumRpHash)[d.ctap.gEnumCredIdx]? with
  | none => rw [listCredential_none hi]; rfl
  | some i => rw [listCredential_some hi]; rfl

theorem BeginsCredentials.ask {param : Option (Bytes 32)} (h : BeginsCredentials d c param) :
    d.ask c = some ((listCredential
      (d.atCredential c.cid 0 (param.getD d.ctap.gEnumRpHash)) 0x04).resp,
      d.atCredential c.cid 0 (param.getD d.ctap.gEnumRpHash)) := by
  obtain ⟨v, hv⟩ := h.manages.params
  rw [h.manages.ask, cmDispatch, run_bind, hv, Option.bind_some, run_ite, if_neg (by decide),
    run_ite, if_neg (by decide), run_ite, if_pos (by decide), enumerateCredentials, run_ite,
    if_pos rfl, run_bind, h.param, Option.bind_some]
  exact congrArg (fun d' => some (_, d'))
    (listCredential_after (d.atCredential c.cid 0 (param.getD d.ctap.gEnumRpHash)) 0x04)

theorem Manages.ask_next (h : Manages d c 0x05) : d.ask c =
    some ((listCredential (d.atCredential c.cid ((d.ctap.gEnumCredIdx + 1) % 2 ^ 32)
        d.ctap.gEnumRpHash) 0x05).resp,
      d.atCredential c.cid ((d.ctap.gEnumCredIdx + 1) % 2 ^ 32) d.ctap.gEnumRpHash) := by
  obtain ⟨v, hv⟩ := h.params
  rw [h.ask, cmDispatch, run_bind, hv, Option.bind_some, run_ite, if_neg (by decide),
    run_ite, if_neg (by decide), run_ite, if_pos (by decide), enumerateCredentials, run_ite,
    if_neg (by decide)]
  exact congrArg (fun d' => some (_, d')) (listCredential_after
    (d.atCredential c.cid ((d.ctap.gEnumCredIdx + 1) % 2 ^ 32) d.ctap.gEnumRpHash) 0x05)

end

/-! ## What the host reads -/

/-- The credential in a slot, as it is listed. -/
def listedCredential (m : Mem) (i : Slot) : ListedCredential where
  userId := listedUserId m i
  userName := listedName m i
  credentialId := (m.slotKey i).credentialId.val

section

variable {m : Mem} {i : Slot} {display : List UInt8} {rpHash : Bytes 32} {begins : Prop}
  [Decidable begins] {total key : ℕ}

theorem rpResponse_entry (hdisplay : display.length < 256) (htotal : total < 2 ^ 32) :
    responseEntry (rpResponse display rpHash begins total) key = lookup key
      ([(.uint 1, .map [(str "id", .text display), (str "name", .text display)]),
        (.uint 2, .bytes rpHash.val)] ++ beginEntries begins total) := by
  rw [rpResponse_eq hdisplay, rpItem, responseEntry_eq (rpItem_valid hdisplay htotal)]

theorem readRpIdHash_rp (hdisplay : display.length < 256) (htotal : total < 2 ^ 32) :
    readRpIdHash (rpResponse display rpHash begins total) = some rpHash.val := by
  rw [readRpIdHash, rpResponse_entry hdisplay htotal]
  simp [lookup, Item.asBytes]

theorem readTotal_rp (hdisplay : display.length < 256) (htotal : total < 2 ^ 32)
    (hbegins : begins) : readTotal (rpResponse display rpHash begins total) = some total := by
  rw [readTotal, rpResponse_entry hdisplay htotal, beginEntries, if_pos hbegins]
  simp [lookup, Item.asUint]

theorem credentialResponse_entry (d : Device) (subCmd : ℕ) (htotal : total < 2 ^ 32) :
    responseEntry (credentialResponse d subCmd total i) key = lookup key
      ([(.uint 1, .map [(str "id", .bytes (listedUserId d.flash.mem i)),
          (str "name", .text (listedName d.flash.mem i))]),
        (.uint 2, .map [(str "id", .bytes (d.flash.mem.slotKey i).credentialId.val),
          (str "type", str "public-key")])] ++ beginEntries (subCmd = 0x04) total) := by
  rw [credentialResponse_eq, credentialItem, responseEntry_eq (credentialItem_valid htotal)]

theorem readCredential_listed (d : Device) (subCmd : ℕ) (htotal : total < 2 ^ 32) :
    readCredential (credentialResponse d subCmd total i) =
      some (listedCredential d.flash.mem i) := by
  have hne : ascii "id" ≠ ascii "name" := by decide
  unfold readCredential
  rw [credentialResponse_entry d subCmd htotal, credentialResponse_entry d subCmd htotal]
  simp [lookup, lookupText, str, Item.asMap, Item.asBytes, Item.asText, hne, listedCredential]

theorem readTotal_listed (d : Device) (htotal : total < 2 ^ 32) :
    readTotal (credentialResponse d 0x04 total i) = some total := by
  rw [readTotal, credentialResponse_entry d 0x04 htotal, beginEntries, if_pos rfl]
  simp [lookup, Item.asUint]

theorem readCount_metadata (d : Device) : (responseEntry (getCredsMetadata d) 1).bind Item.asUint =
    some (passkeyCountAll d.flash.mem) := by
  rw [getCredsMetadata_eq, metadataItem, responseEntry_eq metadataItem_valid]
  simp [lookup, Item.asUint]

end

/-- Where the lengths in the slot are within their fields, this is the account. -/
theorem listedCredential_account {m : Mem} {i : Slot}
    (hid : (m.slotKey i).userIdLen.toNat ≤ 64) (hname : (m.slotKey i).userNameLen.toNat ≤ 32) :
    listedCredential m i =
      ⟨(m.slotKey i).account.userId,
        if (m.slotKey i).account.userName = [] then ascii "Passkey Account"
        else (m.slotKey i).account.userName,
        (m.slotKey i).account.credentialId.val⟩ := by
  have huserId : listedUserId m i = (m.slotKey i).account.userId :=
    (Mem.slice_take m (slotAddr i + 37) 64 _ hid).symm
  have huserName : m.slice (slotAddr i + 166) (m.slotKey i).userNameLen.toNat =
      (m.slotKey i).account.userName := (Mem.slice_take m (slotAddr i + 166) 32 _ hname).symm
  have hempty : (m.slotKey i).account.userName = [] ↔
      ¬ (m.slotKey i).userNameLen > 0 := by
    rw [← huserName, ← List.length_eq_zero_iff, Mem.slice_length, gt_iff_lt, UInt8.lt_iff_toNat_lt]
    simp
  rw [listedCredential, huserId, listedName, huserName]
  by_cases hlen : (m.slotKey i).userNameLen > 0
  · rw [if_pos hlen, if_neg (fun h => hempty.1 h hlen)]
    rfl
  · rw [if_neg hlen, if_pos (hempty.2 hlen)]
    rfl

/-! ## The walk through one relying party -/

/-- The device is at the `k`-th relying party. -/
structure ListingRps (d₀ d : Device) (k : ℕ) : Prop where
  flash : d.flash = d₀.flash
  pin : d.pin = d₀.pin
  rpIdx : d.ctap.gEnumRpIdx = k

/-- At the `k`-th relying party, the device is at the `j`-th credential. -/
structure ListingCredentials (d₀ d : Device) (k : ℕ) (rpIdHash : Bytes 32) (j : ℕ) : Prop
    extends ListingRps d₀ d k where
  hash : d.ctap.gEnumRpHash = rpIdHash
  credentialIdx : d.ctap.gEnumCredIdx = j

section

variable {d₀ d : Device} {s : HostScript} {c : Command} {k j left : ℕ} {rpIdHash : Bytes 32}
  {i : Slot}

theorem slotsOfRp_length_le (m : Mem) (rpIdHash : Bytes 32) :
    (slotsOfRp m rpIdHash).length ≤ 5 :=
  (List.length_filter_le _ _).trans (by decide)

theorem ListingCredentials.ask (h : ListingCredentials d₀ d k rpIdHash j)
    (hc : Manages d₀ c 0x05) (hi : (slotsOfRp d₀.flash.mem rpIdHash)[j + 1]? = some i) :
    ∃ resp d', d.ask c = some (resp, d') ∧
      readCredential resp = some (listedCredential d₀.flash.mem i) ∧
      ListingCredentials d₀ d' k rpIdHash (j + 1) := by
  have hle := slotsOfRp_length_le d₀.flash.mem rpIdHash
  have hlt := (List.getElem?_eq_some_iff.1 hi).1
  have hidx : (d.ctap.gEnumCredIdx + 1) % 2 ^ 32 = j + 1 := by
    rw [h.credentialIdx]
    omega
  have hfound : (slotsOfRp d.flash.mem rpIdHash)[j + 1]? = some i := by
    rw [h.flash]
    exact hi
  have hask := (hc.of_same h.flash h.pin).ask_next
  rw [hidx, h.hash, listCredential_some hfound] at hask
  refine ⟨_, _, hask, ?_, ⟨h.flash, h.pin, h.rpIdx⟩, rfl, rfl⟩
  rw [← h.flash]
  exact readCredential_listed (d.atCredential c.cid (j + 1) rpIdHash) _
    ((slotsOfRp_length_le _ _).trans_lt (by decide))

theorem ListingCredentials.ask_end (h : ListingCredentials d₀ d k rpIdHash j)
    (hc : Manages d₀ c 0x05) (hend : (slotsOfRp d₀.flash.mem rpIdHash).length = j + 1) :
    ∃ o, d.outcome c = some o ∧ o.resp = [0x2E] := by
  have hle := slotsOfRp_length_le d₀.flash.mem rpIdHash
  have hidx : (d.ctap.gEnumCredIdx + 1) % 2 ^ 32 = j + 1 := by
    rw [h.credentialIdx]
    omega
  have hnone : (slotsOfRp d.flash.mem rpIdHash)[j + 1]? = none := by
    rw [h.flash, List.getElem?_eq_none_iff]
    exact hend.le
  have hask := (hc.of_same h.flash h.pin).ask_next
  rw [hidx, h.hash, listCredential_none hnone] at hask
  obtain ⟨o, ho, hresp⟩ := Option.map_eq_some_iff.1 hask
  exact ⟨o, ho, (Prod.mk.inj hresp).1⟩

theorem nextCredentials_eq (hfits : s.Fits d₀) (h : ListingCredentials d₀ d k rpIdHash j)
    (hleft : left + j + 1 = (slotsOfRp d₀.flash.mem rpIdHash).length) :
    ∃ d', s.nextCredentials k left (j + 1) d = some
        (((slotsOfRp d₀.flash.mem rpIdHash).drop (j + 1)).map (listedCredential d₀.flash.mem),
          d') ∧
      ListingCredentials d₀ d' k rpIdHash (left + j) := by
  induction left generalizing d j with
  | zero =>
      refine ⟨d, ?_, by rwa [Nat.zero_add]⟩
      rw [List.drop_eq_nil_of_le (by omega)]
      rfl
  | succ left ih =>
      have hlt : j + 1 < (slotsOfRp d₀.flash.mem rpIdHash).length := by omega
      obtain ⟨resp, d', hask, hread, hnext⟩ :=
        h.ask (hfits.credentialsNext k (j + 1)) (List.getElem?_eq_getElem hlt)
      obtain ⟨d'', hrest, hlast⟩ := ih hnext (by omega)
      refine ⟨d'', ?_, by rwa [show left + 1 + j = left + (j + 1) by omega]⟩
      rw [HostScript.nextCredentials, hask, List.drop_eq_getElem_cons hlt, List.map_cons]
      simp only [Option.bind_eq_bind, Option.bind_some, hread, hrest]
      rfl

/-- enumerateCredentialsBegin answers for the first credential. -/
theorem ListingRps.ask_begin (h : ListingRps d₀ d k)
    (hc : BeginsCredentials d₀ c (some rpIdHash))
    (hi : (slotsOfRp d₀.flash.mem rpIdHash)[0]? = some i) :
    ∃ resp d', d.ask c = some (resp, d') ∧
      readTotal resp = some (slotsOfRp d₀.flash.mem rpIdHash).length ∧
      readCredential resp = some (listedCredential d₀.flash.mem i) ∧
      ListingCredentials d₀ d' k rpIdHash 0 := by
  have htotal : (slotsOfRp d₀.flash.mem rpIdHash).length < 2 ^ 32 :=
    (slotsOfRp_length_le _ _).trans_lt (by decide)
  have hfound : (slotsOfRp d.flash.mem rpIdHash)[0]? = some i := by
    rw [h.flash]
    exact hi
  have hask := BeginsCredentials.ask ⟨hc.manages.of_same h.flash h.pin, hc.param⟩
  rw [Option.getD_some, listCredential_some hfound] at hask
  refine ⟨_, _, hask, ?_, ?_, ⟨h.flash, h.pin, h.rpIdx⟩, rfl, rfl⟩
  · rw [← h.flash] at htotal ⊢
    exact readTotal_listed _ htotal
  · rw [← h.flash] at htotal ⊢
    exact readCredential_listed (d.atCredential c.cid 0 rpIdHash) _ htotal

/-- What the host keeps of a relying party, whose first slot this is. -/
structure RpListed (d₀ : Device) (i : Slot) (r : ListedRp) : Prop where
  rpIdHash : r.rpIdHash = (d₀.flash.mem.slotKey i).rpIdHash.val
  total : r.total = (slotsOfRp d₀.flash.mem (d₀.flash.mem.slotKey i).rpIdHash).length
  credentials : r.credentials =
    (slotsOfRp d₀.flash.mem (d₀.flash.mem.slotKey i).rpIdHash).map
      (listedCredential d₀.flash.mem)
  after : ∃ k, ListingCredentials d₀ r.after k (d₀.flash.mem.slotKey i).rpIdHash (r.total - 1)

theorem slotsOfRp_pos {m : Mem} (hi : (m.slotKey i).isOccupied) :
    0 < (slotsOfRp m (m.slotKey i).rpIdHash).length := by
  rw [List.length_pos_iff_exists_mem]
  refine ⟨i, List.mem_filter.2 ⟨mem_slots i, ?_⟩⟩
  simp [isOfRp, hi]

theorem credentials_eq (hfits : s.Fits d₀) (h : ListingRps d₀ d k)
    (hi : (d₀.flash.mem.slotKey i).isOccupied) :
    ∃ r, s.credentials k (d₀.flash.mem.slotKey i).rpIdHash.val d = some r ∧
      RpListed d₀ i r ∧ ListingRps d₀ r.after k := by
  have hpos := slotsOfRp_pos hi
  obtain ⟨resp, d', hask, htotal, hread, hstart⟩ :=
    h.ask_begin (hfits.credentialsBegin k i hi) (List.getElem?_eq_getElem hpos)
  have hleft : (slotsOfRp d₀.flash.mem (d₀.flash.mem.slotKey i).rpIdHash).length - 1 + 0 + 1 =
      (slotsOfRp d₀.flash.mem (d₀.flash.mem.slotKey i).rpIdHash).length := by omega
  obtain ⟨d'', hrest, hlast⟩ := nextCredentials_eq hfits hstart hleft
  rw [Nat.zero_add] at hrest
  refine ⟨⟨_, _, _, d''⟩, ?_, ⟨rfl, rfl, rfl, k, hlast⟩, hlast.toListingRps⟩
  rw [HostScript.credentials, hask]
  simp only [Option.bind_eq_bind, Option.bind_some, htotal, hread, hrest]
  rw [← List.map_cons, ← List.drop_eq_getElem_cons hpos]
  rfl

end

/-! ## The walk through the relying parties -/

theorem occupied_of_first {m : Mem} {i : Slot} (h : i ∈ firstSlots m) :
    (m.slotKey i).isOccupied := by
  have hfirst := (List.mem_filter.1 h).2
  simp only [isFirstOfRp, decide_eq_true_eq] at hfirst
  exact hfirst.1

section

variable {d₀ d : Device} {s : HostScript} {c : Command} {k left : ℕ} {i : Slot}

theorem ListingRps.ask (h : ListingRps d₀ d k) (hc : Manages d₀ c 0x03)
    (hi : (firstSlots d₀.flash.mem)[k + 1]? = some i) :
    ∃ resp d', d.ask c = some (resp, d') ∧
      readRpIdHash resp = some (d₀.flash.mem.slotKey i).rpIdHash.val ∧
      ListingRps d₀ d' (k + 1) := by
  have hle := firstSlots_length d₀.flash.mem
  have hlt := (List.getElem?_eq_some_iff.1 hi).1
  have hidx : (if (0x03 : ℕ) = 0x02 then 0 else (d.ctap.gEnumRpIdx + 1) % 2 ^ 32) = k + 1 := by
    rw [if_neg (by decide), h.rpIdx]
    omega
  rw [← h.flash] at hi hle
  have hask := (hc.of_same h.flash h.pin).ask_rp (.inr rfl) hidx hi
  refine ⟨_, _, hask, ?_, h.flash, h.pin, rfl⟩
  rw [readRpIdHash_rp rpDisplay_length (by omega), h.flash]

theorem ListingRps.ask_end (h : ListingRps d₀ d k) (hc : Manages d₀ c 0x03)
    (hend : (firstSlots d₀.flash.mem).length = k + 1) :
    ∃ o, d.outcome c = some o ∧ o.resp = [0x2E] := by
  have hle := firstSlots_length d₀.flash.mem
  have hidx : (if (0x03 : ℕ) = 0x02 then 0 else (d.ctap.gEnumRpIdx + 1) % 2 ^ 32) = k + 1 := by
    rw [if_neg (by decide), h.rpIdx]
    omega
  exact (hc.of_same h.flash h.pin).ask_rp_end (.inr rfl) hidx (by rw [h.flash]; omega)

theorem nextRps_eq (hfits : s.Fits d₀) (h : ListingRps d₀ d k)
    (hleft : left + k + 1 = (firstSlots d₀.flash.mem).length) :
    ∃ rs d', s.nextRps left (k + 1) d = some (rs, d') ∧
      List.Forall₂ (RpListed d₀) ((firstSlots d₀.flash.mem).drop (k + 1)) rs ∧
      ListingRps d₀ d' (left + k) := by
  induction left generalizing d k with
  | zero =>
      refine ⟨[], d, rfl, ?_, by rwa [Nat.zero_add]⟩
      rw [List.drop_eq_nil_of_le (by omega)]
      exact .nil
  | succ left ih =>
      have hlt : k + 1 < (firstSlots d₀.flash.mem).length := by omega
      obtain ⟨resp, d', hask, hread, hnext⟩ :=
        h.ask (hfits.rpsNext (k + 1)) (List.getElem?_eq_getElem hlt)
      obtain ⟨r, hr, hlisted, hafter⟩ := credentials_eq hfits hnext
        (occupied_of_first (List.getElem_mem hlt))
      obtain ⟨rs, d'', hrest, hall, hlast⟩ := ih hafter (by omega)
      refine ⟨r :: rs, d'', ?_, ?_, by rwa [show left + 1 + k = left + (k + 1) by omega]⟩
      · rw [HostScript.nextRps, hask]
        simp only [Option.bind_eq_bind, Option.bind_some, hread, hr, hrest]
        rfl
      · rw [List.drop_eq_getElem_cons hlt]
        exact .cons hlisted hall

theorem ask_rpsBegin (hc : Manages d₀ c 0x02) (hi : (firstSlots d₀.flash.mem)[0]? = some i) :
    ∃ resp d', d₀.ask c = some (resp, d') ∧
      readTotal resp = some (firstSlots d₀.flash.mem).length ∧
      readRpIdHash resp = some (d₀.flash.mem.slotKey i).rpIdHash.val ∧ ListingRps d₀ d' 0 := by
  have htotal : (firstSlots d₀.flash.mem).length < 2 ^ 32 :=
    (firstSlots_length _).trans_lt (by decide)
  exact ⟨_, _, hc.ask_rp (.inl rfl) (if_pos rfl) hi, readTotal_rp rpDisplay_length htotal rfl,
    readRpIdHash_rp rpDisplay_length htotal, rfl, rfl, rfl⟩

theorem listAll_eq (hfits : s.Fits d₀) (hpos : 0 < (firstSlots d₀.flash.mem).length) :
    ∃ rs d', s.listAll d₀ = some (rs, d') ∧
      List.Forall₂ (RpListed d₀) (firstSlots d₀.flash.mem) rs ∧
      ListingRps d₀ d' ((firstSlots d₀.flash.mem).length - 1) := by
  obtain ⟨resp, d, hask, htotal, hread, hstart⟩ :=
    ask_rpsBegin hfits.rpsBegin (List.getElem?_eq_getElem hpos)
  obtain ⟨r, hr, hlisted, hafter⟩ := credentials_eq hfits hstart
    (occupied_of_first (List.getElem_mem hpos))
  have hleft : (firstSlots d₀.flash.mem).length - 1 + 0 + 1 =
      (firstSlots d₀.flash.mem).length := by omega
  obtain ⟨rs, d', hrest, hall, hlast⟩ := nextRps_eq hfits hafter hleft
  rw [Nat.zero_add] at hrest
  refine ⟨r :: rs, d', ?_, ?_, hlast⟩
  · rw [HostScript.listAll, hask]
    simp only [Option.bind_eq_bind, Option.bind_some, htotal, hread, hr, hrest]
    rfl
  · have hcons := List.drop_eq_getElem_cons hpos
    rw [List.drop_zero] at hcons
    rw [hcons]
    exact .cons hlisted hall

end

/-! ## What the list accounts for -/

def occupiedSlots (m : Mem) : List Slot := slots.filter fun i => (m.slotKey i).isOccupied

section

variable {m : Mem} {i j : Slot}

theorem mem_firstSlots : i ∈ firstSlots m ↔ (m.slotKey i).isOccupied ∧
    ∀ j < i, (m.slotKey j).isOccupied → (m.slotKey j).rpIdHash ≠ (m.slotKey i).rpIdHash := by
  simp [firstSlots, isFirstOfRp, mem_slots]

theorem mem_slotsOfRp {rpIdHash : Bytes 32} : i ∈ slotsOfRp m rpIdHash ↔
    (m.slotKey i).isOccupied ∧ (m.slotKey i).rpIdHash = rpIdHash := by
  simp [slotsOfRp, isOfRp, mem_slots]

theorem mem_occupiedSlots : i ∈ occupiedSlots m ↔ (m.slotKey i).isOccupied := by
  simp [occupiedSlots, mem_slots]

theorem slots_nodup : slots.Nodup := List.nodup_finRange _

/-- Every credential has a first one of its relying party. -/
theorem exists_first (hi : (m.slotKey i).isOccupied) :
    ∃ j ∈ firstSlots m, (m.slotKey j).rpIdHash = (m.slotKey i).rpIdHash := by
  induction i using WellFoundedLT.induction with
  | ind i ih =>
      by_cases hfirst : i ∈ firstSlots m
      · exact ⟨i, hfirst, rfl⟩
      · rw [mem_firstSlots] at hfirst
        push Not at hfirst
        obtain ⟨j, hj, hoccupied, hsame⟩ := hfirst hi
        obtain ⟨k, hk, hhash⟩ := ih j hj hoccupied
        exact ⟨k, hk, hhash.trans hsame⟩

theorem firstSlots_hash_injOn (hi : i ∈ firstSlots m) (hj : j ∈ firstSlots m)
    (hsame : (m.slotKey i).rpIdHash = (m.slotKey j).rpIdHash) : i = j := by
  rw [mem_firstSlots] at hi hj
  rcases lt_trichotomy i j with hlt | heq | hlt
  · exact absurd hsame (hj.2 i hlt hi.1)
  · exact heq
  · exact absurd hsame.symm (hi.2 j hlt hj.1)

/-- The relying parties partition the credentials. -/
theorem slotsOfRp_perm : ((firstSlots m).flatMap fun i => slotsOfRp m (m.slotKey i).rpIdHash).Perm
    (occupiedSlots m) := by
  have hfirst : (firstSlots m).Nodup := slots_nodup.filter _
  rw [List.perm_ext_iff_of_nodup]
  · intro j
    rw [List.mem_flatMap, mem_occupiedSlots]
    constructor
    · rintro ⟨i, -, hj⟩
      exact (mem_slotsOfRp.1 hj).1
    · intro hj
      obtain ⟨i, hi, hhash⟩ := exists_first hj
      exact ⟨i, hi, mem_slotsOfRp.2 ⟨hj, hhash.symm⟩⟩
  · rw [List.nodup_flatMap]
    refine ⟨fun i _ => slots_nodup.filter _, ?_⟩
    refine hfirst.pairwise_of_forall_ne fun i hi j hj hne => ?_
    rw [Function.onFun, List.disjoint_left]
    intro k hki hkj
    exact hne (firstSlots_hash_injOn hi hj
      ((mem_slotsOfRp.1 hki).2.symm.trans (mem_slotsOfRp.1 hkj).2))
  · exact slots_nodup.filter _

end

/-! ## The whole list -/

/-- The list has every relying party once and every stored credential once, under its
own relying party, and the totals account for all of them. -/
structure ListsExactly (m : Mem) (rs : List ListedRp) : Prop where
  once : (rs.map ListedRp.rpIdHash).Nodup
  complete : ∀ rpIdHash, rpIdHash ∈ rs.map ListedRp.rpIdHash ↔
    ∃ i, (m.slotKey i).isOccupied ∧ (m.slotKey i).rpIdHash.val = rpIdHash
  credentials : (rs.flatMap fun r => r.credentials.map fun k => (r.rpIdHash, k)).Perm
    ((occupiedSlots m).map fun i => ((m.slotKey i).rpIdHash.val, listedCredential m i))
  totals : (rs.map ListedRp.total).sum = passkeyCountAll m

section

variable {d : Device} {rs : List ListedRp}

theorem listsExactly_of_listed
    (h : List.Forall₂ (RpListed d) (firstSlots d.flash.mem) rs) :
    ListsExactly d.flash.mem rs := by
  have hhashes : rs.map ListedRp.rpIdHash = (firstSlots d.flash.mem).map
      fun i => (d.flash.mem.slotKey i).rpIdHash.val :=
    map_eq_of_forall₂ h fun i r hr => hr.rpIdHash
  have htotals : rs.map ListedRp.total = (firstSlots d.flash.mem).map
      fun i => (slotsOfRp d.flash.mem (d.flash.mem.slotKey i).rpIdHash).length :=
    map_eq_of_forall₂ h fun i r hr => hr.total
  have hcredentials : rs.map (fun r => r.credentials.map fun k => (r.rpIdHash, k)) =
      (firstSlots d.flash.mem).map fun i =>
        (slotsOfRp d.flash.mem (d.flash.mem.slotKey i).rpIdHash).map fun j =>
          ((d.flash.mem.slotKey j).rpIdHash.val, listedCredential d.flash.mem j) := by
    refine map_eq_of_forall₂ h fun i r hr => ?_
    rw [hr.credentials, hr.rpIdHash, List.map_map]
    refine List.map_congr_left fun j hj => ?_
    rw [Function.comp_apply, (mem_slotsOfRp.1 hj).2]
  constructor
  · rw [hhashes]
    refine List.Nodup.map_on ?_ (slots_nodup.filter _)
    intro i hi j hj hsame
    exact firstSlots_hash_injOn hi hj (Subtype.ext hsame)
  · intro rpIdHash
    rw [hhashes, List.mem_map]
    constructor
    · rintro ⟨i, hi, rfl⟩
      exact ⟨i, occupied_of_first hi, rfl⟩
    · rintro ⟨i, hi, rfl⟩
      obtain ⟨j, hj, hsame⟩ := exists_first hi
      exact ⟨j, hj, congrArg _ hsame⟩
  · rw [List.flatMap_def, hcredentials, ← List.flatMap_def, ← List.map_flatMap]
    exact slotsOfRp_perm.map _
  · rw [htotals, ← List.length_flatMap, slotsOfRp_perm.length_eq, occupiedSlots,
      ← List.countP_eq_length_filter]
    rfl

/-- In a store which is not empty the host gets the list of all credentials, and at the
end of each level one more GetNext is refused; in an empty one both Begin commands
are. -/
theorem listAll_exact (d : Device) :
    (∀ s : HostScript, s.Fits d → (∃ i, (d.flash.mem.slotKey i).isOccupied) →
      ∃ rs d', s.listAll d = some (rs, d') ∧ ListsExactly d.flash.mem rs ∧
        (∀ c, Manages d c 0x01 → ∃ o, d.outcome c = some o ∧
          (responseEntry o.resp 1).bind Item.asUint = some (rs.map ListedRp.total).sum) ∧
        (∀ r ∈ rs, ∀ c, Manages r.after c 0x05 →
          ∃ o, r.after.outcome c = some o ∧ o.resp = [0x2E]) ∧
        ∀ c, Manages d' c 0x03 → ∃ o, d'.outcome c = some o ∧ o.resp = [0x2E]) ∧
    ((∀ i, ¬ (d.flash.mem.slotKey i).isOccupied) →
      (∀ c, Manages d c 0x02 → ∃ o, d.outcome c = some o ∧ o.resp = [0x2E]) ∧
      ∀ c param, BeginsCredentials d c param →
        ∃ o, d.outcome c = some o ∧ o.resp = [0x2E]) := by
  constructor
  · rintro s hfits ⟨i, hi⟩
    obtain ⟨j, hj, -⟩ := exists_first hi
    have hpos : 0 < (firstSlots d.flash.mem).length := List.length_pos_of_mem hj
    obtain ⟨rs, d', hlist, hall, hlast⟩ := listAll_eq hfits hpos
    have hexact := listsExactly_of_listed hall
    refine ⟨rs, d', hlist, hexact, ?_, ?_, ?_⟩
    · intro c hc
      obtain ⟨o, ho, hresp⟩ := Option.map_eq_some_iff.1 hc.ask_metadata
      refine ⟨o, ho, ?_⟩
      rw [(Prod.mk.inj hresp).1, readCount_metadata, hexact.totals]
      rfl
    · intro r hr c hc
      obtain ⟨i, hi, hlisted⟩ : ∃ i ∈ firstSlots d.flash.mem, RpListed d i r := by
        obtain ⟨n, hn, hget⟩ := List.mem_iff_getElem.1 hr
        have hn' : n < (firstSlots d.flash.mem).length := by rwa [hall.length_eq]
        exact ⟨_, List.getElem_mem hn', hget ▸ hall.get hn' hn⟩
      obtain ⟨k, hend⟩ := hlisted.after
      have hpos := slotsOfRp_pos (occupied_of_first hi)
      rw [← hlisted.total] at hpos
      refine hend.ask_end (hc.of_same hend.flash.symm hend.pin.symm) ?_
      rw [← hlisted.total]
      omega
    · intro c hc
      exact hlast.ask_end (hc.of_same hlast.flash.symm hlast.pin.symm) (by omega)
  · intro hempty
    have hfirst : firstSlots d.flash.mem = [] :=
      List.filter_eq_nil_iff.2 fun i _ h =>
        hempty i (occupied_of_first (List.mem_filter.2 ⟨mem_slots i, h⟩))
    constructor
    · intro c hc
      exact hc.ask_rp_end (.inl rfl) rfl (by rw [hfirst]; exact Nat.zero_le _)
    · intro c param hc
      have hnone : (slotsOfRp d.flash.mem (param.getD d.ctap.gEnumRpHash))[0]? = none := by
        rw [List.eq_nil_iff_forall_not_mem.2 fun i hi => hempty i (mem_slotsOfRp.1 hi).1]
        rfl
      have hask := hc.ask
      rw [listCredential_none hnone] at hask
      obtain ⟨o, ho, hresp⟩ := Option.map_eq_some_iff.1 hask
      exact ⟨o, ho, (Prod.mk.inj hresp).1⟩

end

/-! ## Two relying parties -/

@[irreducible]
def twoSites : Mem :=
  Mem.after (oneCredential (sha256 [0x61]))
    (writePageOps (slotAddr ⟨3, by decide⟩) (storedKey (sha256 [0x62])).toBytes)

theorem twoSites_occupied : (twoSites.slotKey firstSlot).isOccupied := by
  unfold twoSites
  rw [slotKey_after_write _ _ _ (show passkeyMagic < 2 ^ 32 by decide), if_neg (by decide),
    oneCredential_slotKey, if_pos rfl]
  rfl

theorem Manages.of_unset {d : Device} {c : Command} {subCmd : ℕ}
    (hunset : ¬ (pinLoad d.flash.mem).isSome) (hlen : c.reqLen ≠ 0) (hcmd : c.req 0 = 0x0A)
    (hsub : (cmSubCmd c.reqLen).run c.req = some subCmd)
    (hparams : ((getCborMapValue 1 (c.reqLen - 1) 0x02).run c.req).isSome) :
    Manages d c subCmd :=
  ⟨hlen, hcmd, hsub, Option.isSome_iff_exists.1 hparams, fun h => absurd h hunset⟩

def rpsBeginCommand : Command := hostCommand [0x0A, 0xA1, 0x01, 0x02]

def rpsNextCommand : Command := hostCommand [0x0A, 0xA1, 0x01, 0x03]

def credentialsNextCommand : Command := hostCommand [0x0A, 0xA1, 0x01, 0x05]

def listTemplate : Mem := fun a =>
  [0x0A, 0xA2, 0x01, 0x04, 0x02, 0xA1, 0x01, 0x58, 0x20].getD a 0

def credentialsBeginCommand (rpIdHash : List UInt8) : Command :=
  ⟨listTemplate.put 9 32 rpIdHash, 41, 1, hostEnv⟩

def listScript : HostScript :=
  ⟨rpsBeginCommand, fun _ => rpsNextCommand, fun _ => credentialsBeginCommand,
    fun _ _ => credentialsNextCommand⟩

theorem credentialsBegin_fits {d : Device} (hunset : ¬ (pinLoad d.flash.mem).isSome)
    (rpIdHash : Bytes 32) :
    BeginsCredentials d (credentialsBeginCommand rpIdHash.val) (some rpIdHash) := by
  have hsub : (cmSubCmd 41).run (listTemplate.put 9 32 rpIdHash.val) = some 0x04 := by
    rw [run_put _ _ (by decide +kernel)]
    decide +kernel
  have hvalue : ((getCborMapValue 1 40 0x02).run
      (listTemplate.put 9 32 rpIdHash.val)).isSome := by
    rw [run_put _ _ (by decide +kernel)]
    decide +kernel
  have hitem : (getCborMapItem 1 40 0x02).run (listTemplate.put 9 32 rpIdHash.val) =
      some (.item 5 36) := by
    rw [run_put _ _ (by decide +kernel)]
    decide +kernel
  have hstring : (getCborMapString 5 36 0x01).run (listTemplate.put 9 32 rpIdHash.val) =
      some (some (9, 32)) := by
    rw [run_put _ _ (by decide +kernel)]
    decide +kernel
  refine ⟨.of_unset hunset (show 41 ≠ 0 by decide) rfl hsub hvalue, ?_⟩
  change (enumRpHashParam hostEnv 41).run (listTemplate.put 9 32 rpIdHash.val) = _
  unfold enumRpHashParam
  simp only [run_bind, hitem, hstring, Option.bind_some, ItemResult.pointer, run_ite, run_bytes,
    run_pure, put_slice listTemplate 9 (Bytes.length_val rpIdHash)]
  have hfill : Bytes.fill 0 32 rpIdHash.val = rpIdHash :=
    Subtype.ext (Bytes.fill_val rpIdHash.property)
  simp [hfill]

theorem listScript_fits {d : Device} (hunset : ¬ (pinLoad d.flash.mem).isSome) :
    listScript.Fits d where
  rpsBegin := .of_unset hunset (by decide) (by decide) (by decide +kernel) (by decide +kernel)
  rpsNext := fun _ => .of_unset (c := rpsNextCommand) hunset (by decide) (by decide)
    (by decide +kernel) (by decide +kernel)
  credentialsBegin := fun _ _ _ => credentialsBegin_fits hunset _
  credentialsNext := fun _ _ => .of_unset (c := credentialsNextCommand) hunset (by decide)
    (by decide) (by decide +kernel) (by decide +kernel)

theorem twoSites_unset : ¬ (pinLoad twoSites).isSome := by
  have hend : passkeyFlashEnd = pinFlashAddr := rfl
  have hnone : storedPin (oneCredential (sha256 [0x61])) = none :=
    storedPin_eq_none_iff.2 (oneCredential_unset _)
  unfold twoSites
  rw [← storedPin_isSome_iff, storedPin_after_below (writePageOps_below
    (storedKey (sha256 [0x62])).toBytes_length (hend ▸ slotAddr_lt _)), hnone]
  simp

theorem listAll_exact_twoSites : ∃ rs d',
    listScript.listAll (Device.powerUp twoSites) = some (rs, d') ∧ ListsExactly twoSites rs := by
  obtain ⟨rs, d', hlist, hexact, -⟩ := (listAll_exact (Device.powerUp twoSites)).1 listScript
    (listScript_fits twoSites_unset) ⟨firstSlot, twoSites_occupied⟩
  exact ⟨rs, d', hlist, hexact⟩

end UnsoloKey
