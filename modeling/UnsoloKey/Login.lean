import UnsoloKey.AssertionWalk
import UnsoloKey.CanonicalRequest
import UnsoloKey.DerSignature
import UnsoloKey.Registration
import UnsoloKey.SlotChanges
import Mathlib.Tactic

/-!
# From registration to login

A relying party keeps the credential id and the public key which it has read out of
an attestation.  In the walk over its assertions it then finds that id once, with
the user it has registered and with a signature which verifies under that key.
-/

namespace UnsoloKey

open Rd Cbor

/-! ## The registration request -/

/-- A canonical MakeCredential request for this relying party and user. -/
structure Command.Registers (c : Command) (rpId userId cdh : List UInt8) : Prop where
  carries : ∃ rp user rest, c.Carries 0x01 ((.uint 1, .bytes cdh) :: (.uint 2, .map rp) ::
    (.uint 3, .map user) :: rest) ∧ HasId rp (.text rpId) ∧ HasId user (.bytes userId)
  cdhLen : cdh.length = 32
  rpIdLen : 0 < rpId.length ∧ rpId.length ≤ 255
  userIdLen : 0 < userId.length ∧ userId.length ≤ 64

section

variable {c : Command} {d : Device} {rpId userId cdh : List UInt8} {m : Mem}

theorem userStrings_id {ptr len : ℕ} :
    (userStrings (some (ptr, len))).Returns m fun r =>
      (cborMapGetString ptr len (ascii "id")).run m = some r.1 := by
  unfold userStrings
  refine Returns.bind_run fun userId huserId => Returns.bind fun name => ?_
  cases name with
  | some name => exact Returns.pure huserId
  | none => exact Returns.bind fun _ => Returns.pure huserId

theorem rpIdHashOf_holds {p : ℕ} (hpos : 0 < rpId.length) (hm : m.Holds p rpId) :
    (rpIdHashOf (some (p, rpId.length))).run m = some (sha256 rpId) := by
  have hne : ¬ rpId.length = 0 := by omega
  rw [rpIdHashOf, if_neg hne, run_bind, run_bytes, hm.slice_eq rfl]
  rfl

theorem readString_holds {p : ℕ} {bs : List UInt8} (hshort : bs.length < 256)
    (hm : m.Holds p bs) : (readString (some (p, bs.length))).run m = some bs := by
  have hnat : (UInt8.ofNat bs.length).toNat = bs.length := by
    rw [UInt8.toNat_ofNat']
    omega
  rw [readString, Option.getD_some, hnat, run_bytes, hm.slice_eq rfl]

theorem HasId.map_scannable {entity : List Entry} {id : Item} (h : HasId entity id)
    (hlen : (Item.map entity).encode.length < 65536) : Scannable (.map entity) :=
  ⟨lt_of_le_of_lt (length_le_encode_map entity) hlen, h.scannable⟩

theorem Command.Registers.registration (h : c.Registers rpId userId cdh) :
    (registrationOf c.env c.reqLen).Returns c.req fun r =>
      r.rpIdHash = sha256 rpId ∧ r.userId = userId := by
  obtain ⟨rp, user, rest, hcarries, hrp, huser⟩ := h.carries
  obtain ⟨hrpPos, hrpLe⟩ := h.rpIdLen
  obtain ⟨huserPos, huserLe⟩ := h.userIdLen
  have hrpLen : (Item.map rp).encode.length < 65536 :=
    Command.Carries.value_length_lt [_] hcarries
  have huserLen : (Item.map user).encode.length < 65536 :=
    Command.Carries.value_length_lt [_, _] hcarries
  have hcdhScannable : Scannable (.bytes cdh) := by
    rw [Scannable, h.cdhLen]
    omega
  have hrpEntry : UintEntry c.req 1 (c.reqLen - 1) 2 [(.uint 1, .bytes cdh)] (.map rp)
      ((.uint 3, .map user) :: rest) :=
    Command.Carries.entry [_] hcarries (by omega) (by omega)
      ⟨by simp [Scannable], hcdhScannable, trivial⟩ (by simp)
  have huserEntry : UintEntry c.req 1 (c.reqLen - 1) 3
      [(.uint 1, .bytes cdh), (.uint 2, .map rp)] (.map user) rest :=
    Command.Carries.entry [_, _] hcarries (by omega) (by omega)
      ⟨by simp [Scannable], hcdhScannable, by simp [Scannable],
        hrp.map_scannable hrpLen, trivial⟩ (by simp)
  obtain ⟨p, hrpHolds, hrpItem⟩ := hrpEntry.item (hrp.map_scannable hrpLen)
  obtain ⟨q, huserHolds, huserItem⟩ := huserEntry.item (huser.map_scannable huserLen)
  obtain ⟨p', hrpId, hrpString⟩ := hrp.string (n := rpId.length) (.inr rfl)
    rfl (by omega) hrpHolds hrpLen
  obtain ⟨q', huserId, huserString⟩ := huser.string (n := userId.length)
    (.inl rfl) rfl (by omega) huserHolds huserLen
  have hrpU8 : u8 rpId.length = rpId.length := Nat.mod_eq_of_lt (by omega)
  have huserU8 : u8 userId.length = userId.length := Nat.mod_eq_of_lt (by omega)
  rw [hrpU8] at hrpString
  rw [huserU8] at huserString
  unfold registrationOf
  refine Returns.bind_run fun item hitem => ?_
  obtain rfl : .item p (Item.map rp).encode.length = item :=
    Option.some.inj (hrpItem.symm.trans hitem)
  refine Returns.bind_run fun found hfound => ?_
  obtain rfl : some (p', rpId.length) = found :=
    Option.some.inj (hrpString.symm.trans hfound)
  refine Returns.bind_run fun hash hhash => ?_
  obtain rfl : sha256 rpId = hash :=
    Option.some.inj ((rpIdHashOf_holds hrpPos hrpId).symm.trans hhash)
  refine Returns.bind_run fun item hitem => ?_
  obtain rfl : .item q (Item.map user).encode.length = item :=
    Option.some.inj (huserItem.symm.trans hitem)
  refine Returns.bind_of userStrings_id fun strings hstrings => ?_
  have hid : strings.1 = some (q', userId.length) :=
    Option.some.inj (hstrings.symm.trans huserString)
  refine Returns.bind fun readRpId => Returns.bind_run fun readUserId hread =>
    Returns.bind fun readName => Returns.pure ⟨rfl, ?_⟩
  rw [hid, readString_holds (by omega) huserId, Option.some.injEq] at hread
  exact hread.symm

theorem Command.Registers.cdh_found (h : c.Registers rpId userId cdh) : ∃ p,
    c.req.Holds p cdh ∧
      (getCborMapString 1 (c.reqLen - 1) 0x01).run c.req = some (some (p, 32)) := by
  obtain ⟨rp, user, rest, hcarries, -, -⟩ := h.carries
  have hentry := Command.Carries.entry [] hcarries (by omega) (by omega)
    trivial (by simp)
  obtain ⟨p, hholds, hrun⟩ := hentry.bytes (by rw [h.cdhLen]; omega)
  rw [h.cdhLen] at hrun
  exact ⟨p, hholds, hrun⟩

/-! ## The registration -/

/-- The credential which the registration leaves in slot `i`. -/
structure StoredIn (m m' : Mem) (i : Slot) (env : Env) (rpIdHash : Bytes 32)
    (userId : List UInt8) : Prop where
  magic : (m'.slotKey i).magic = passkeyMagic
  rpIdHash : (m'.slotKey i).rpIdHash = rpIdHash
  credentialId : (m'.slotKey i).credentialId = env.rng 0 32
  privateKey : (m'.slotKey i).privateKey = env.makeKey.2
  userIdLen : (m'.slotKey i).userIdLen.toNat = userId.length
  userId : m'.slice (slotAddr i + 37) userId.length = userId
  others : ∀ j ≠ i, m'.slotKey j = m.slotKey j

theorem slice_userId (m : Mem) (i : Slot) {n : ℕ} (hn : n ≤ 64) :
    m.slice (slotAddr i + 37) n = (m.slotKey i).userId.val.take n := by
  have harray : (m.slotKey i).userId.val = m.slice (slotAddr i + 37) 64 := rfl
  rw [harray, Mem.slice_take _ _ _ _ hn]

theorem storedIn_after_write {env : Env} {r : Registration} {i : Slot}
    (hlen : r.userId.length ≤ 64) :
    StoredIn m (m.after (writePageOps (slotAddr i) (r.key env).toBytes)) i env
      r.rpIdHash r.userId := by
  have hmagic : (r.key env).magic < 2 ^ 32 := show passkeyMagic < 2 ^ 32 by decide
  have hkey := slotKey_after_write m i i (k := r.key env) hmagic
  rw [if_pos rfl] at hkey
  have htake : r.userId.take 64 = r.userId := List.take_of_length_le hlen
  refine ⟨by rw [hkey]; rfl, by rw [hkey]; rfl, by rw [hkey]; rfl, by rw [hkey]; rfl,
    ?_, ?_, fun j hj => ?_⟩
  · rw [hkey, Registration.key, newKey, htake]
    dsimp only
    rw [UInt8.toNat_ofNat']
    omega
  · rw [slice_userId _ _ hlen, hkey, Registration.key, newKey, htake]
    exact Bytes.fill_take hlen
  · rw [slotKey_after_write m i j hmagic, if_neg hj]

theorem Command.Registers.registered {o : Outcome} (h : c.Registers rpId userId cdh)
    (ho : d.outcome c = some o) (hok : o.status = some 0x00) :
    ∃ i verified, o.resp = attestation c.env (sha256 rpId) verified cdh ∧
      StoredIn d.flash.mem (d.after o).flash.mem i c.env (sha256 rpId) userId := by
  obtain ⟨rp, user, rest, hcarries, -, -⟩ := h.carries
  rw [outcome_eq hcarries.reqLen_ne_zero, hcarries.cmd_eq] at ho
  cases makeCredential_effect o ho with
  | refused status hstatus _ ho =>
      rw [ho, reply_status] at hok
      exact absurd (Option.some.inj hok) hstatus
  | untouched cdh verified _ hpresence ho =>
      rw [ho, replyUnder_status] at hok
      exact absurd ((presence_status_eq_zero_iff _).1 (Option.some.inj hok)) hpresence
  | registered found verified hdecision hpresence heffect =>
      cases heffect with
      | excluded _ ho =>
          rw [ho, replyUnder_status] at hok
          exact absurd (Option.some.inj hok) (by decide)
      | full _ _ _ ho =>
          rw [ho, replyUnder_status] at hok
          exact absurd (Option.some.inj hok) (by decide)
      | saved r i cdhBytes _ hread _ hcdhBytes ho =>
          obtain ⟨hhash, huserId⟩ := h.registration r hread
          obtain ⟨p, hholds, hfound⟩ := h.cdh_found
          have hcdh := (mcDecision_spec _ hdecision).1
          rw [hfound, Option.some.injEq] at hcdh
          subst hcdh
          have hbytes : cdhBytes = cdh := by
            rw [attestedCdh, run_bytes, Option.some.injEq,
              hholds.slice_eq h.cdhLen.symm] at hcdhBytes
            exact hcdhBytes.symm
          subst ho hbytes
          refine ⟨i, verified.isSome, by rw [← hhash]; rfl, ?_⟩
          rw [Device.after, Flash.run_mem, ← hhash, ← huserId]
          exact storedIn_after_write (by rw [huserId]; exact h.userIdLen.2)

end

/-! ## What the host reads -/

/-- The coordinates of a COSE key. -/
def cosePoint : Item → Option (List UInt8)
  | .map entries =>
      match lookupNint 1 entries, lookupNint 2 entries with
      | some (.bytes x), some (.bytes y) => some (x ++ y)
      | _, _ => none
  | _ => none

/-- The credential id and the public key of the attested credential data. -/
def attestedCredential (authData : List UInt8) : Option (List UInt8 × List UInt8) :=
  match authData.drop 53 with
  | hi :: lo :: rest =>
      let n := 256 * hi.toNat + lo.toNat
      match (decode (rest.drop n)).bind cosePoint with
      | some point => some (rest.take n, point)
      | none => none
  | _ => none

def responseCredential (resp : List UInt8) : Option (List UInt8 × List UInt8) :=
  (responseAuthData resp).bind attestedCredential

/-- The user id of an assertion. -/
def responseUserId (resp : List UInt8) : Option (List UInt8) :=
  match responseEntry resp 4 with
  | some (.map entries) =>
      match lookupText (ascii "id") entries with
      | some (.bytes id) => some id
      | _ => none
  | _ => none

/-- A signature scheme for messages which have been hashed; a public key is the two
coordinates of a point. -/
structure Ecdsa where
  keyPair : List UInt8 → Bytes 32 → Prop
  verify : List UInt8 → Bytes 32 → ℕ → ℕ → Prop

/-- The calls of the elliptic curve library succeed and follow the scheme. -/
structure Ecdsa.Correct (S : Ecdsa) (env : Env) : Prop where
  makeKey : S.keyPair env.makeKey.1.val env.makeKey.2
  sign : ∀ pub priv digest, S.keyPair pub priv →
    S.verify pub digest (beNat ((env.sign priv digest).val.take 32))
      (beNat ((env.sign priv digest).val.drop 32))

/-- The signature of the response verifies over its authenticator data and the
clientDataHash. -/
def Verifies (S : Ecdsa) (pub resp cdh : List UInt8) : Prop :=
  ∃ authData der r s, responseAuthData resp = some authData ∧
    responseSignature resp = some der ∧ decodeDerSignature der = some (r, s) ∧
    S.verify pub (sha256 (authData ++ cdh)) r s

section

variable {S : Ecdsa} {env : Env} {rpIdHash : Bytes 32}

theorem signature_eq (env : Env) (privateKey : Bytes 32) (authData cdh : List UInt8) :
    signature env privateKey authData cdh =
      env.sign privateKey (sha256 (authData ++ cdh)) := by
  rw [signature, sha256, sha256Update_append]

theorem cosePoint_coseItem (pub : Bytes 64) : cosePoint (coseItem pub) = some pub.val := by
  simp [cosePoint, coseItem, lookupNint]

theorem coseItem_valid (pub : Bytes 64) : (coseItem pub).Valid := by
  simp [coseItem, Item.Valid, ValidEntries]

theorem attestedCredential_mc (flags : UInt8) (id : Bytes 32) (pub : Bytes 64) :
    attestedCredential (mcAuthData rpIdHash flags id pub) = some (id.val, pub.val) := by
  have hfront : (authDataHeader rpIdHash flags ++ aaguid).length = 53 := by
    rw [List.length_append, authDataHeader_length]
    rfl
  have hdrop : (mcAuthData rpIdHash flags id pub).drop 53 =
      0 :: 32 :: (id.val ++ (coseItem pub).encode) := by
    rw [mcAuthData, coseKey_eq, List.append_assoc, List.append_assoc,
      List.drop_left' hfront]
    rfl
  have hn : 256 * (0 : UInt8).toNat + (32 : UInt8).toNat = 32 := rfl
  rw [attestedCredential, hdrop]
  dsimp only
  rw [hn, List.drop_left' id.length_val, List.take_left' id.length_val,
    decode_encode _ (coseItem_valid pub), Option.bind_some, cosePoint_coseItem]

theorem responseCredential_attestation (verified : Bool) (cdh : List UInt8) :
    responseCredential (attestation env rpIdHash verified cdh) =
      some ((env.rng 0 32).val, env.makeKey.1.val) := by
  unfold attestation
  rw [responseCredential, responseAuthData_mc (mcAuthData_length _ _ _ _)
    (ecdsaSigToDer_length_le _), Option.bind_some, attestedCredential_mc]

theorem attestation_verifies (hS : S.Correct env) (verified : Bool) (cdh : List UInt8) :
    Verifies S env.makeKey.1.val (attestation env rpIdHash verified cdh) cdh := by
  unfold attestation
  refine ⟨_, _, _, _, responseAuthData_mc (mcAuthData_length _ _ _ _)
    (ecdsaSigToDer_length_le _), responseSignature_mc (mcAuthData_length _ _ _ _)
    (ecdsaSigToDer_length_le _), decodeDerSignature_ecdsaSigToDer _, ?_⟩
  rw [signature_eq]
  exact hS.sign _ _ _ hS.makeKey

end

/-! ## The assertions -/

/-- The assertion is for the user, and its signature verifies under the key. -/
structure LogsIn (S : Ecdsa) (rpId userId pub cdh resp : List UInt8) : Prop where
  rpIdHash : ∃ authData, responseAuthData resp = some authData ∧
    authData.take 32 = (sha256 rpId).val
  userId : responseUserId resp = some userId
  verifies : Verifies S pub resp cdh

section

variable {S : Ecdsa} {env env' : Env} {m m' : Mem} {i : Slot} {rpId userId : List UInt8}

theorem responseUserId_ga (h : StoredIn m m' i env (sha256 rpId) userId)
    (huser : 0 < userId.length) {authData : List UInt8} {cdh : Bytes 32} {total : ℕ}
    (hauth : authData.length = 37) (htotal : total < 2 ^ 32) :
    responseUserId (gaBuildResponse env' m' i authData cdh total) = some userId := by
  have hpos : (m'.slotKey i).userIdLen > 0 := by
    rw [gt_iff_lt, UInt8.lt_iff_toNat_lt, h.userIdLen]
    exact huser
  rw [responseUserId, gaResponse_entry hauth htotal, gaEntries, gaUserEntries, if_pos hpos,
    h.userIdLen, h.userId]
  simp [lookup, lookupText, str]

theorem StoredIn.logsIn (h : StoredIn m m' i env (sha256 rpId) userId)
    (huser : 0 < userId.length) (hS : S.Correct env) (hS' : S.Correct env')
    {flags : UInt8} {cdh : Bytes 32} {total : ℕ} (htotal : total < 2 ^ 32) :
    LogsIn S rpId userId env.makeKey.1.val cdh.val (gaBuildResponse env' m' i
      (authDataHeader (sha256 rpId) flags) cdh total) := by
  have hauth := authDataHeader_length (sha256 rpId) flags
  refine ⟨⟨_, responseAuthData_ga hauth htotal, ?_⟩,
    responseUserId_ga h huser hauth htotal, _, _, _, _, responseAuthData_ga hauth htotal,
    responseSignature_ga hauth htotal, decodeDerSignature_ecdsaSigToDer _, ?_⟩
  · exact List.take_left' (sha256 rpId).length_val
  · rw [signature_eq, h.privateKey]
    exact hS'.sign _ _ _ hS.makeKey

end

/-! ## The sign-in request -/

/-- A touched GetAssertion for the relying party, without allowList, options and
pinUvAuthParam. -/
structure Command.SignsIn (c : Command) (rpId h : List UInt8) : Prop where
  carries : ∃ rest, c.Carries 0x02 ((.uint 1, .text rpId) :: (.uint 2, .bytes h) :: rest) ∧
    ScannableEntries rest ∧
    ∀ e ∈ rest, e.1 ≠ .uint 3 ∧ e.1 ≠ .uint 5 ∧ e.1 ≠ .uint 6
  cdhLen : h.length = 32
  rpIdLen : 0 < rpId.length ∧ rpId.length ≤ 255
  presence : c.env.presence = .confirmed

/-- What the device reads of a sign-in request. -/
structure SignInRead (c : Command) (rpId h : List UInt8) (p q : ℕ) : Prop where
  value : (getCborMapValue 1 (c.reqLen - 1) 0x01).run c.req =
    some (some ⟨p, rpId.length, UInt8.ofNat (32 * 3)⟩)
  holds : c.req.Holds p rpId
  cdh : (getCborMapString 1 (c.reqLen - 1) 0x02).run c.req = some (some (q, 32))
  cdhHolds : c.req.slice q 32 = h
  allowList : (getCborMapValue 1 (c.reqLen - 1) 0x03).run c.req = some none
  options : (getCborMapValue 1 (c.reqLen - 1) 0x05).run c.req = some none
  pinAuth : (getCborMapString 1 (c.reqLen - 1) 0x06).run c.req = some none

section

variable {c : Command} {d : Device} {rpId h : List UInt8} {p q : ℕ}

theorem Command.SignsIn.read (hc : c.SignsIn rpId h) : ∃ p q, SignInRead c rpId h p q := by
  obtain ⟨rest, hcarries, hrest, hother⟩ := hc.carries
  have hlen := hc.cdhLen
  obtain ⟨-, hrpLe⟩ := hc.rpIdLen
  have hrpScannable : Scannable (.text rpId) := show rpId.length < 65536 by omega
  have hcdhScannable : Scannable (.bytes h) := show h.length < 65536 by omega
  have hentries : ScannableEntries
      ((.uint 1, .text rpId) :: (.uint 2, .bytes h) :: rest) :=
    ⟨by simp [Scannable], hrpScannable, by simp [Scannable], hcdhScannable, hrest⟩
  obtain ⟨p, hrpHolds, hrp⟩ := (Command.Carries.entry [] hcarries (by omega)
    (by omega) trivial (by simp)).value (n := rpId.length) (by omega)
    (by omega) rfl
  obtain ⟨q, hcdhHolds, hcdh⟩ := (Command.Carries.entry [_] hcarries (by omega)
    (by omega) ⟨by simp [Scannable], hrpScannable, trivial⟩ (by simp)).bytes
    (by omega)
  have hmissing : ∀ key, key = 3 ∨ key = 5 ∨ key = 6 →
      (getCborMapValue 1 (c.reqLen - 1) key).run c.req = some none := by
    intro key hkey
    refine hcarries.missing (by omega) (by omega) hentries fun e he => ?_
    simp only [List.mem_cons] at he
    rcases he with rfl | rfl | he
    · simp only [ne_eq, Item.uint.injEq]
      omega
    · simp only [ne_eq, Item.uint.injEq]
      omega
    · obtain ⟨h3, h5, h6⟩ := hother e he
      rcases hkey with rfl | rfl | rfl
      · exact h3
      · exact h5
      · exact h6
  rw [hlen] at hcdh
  refine ⟨p, q, hrp, hrpHolds, hcdh, hcdhHolds.slice_eq hlen.symm, hmissing 3 (by simp),
    hmissing 5 (by simp), ?_⟩
  rw [getCborMapString, run_bind, hmissing 6 (by simp)]
  rfl

theorem Command.SignsIn.bare (hc : c.SignsIn rpId h) : c.BareAssertion (sha256 rpId) := by
  obtain ⟨p, q, hread⟩ := hc.read
  obtain ⟨rest, hcarries, -, -⟩ := hc.carries
  refine ⟨hcarries.reqLen_ne_zero, hcarries.cmd_eq, ?_, none, hread.allowList, by simp⟩
  rw [gaRpIdHash, run_bind, hread.value, Option.bind_some]
  exact rpIdHashOf_holds hc.rpIdLen.1 hread.holds

theorem SignInRead.storedCdh (hread : SignInRead c rpId h p q) :
    (storedCdh (some (q, 32))).run c.req = some (Bytes.fill 0 32 h) := by
  rw [UnsoloKey.storedCdh, if_pos le_rfl, run_bind, run_bytes, hread.cdhHolds]
  rfl

theorem SignInRead.signedCdh (hread : SignInRead c rpId h p q) :
    (signedCdh (some (q, 32))).run c.req = some (Bytes.fill 0 32 h) := by
  rw [UnsoloKey.signedCdh, if_pos rfl, run_bind, run_bytes, hread.cdhHolds]
  rfl

theorem selectCredential_first {i : Slot} {rpIdHash stored : Bytes 32}
    (hfirst : (slotsOfRp d.flash.mem rpIdHash)[0]? = some i)
    (hstored : (storedCdh (some (q, 32))).run c.req = some stored) :
    ∃ total ctap, (selectCredential d c.reqLen rpIdHash (some (q, 32)) none).run c.req =
      some (some (i, total), ctap) := by
  have hcount : ¬ passkeyCountForRp d.flash.mem rpIdHash = 0 := by
    have hpos := (List.getElem?_eq_some_iff.1 hfirst).1
    rw [passkeyCountForRp_eq]
    omega
  have hget : passkeyGetByRpIndex d.flash.mem rpIdHash 0 = some i := hfirst
  unfold selectCredential
  rw [if_pos rfl]
  simp only [hget, if_neg hcount, run_bind, hstored, Option.bind_some]
  exact ⟨_, _, rfl⟩

theorem Command.SignsIn.succeeds (hc : c.SignsIn rpId h) {i : Slot}
    (hfirst : (slotsOfRp d.flash.mem (sha256 rpId))[0]? = some i) :
    ∃ o, d.outcome c = some o ∧ o.status = some 0x00 := by
  obtain ⟨p, q, hread⟩ := hc.read
  have hbare := hc.bare
  obtain ⟨total, ctap, hselect⟩ := selectCredential_first (d := d.onChannel c.cid) hfirst
    hread.storedCdh
  have hhash := rpIdHashOf_holds hc.rpIdLen.1 hread.holds
  have htouched : ¬ (c.env.presence.status ≠ 0x00) := by
    rw [not_not, presence_status_eq_zero_iff]
    exact hc.presence
  rw [outcome_eq hbare.len, hbare.cmd]
  have hget : (processCommand c.env (d.onChannel c.cid) c.reqLen 0x02).run c.req =
      (getAssertion c.env (d.onChannel c.cid) c.reqLen).run c.req := rfl
  rw [hget, getAssertion, run_bind, hread.value, Option.bind_some, run_bind, hread.cdh,
    Option.bind_some, run_bind, hread.allowList, Option.bind_some, run_bind, Option.map_some,
    hhash, Option.bind_some, run_bind, hselect, Option.bind_some, assertSelected]
  dsimp only
  rw [run_bind, hread.pinAuth, Option.bind_some]
  dsimp only
  rw [assertCredential, run_bind, hread.options, Option.bind_some]
  simp [assertionOptions, htouched, hread.signedCdh]
  rfl

end

/-! ## The walk -/

theorem exists_of_forall₂_mem {α β : Type} {R : α → β → Prop} {xs : List α} {ys : List β}
    (h : List.Forall₂ R xs ys) {y : β} (hy : y ∈ ys) : ∃ x ∈ xs, R x y := by
  induction h with
  | nil => cases hy
  | cons hxy _ ih =>
      rcases List.mem_cons.1 hy with rfl | hy
      · exact ⟨_, List.mem_cons_self, hxy⟩
      · obtain ⟨x, hx, hR⟩ := ih hy
        exact ⟨x, List.mem_cons_of_mem _ hx, hR⟩

/-- The random bytes of the credential id are not the id of a stored credential. -/
def FreshId (m : Mem) (env : Env) : Prop :=
  ∀ i, (m.slotKey i).magic = passkeyMagic → (m.slotKey i).credentialId ≠ env.rng 0 32

/-- The walk which starts with `signIn` ends, and lists the credential `id` once, as an
assertion for the user which verifies under `pub`. -/
structure WalkFinds (S : Ecdsa) (d : Device) (signIn : Command) (nexts : List Command)
    (rpId userId id pub h : List UInt8) (rs : List (List UInt8)) : Prop where
  walk : d.responses (signIn :: nexts) = some (rs ++ [[0x2E]])
  succeeded : ∀ r ∈ rs, r.head? = some 0x00
  once : rs.countP (fun r => responseCredentialId r = some id) = 1
  logsIn : ∀ r ∈ rs, responseCredentialId r = some id → LogsIn S rpId userId pub h r

section

variable {S : Ecdsa} {env : Env} {m m' : Mem} {i : Slot} {rpIdHash : Bytes 32}
  {userId : List UInt8}

theorem StoredIn.mem_slotsOfRp (h : StoredIn m m' i env rpIdHash userId) :
    i ∈ slotsOfRp m' rpIdHash := by
  refine List.mem_filter.2 ⟨mem_slots i, ?_⟩
  simp [isOfRp, isOccupied_iff, h.magic, h.rpIdHash]

theorem StoredIn.eq_of_id (h : StoredIn m m' i env rpIdHash userId)
    (hfresh : FreshId m env) {j : Slot} (hj : j ∈ slotsOfRp m' rpIdHash)
    (hid : (m'.slotKey j).credentialId = env.rng 0 32) : j = i := by
  by_contra hne
  have hoccupied := isOccupied_iff.1 (isOfRp_iff.1 (List.mem_filter.1 hj).2).1
  rw [h.others j hne] at hid hoccupied
  exact hfresh j hoccupied hid

theorem StoredIn.count_id (h : StoredIn m m' i env rpIdHash userId)
    (hfresh : FreshId m env) :
    (slotsOfRp m' rpIdHash).countP
      (fun j => (m'.slotKey j).credentialId.val = (env.rng 0 32).val) = 1 := by
  have hnodup : (slotsOfRp m' rpIdHash).Nodup := (List.nodup_finRange _).filter _
  rw [← List.count_eq_one_of_mem hnodup h.mem_slotsOfRp]
  refine List.countP_congr fun j hj => ?_
  simp only [decide_eq_true_eq, beq_iff_eq]
  constructor
  · exact fun hid => h.eq_of_id hfresh hj (Subtype.ext hid)
  · rintro rfl
    rw [h.credentialId]

theorem AnswersFor.head {commands : List Command} {cdhs : List (Bytes 32)}
    {r : List UInt8} (h : AnswersFor commands m rpIdHash cdhs i r) :
    r.head? = some 0x00 := by
  obtain ⟨c, -, flags, cdh, -, rfl⟩ := h
  rfl

end

/-- A registration which has succeeded can be used to log in. -/
theorem login {S : Ecdsa} {d : Device} {c : Command} {o : Outcome}
    {rpId userId cdh : List UInt8} (hc : c.Registers rpId userId cdh)
    (hfresh : FreshId d.flash.mem c.env) (hS : S.Correct c.env)
    (ho : d.outcome c = some o) (hok : o.status = some 0x00) :
    ∃ id pub, responseCredential o.resp = some (id, pub) ∧ Verifies S pub o.resp cdh ∧
      ∀ (h : List UInt8) (signIn : Command) (nexts : List Command),
        signIn.SignsIn rpId h → (∀ n ∈ nexts, n.TouchedNext) →
        (∀ n ∈ signIn :: nexts, S.Correct n.env) →
        nexts.length = (idsOfRp (d.after o).flash.mem (sha256 rpId)).length →
        ∃ rs, WalkFinds S (d.after o) signIn nexts rpId userId id pub h rs := by
  obtain ⟨i, verified, hresp, hstored⟩ := hc.registered ho hok
  refine ⟨(c.env.rng 0 32).val, c.env.makeKey.1.val, ?_, ?_, ?_⟩
  · rw [hresp, responseCredential_attestation]
  · rw [hresp]
    exact attestation_verifies hS verified cdh
  · intro h signIn nexts hsign hnexts hcorrect hlength
    obtain ⟨first, hfirst⟩ : ∃ first,
        (slotsOfRp (d.after o).flash.mem (sha256 rpId))[0]? = some first := by
      have hpos := List.length_pos_of_mem hstored.mem_slotsOfRp
      exact ⟨_, List.getElem?_eq_getElem hpos⟩
    obtain ⟨o', ho', hok'⟩ := hsign.succeeds (d := d.after o) hfirst
    obtain ⟨plan, signed, stored, hwalk⟩ := firstAssertion hsign.bare ho' hok'
    obtain ⟨p, q, hread⟩ := hsign.read
    have hplan : plan.cdh = some (q, 32) :=
      Option.some.inj (hwalk.cdh.symm.trans hread.cdh)
    have hsigned : signed = Bytes.fill 0 32 h := by
      have hsigns := hwalk.signs
      rw [hplan, hread.signedCdh] at hsigns
      exact (Option.some.inj hsigns).symm
    have hstores : stored = Bytes.fill 0 32 h := by
      have hstore := hwalk.stores
      rw [hplan, hread.storedCdh] at hstore
      exact (Option.some.inj hstore).symm
    subst hsigned hstores
    rw [idsOfRp, List.length_map] at hlength
    obtain ⟨rs, hrs, hall⟩ := hwalk.responses ho' hnexts hlength
    have hids : rs.map responseCredentialId =
        (slotsOfRp (d.after o).flash.mem (sha256 rpId)).map fun j =>
          some ((d.after o).flash.mem.slotKey j).credentialId.val :=
      map_eq_of_forall₂ hall fun j r hr => hr.credentialId
    refine ⟨rs, hrs, fun r hr => ?_, ?_, fun r hr hid => ?_⟩
    · obtain ⟨j, -, hanswer⟩ := exists_of_forall₂_mem hall hr
      exact hanswer.head
    · have hcount := hstored.count_id hfresh
      have hsame := congrArg
        (List.countP fun id => decide (id = some (c.env.rng 0 32).val)) hids
      rw [List.countP_map, List.countP_map] at hsame
      refine hsame.trans (Eq.trans (List.countP_congr fun j _ => ?_) hcount)
      simp
    · obtain ⟨j, hj, hanswer⟩ := exists_of_forall₂_mem hall hr
      rw [hanswer.credentialId, Option.some.injEq] at hid
      obtain rfl : j = i := hstored.eq_of_id hfresh hj (Subtype.ext hid)
      obtain ⟨n, hn, flags, cdh', hcdh', rfl⟩ := hanswer
      have hval : cdh'.val = h := by
        simp only [List.mem_cons, List.not_mem_nil, or_false, or_self] at hcdh'
        rw [hcdh', Bytes.fill_val hsign.cdhLen]
      rw [← hval]
      exact hstored.logsIn hc.userIdLen.1 hS (hcorrect n hn)
        (slotsOfRp_length_lt _ _)

/-- The public key of the private key `07…07`. -/
def hostPoint : Bytes 64 := Bytes.fill 0 64
  [0x1E, 0x18, 0x53, 0x2F, 0xD4, 0x75, 0x4C, 0x02, 0xF3, 0x04, 0x1D, 0x9C, 0x75, 0xCE,
    0xB3, 0x3B, 0x83, 0xFF, 0xD8, 0x1A, 0xC7, 0xCE, 0x4F, 0xE8, 0x82, 0xCC, 0xB1, 0xC9,
    0x8B, 0xC5, 0x89, 0x6E, 0xA4, 0x6C, 0x31, 0x1C, 0x4E, 0x2F, 0xF4, 0x0D, 0xD9, 0x6A,
    0x36, 0x53, 0xE6, 0xE4, 0x54, 0x45, 0xD3, 0x2D, 0xFE, 0x48, 0x6E, 0xCE, 0xD7, 0x5C,
    0x7A, 0x90, 0xC6, 0xA1, 0x88, 0x81, 0xC0, 0xA3]

def attestationDigest : Bytes 32 := Bytes.fill 0 32
  [0xB0, 0xD6, 0xBA, 0x35, 0x88, 0xBF, 0xFD, 0x51, 0x54, 0xFE, 0xDC, 0x01, 0xA1, 0x12,
    0xD1, 0xFF, 0xC8, 0xFC, 0x86, 0xD9, 0x17, 0x71, 0xD7, 0xCF, 0x8F, 0x54, 0xCE, 0x5B,
    0x36, 0x55, 0x41, 0x51]

def attestationSignature : Bytes 64 := Bytes.fill 0 64
  [0x70, 0xDA, 0x02, 0xCF, 0x23, 0x89, 0x33, 0x8F, 0x3C, 0x6E, 0x32, 0x81, 0x54, 0x7B,
    0x79, 0x97, 0xF6, 0x4B, 0x78, 0x95, 0x5C, 0xD0, 0xCC, 0xE7, 0x09, 0x04, 0xF0, 0x26,
    0x59, 0x33, 0x5D, 0xAD, 0x62, 0xC9, 0xAE, 0xCF, 0xB5, 0xF3, 0xB7, 0xF6, 0x7E, 0x5F,
    0x02, 0xDE, 0x29, 0x99, 0x8B, 0x47, 0x6A, 0x4E, 0x27, 0xD8, 0xB6, 0x94, 0xC0, 0xB0,
    0x29, 0xFE, 0x60, 0x20, 0x61, 0x13, 0x70, 0xDC]

def assertionSignature : Bytes 64 := Bytes.fill 0 64
  [0xB6, 0xCC, 0xF7, 0xDE, 0x56, 0x6D, 0xB2, 0xE7, 0xE1, 0x2A, 0x8B, 0x47, 0x79, 0x55,
    0x46, 0x13, 0x52, 0x81, 0x00, 0x6B, 0x86, 0x0E, 0x3F, 0x4F, 0xD8, 0x86, 0x60, 0x92,
    0x08, 0x5E, 0x53, 0x4F, 0x88, 0xB6, 0xF5, 0x1F, 0x8A, 0x54, 0xAA, 0x03, 0x54, 0xF4,
    0x6F, 0xA4, 0x14, 0x2D, 0x5F, 0x50, 0x8C, 0x93, 0x0D, 0xBF, 0x4B, 0x62, 0xB6, 0xA8,
    0x8E, 0x01, 0xE3, 0x54, 0x45, 0xF9, 0x26, 0x1A]

/-- P-256 signatures under `07…07` for the two digests of this registration and of its
sign-in. -/
def hostSign (_ digest : Bytes 32) : Bytes 64 :=
  if digest = attestationDigest then attestationSignature else assertionSignature

def keyedEnv : Env :=
  { hostEnv with makeKey := (hostPoint, Bytes.fill 7 32 []), sign := hostSign }

def hostScheme : Ecdsa where
  keyPair pub priv := pub = hostPoint.val ∧ priv = Bytes.fill 7 32 []
  verify pub digest r s := pub = hostPoint.val ∧
    r = beNat ((hostSign (Bytes.fill 7 32 []) digest).val.take 32) ∧
    s = beNat ((hostSign (Bytes.fill 7 32 []) digest).val.drop 32)

theorem hostScheme_correct : hostScheme.Correct keyedEnv where
  makeKey := ⟨rfl, rfl⟩
  sign := by
    rintro pub priv digest ⟨rfl, rfl⟩
    exact ⟨rfl, rfl, rfl⟩

def keyedRegister : Command := { registerCommand with env := keyedEnv }
def keyedSignIn : Command := { signInCommand with env := keyedEnv }
def keyedNext : Command := { nextCommand with env := keyedEnv }

theorem hasId_single {id : Item} (hid : Scannable id) : HasId [(str "id", id)] id where
  scannable := ⟨by simp [str, Scannable, ascii], hid, trivial⟩
  entry := ⟨[], [], rfl, by simp⟩

theorem keyedRegister_registers :
    keyedRegister.Registers [0x61] [0x01] (List.replicate 32 0xC5) where
  carries := ⟨_, _, [], ⟨holds_getD _, by decide +kernel, by decide +kernel⟩,
    hasId_single (by simp [Scannable]), hasId_single (by simp [Scannable])⟩
  cdhLen := by decide
  rpIdLen := by decide
  userIdLen := by decide

theorem keyedSignIn_signsIn : keyedSignIn.SignsIn [0x61] (List.replicate 32 0xC5) where
  carries := ⟨[], ⟨holds_getD _, by decide +kernel, by decide +kernel⟩, trivial,
    by simp⟩
  cdhLen := by decide
  rpIdLen := by decide
  presence := rfl

theorem login_host : ∃ (o : Outcome) (id pub : List UInt8) (nexts : List Command)
    (rs : List (List UInt8)),
    (Device.powerUp (fun _ => 0xFF)).outcome keyedRegister = some o ∧
      Verifies hostScheme pub o.resp (List.replicate 32 0xC5) ∧
      WalkFinds hostScheme ((Device.powerUp (fun _ => 0xFF)).after o) keyedSignIn nexts
        [0x61] [0x01] id pub (List.replicate 32 0xC5) rs := by
  have hruns : ((Device.powerUp (fun _ => 0xFF)).outcome keyedRegister).any
      (fun o => o.status = some 0x00) = true := by decide +kernel
  obtain ⟨o, ho, hstatus⟩ := (Option.any_eq_true _ _).1 hruns
  have hfresh : FreshId (Device.powerUp (fun _ => 0xFF)).flash.mem keyedRegister.env := by
    intro i hmagic
    have hempty : ((Device.powerUp (fun _ => 0xFF)).flash.mem.slotKey i).magic =
        emptyMagic := erased_magic i
    rw [hempty] at hmagic
    exact absurd hmagic.symm passkeyMagic_ne_emptyMagic
  obtain ⟨id, pub, -, hattested, hwalk⟩ := login keyedRegister_registers hfresh
    hostScheme_correct ho (of_decide_eq_true hstatus)
  obtain ⟨rs, hrs⟩ := hwalk (List.replicate 32 0xC5) keyedSignIn
    (List.replicate _ keyedNext) keyedSignIn_signsIn
    (fun n hn => by
      rw [List.eq_of_mem_replicate hn]
      exact ⟨by decide, by decide, rfl⟩)
    (fun n hn => by
      rcases List.mem_cons.1 hn with rfl | hn
      · exact hostScheme_correct
      · rw [List.eq_of_mem_replicate hn]
        exact hostScheme_correct)
    List.length_replicate
  exact ⟨o, id, pub, _, rs, ho, hattested, hrs⟩

end UnsoloKey
