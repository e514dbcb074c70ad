import UnsoloKey.CanonicalRequest
import UnsoloKey.CborExtent
import UnsoloKey.DerSignature
import UnsoloKey.PinLifecycle
import UnsoloKey.Responses
import UnsoloKey.TokenProtocol
import Mathlib.Tactic

/-!
# The host's point

The keyAgreement parameter carries the coordinates of a point as two byte strings.
`process_client_pin` puts them right-aligned into 64 bytes, without a look at the byte
which is left over and without a check of the point, and goes on with whatever
`uECC_shared_secret` makes of it.
-/

namespace UnsoloKey

open Rd Cbor

/-! ## The curve -/

def p256 : ℕ := 0xFFFFFFFF00000001000000000000000000000000FFFFFFFFFFFFFFFFFFFFFFFF

def b256 : ℕ := 0x5AC635D8AA3A93E7B3EBBD55769886BC651D06B0CC53B0F63BCE3C3E27D2604B

/-- A finite point of P-256. -/
structure OnP256 (x y : ℕ) : Prop where
  x_lt : x < p256
  y_lt : y < p256
  equation : (y : ℤ) ^ 2 ≡ (x : ℤ) ^ 3 - 3 * x + b256 [ZMOD p256]

theorem p256_lt : p256 < 256 ^ 32 := by decide

/-! ## What a COSE key denotes -/

/-- The byte string of definite length which stands at the address. -/
def byteStringAt (at_ : ℕ) : Rd (Option (List UInt8)) := do
  let b ← byte at_
  if majorBits b ≠ 0x40 then return none
  else if infoBits b < 24 then return some (← bytes (at_ + 1) (infoBits b))
  else if infoBits b < 28 then
    let n := 2 ^ (infoBits b - 24)
    let len ← bytes (at_ + 1) n
    return some (← bytes (at_ + 1 + n) (beNat len))
  else return none

/-- The integer which the byte string under the negative label denotes. -/
def coordinateAt (ka kaLen label : ℕ) : Rd (Option ℕ) := do
  match ← walkMap (isNegKey label) placeFound none none ka kaLen with
  | none => return none
  | some (at_, _) => return (← byteStringAt at_).map beNat

/-- The COSE key of the request has the coordinates. -/
def Command.NamesPoint (c : Command) (x y : ℕ) : Prop :=
  ∃ ka kaLen, (getCborMapItem 1 (c.reqLen - 1) 0x03).run c.req = some (.item ka kaLen) ∧
    (coordinateAt ka kaLen 2).run c.req = some (some x) ∧
    (coordinateAt ka kaLen 3).run c.req = some (some y)

/-- The request names a point of the curve, with which `uECC_shared_secret` succeeds;
`pub` is the encoding of the point which that function takes. -/
structure ValidKey (succeeds : Bytes 64 → Bytes 32 → Bool) (d : Device) (c : Command)
    (pub : Bytes 64) : Prop where
  named : c.NamesPoint (beNat (pub.val.take 32)) (beNat (pub.val.drop 32))
  onCurve : OnP256 (beNat (pub.val.take 32)) (beNat (pub.val.drop 32))
  succeeds : succeeds pub d.pin.ecdhPrivateKey = true

/-! ## What the code makes of it -/

section

variable {m : Mem} {v : MapValue} {at_ : ℕ} {xs : List UInt8}

/-- The byte string behind a head with a length of at most 16 bits. -/
theorem byteStringAt_head {count headLen : ℕ} (hmajor : majorBits (m at_) = 0x40)
    (hinfo : infoBits (m at_) < 26)
    (hhead : (headCount at_ (infoBits (m at_))).run m = some (count, headLen)) :
    (byteStringAt at_).run m = some (some (m.slice (at_ + headLen) count)) := by
  rw [byteStringAt, run_bind, run_byte, Option.bind_some, run_ite, if_neg (not_not.2 hmajor),
    run_ite]
  by_cases hshort : infoBits (m at_) < 24
  · have hne : infoBits (m at_) ≠ 24 ∧ infoBits (m at_) ≠ 25 := by omega
    rw [headCount, if_neg hne.1, if_neg hne.2, run_pure, Option.some.injEq,
      Prod.mk.injEq] at hhead
    rw [if_pos hshort, run_bind, run_bytes, Option.bind_some, run_pure, hhead.1, hhead.2]
  · rw [if_neg hshort, run_ite, if_pos (by omega)]
    by_cases hone : infoBits (m at_) = 24
    · have hlen : beNat (m.slice (at_ + 1) (2 ^ (24 - 24))) = (m (at_ + 1)).toNat := by
        change beNat (m.slice (at_ + 1) 1) = _
        simp [Mem.slice_succ, beNat]
      rw [hone, headCount, if_pos rfl, run_bind, run_byte, Option.bind_some, run_pure,
        Option.some.injEq, Prod.mk.injEq] at hhead
      rw [hone, run_bind, run_bytes, Option.bind_some, run_bind, run_bytes, Option.bind_some,
        run_pure, hlen, hhead.1, ← hhead.2]
      rfl
    · have htwo : infoBits (m at_) = 25 := by omega
      have hlen : beNat (m.slice (at_ + 1) (2 ^ (25 - 24))) =
          (m (at_ + 1)).toNat * 256 + (m (at_ + 2)).toNat := by
        change beNat (m.slice (at_ + 1) 2) = _
        simp [Mem.slice_succ, beNat]
      rw [htwo, headCount, if_neg (by omega), if_pos rfl, run_bind, run_byte, Option.bind_some,
        run_bind, run_byte, Option.bind_some, run_pure, Option.some.injEq,
        Prod.mk.injEq] at hhead
      rw [htwo, run_bind, run_bytes, Option.bind_some, run_bind, run_bytes, Option.bind_some,
        run_pure, hlen, hhead.1, ← hhead.2]
      rfl

/-- What the accessor reports of an accepted byte string is its contents. -/
theorem valuePayload_byteString {r : ℕ} (hbytes : (byteStringAt at_).run m = some (some xs))
    (hrun : (valuePayload at_ r).run m = some (some v)) (hbad : badCoordinate v = false) :
    m.slice v.ptr v.len = xs := by
  have hlen : 31 ≤ v.len := by
    simp only [badCoordinate, decide_eq_false_iff_not] at hbad
    omega
  rw [valuePayload, run_bind, run_byte, Option.bind_some, run_bind_eq_some] at hrun
  obtain ⟨⟨count, headLen⟩, hhead, hv⟩ := hrun
  rw [run_pure, Option.some.injEq, Option.some.injEq] at hv
  subst hv
  by_cases hmajor : majorBits (m at_) = 0x40
  · by_cases hinfo : infoBits (m at_) < 26
    · rw [byteStringAt_head hmajor hinfo hhead, Option.some.injEq, Option.some.injEq] at hbytes
      exact hbytes
    · rw [headCount, if_neg (by omega), if_neg (by omega), run_pure, Option.some.injEq,
        Prod.mk.injEq] at hhead
      have hlong : 31 ≤ infoBits (m at_) := by
        rw [hhead.1]
        exact hlen
      rw [byteStringAt, run_bind, run_byte, Option.bind_some, run_ite,
        if_neg (not_not.2 hmajor), run_ite, if_neg (by omega), run_ite, if_neg (by omega)]
        at hbytes
      simp at hbytes
  · rw [byteStringAt, run_bind, run_byte, Option.bind_some, run_ite, if_pos hmajor] at hbytes
    simp at hbytes

/-- A coordinate which fits in 32 bytes is put into them unchanged. -/
theorem coordinate_beNat (hbad : badCoordinate v = false)
    (hlt : beNat (m.slice v.ptr v.len) < 256 ^ 32) :
    (coordinate v).Returns m fun cs => beNat cs.val = beNat (m.slice v.ptr v.len) := by
  have hlen : 31 ≤ v.len ∧ v.len ≤ 33 := by
    simp only [badCoordinate, decide_eq_false_iff_not] at hbad
    omega
  unfold coordinate
  refine Returns.ite (fun h33 => ?_) fun h33 => Returns.ite (fun h32 => ?_) fun h32 => ?_
  · intro cs hcs
    rw [run_bind, run_bytes, Option.bind_some, run_pure, Option.some.injEq] at hcs
    rw [h33, Mem.slice_succ, beNat_cons, Mem.slice_length] at hlt ⊢
    have hzero : (m v.ptr).toNat = 0 := by
      by_contra hne
      have hle : 1 * 256 ^ 32 ≤ (m v.ptr).toNat * 256 ^ 32 :=
        Nat.mul_le_mul_right _ (Nat.one_le_iff_ne_zero.2 hne)
      omega
    rw [← hcs, Bytes.fill_val (Mem.slice_length _ _ _), hzero, Nat.zero_mul, Nat.zero_add]
  · intro cs hcs
    rw [run_bind, run_bytes, Option.bind_some, run_pure, Option.some.injEq] at hcs
    rw [← hcs, h32, Bytes.fill_val (Mem.slice_length _ _ _)]
  · intro cs hcs
    have h31 : v.len = 31 := by omega
    rw [run_bind, run_bytes, Option.bind_some, run_pure, Option.some.injEq] at hcs
    rw [← hcs, h31, Bytes.fill_val (by simp), beNat_zero_cons]

/-- The value under the label is the coordinate. -/
theorem coordinate_named {x ka kaLen label : ℕ}
    (hnamed : (coordinateAt ka kaLen label).run m = some (some x)) (hlt : x < 256 ^ 32)
    (hvalue : (getCborMapNegValue ka kaLen label).run m = some (some v))
    (hbad : badCoordinate v = false) :
    (coordinate v).Returns m fun cs => beNat cs.val = x := by
  rcases walkMap_place hvalue with ⟨hnone, -⟩ | ⟨at_, r, -, hplace, hrun⟩
  · simp at hnone
  · rw [coordinateAt, run_bind, hplace, Option.bind_some, run_bind_eq_some] at hnamed
    obtain ⟨bs, hbytes, hx⟩ := hnamed
    rw [run_pure, Option.some.injEq, Option.map_eq_some_iff] at hx
    obtain ⟨xs, rfl, rfl⟩ := hx
    have hslice := valuePayload_byteString hbytes hrun hbad
    rw [← hslice] at hlt ⊢
    exact coordinate_beNat hbad hlt

end

/-! ## Canonical COSE keys -/

section

variable {m : Mem} {at_ data n : ℕ} {entries after : List Entry} {k v : Item} {xs : List UInt8}

theorem isNegKey_run (hn : n < 24) : (isNegKey (n + 1) at_).run m =
    some (decide (m at_ = UInt8.ofNat (32 * 1 + n))) := by
  have hor : 0x20 ||| (n + 1 - 1) = 32 * 1 + n := by
    interval_cases n <;> rfl
  have hnat : (UInt8.ofNat (32 * 1 + n)).toNat = 32 * 1 + n := by
    rw [UInt8.toNat_ofNat', Nat.mod_eq_of_lt (by omega)]
  rw [isNegKey, run_bind, run_byte, Option.bind_some, run_pure, hor, Option.some.injEq,
    decide_eq_decide]
  constructor
  · intro h
    exact UInt8.toNat_inj.1 (h.2.2.trans hnat.symm)
  · intro h
    rw [h]
    exact ⟨(bits_of_initial ⟨1, by omega⟩ ⟨n, by omega⟩).1, Nat.succ_pos n, hnat⟩

theorem isNegKey_nint (hn : n < 24) (hm : m.Holds at_ (Item.nint n).encode) :
    (isNegKey (n + 1) at_).run m = some true := by
  rw [Item.encode, head, if_pos hn] at hm
  rw [isNegKey_run hn, decide_eq_true (Mem.holds_cons.1 hm).1]

theorem isNegKey_miss (hn : n < 24) (hk : Scannable k) (hne : k ≠ .nint n)
    (hm : m.Holds at_ k.encode) : (isNegKey (n + 1) at_).run m = some false := by
  rw [isNegKey_run hn, decide_eq_false]
  intro hbyte
  obtain ⟨hmajor, hinfo⟩ := bits_of_initial ⟨1, by omega⟩ ⟨n, by omega⟩
  by_cases hnint : majorOf k = 1
  · cases k with
    | nint n' =>
        rw [← hbyte] at hinfo
        have hinfo : infoBits (m at_) = n := hinfo
        rcases infoBits_of_holds (by omega) hk hm with h | h | h
        · exact hne (by rw [← h.2, hinfo])
        · omega
        · omega
    | _ => simp [majorOf] at hnint
  · exact majorBits_ne hk hm (by omega) hnint (by rw [hbyte, hmajor])

theorem lookupNint_some (h : lookupNint n entries = some v) :
    ∃ before after, entries = before ++ (.nint n, v) :: after ∧
      ∀ e ∈ before, e.1 ≠ .nint n := by
  induction entries with
  | nil => simp [lookupNint] at h
  | cons e rest ih =>
      rcases e with ⟨k, v'⟩
      by_cases hk : k = .nint n
      · rw [hk, lookupNint, if_pos rfl, Option.some.injEq] at h
        exact ⟨[], rest, by rw [hk, h]; rfl, by simp⟩
      · have hrest : lookupNint n ((k, v') :: rest) = lookupNint n rest := by
          cases k with
          | nint n' => exact if_neg fun h => hk (congrArg Item.nint h)
          | _ => rfl
        obtain ⟨before, after, hsplit, hother⟩ := ih (hrest.symm.trans h)
        exact ⟨(k, v') :: before, after, by rw [hsplit]; rfl, by simpa [hk] using hother⟩

theorem byteStringAt_bytes (hlen : xs.length < 65536)
    (hm : m.Holds at_ (Item.bytes xs).encode) :
    (byteStringAt at_).run m = some (some xs) := by
  rw [Item.encode, Mem.holds_append] at hm
  have hhead := headAt_of_holds (by omega) hlen hm.1
  have hinfo : infoBits (m at_) < 26 := by
    rcases infoBits_of_holds (by omega) hlen hm.1 with h | h | h <;> omega
  rw [byteStringAt_head (hhead.bits.trans rfl) hinfo hhead.count, hm.2.slice_eq rfl]

/-- The byte string under the label is the coordinate. -/
theorem coordinateAt_of_lookup (hn : n < 24) (hscan : ScannableEntries entries)
    (hfound : lookupNint n entries = some (.bytes xs))
    (hm : m.Holds data (Item.map entries).encode)
    (hlen : (Item.map entries).encode.length < 65536) :
    (coordinateAt data (Item.map entries).encode.length (n + 1)).run m =
      some (some (beNat xs)) := by
  obtain ⟨before, after, rfl, hother⟩ := lookupNint_some hfound
  obtain ⟨hbefore, -, hvalue, -⟩ := scannableEntries_append.1 hscan
  have hkey : Scannable (.nint n) := by
    change n < 65536
    omega
  generalize htotal : (Item.map (before ++ (.nint n, .bytes xs) :: after)).encode.length = len
    at hlen ⊢
  have hwalk : ∃ o, m.Holds (data + o) (Item.bytes xs).encode ∧ _ ∧
      (walkMap (isNegKey (n + 1)) placeFound none none data len).run m =
        (placeFound (data + o) (len - o)).run m :=
    walkMap_found (lt_of_le_of_lt (length_le_encode_map _) (htotal ▸ hlen)) hbefore hkey hm
      htotal.le hlen (fun e he at_ hat =>
        isNegKey_miss hn (scannable_of_mem hbefore he).1 (hother e he) hat)
      fun at_ hat => isNegKey_nint hn hat
  obtain ⟨o, hbytes, -, hplace⟩ := hwalk
  rw [coordinateAt, run_bind, hplace, placeFound, run_pure, Option.bind_some, run_bind,
    byteStringAt_bytes hvalue hbytes]
  rfl

/-- For a canonical request the point is that of its COSE key. -/
theorem namesPoint_of_carries {c : Command} {cmd : UInt8} {key : List Entry}
    {ys : List UInt8} (h : c.Carries cmd entries) (hkey : HasEntry entries 3 (.map key))
    (hscan : Scannable (.map key)) (hx : lookupNint 1 key = some (.bytes xs))
    (hy : lookupNint 2 key = some (.bytes ys)) : c.NamesPoint (beNat xs) (beNat ys) := by
  obtain ⟨hlen, p, hm, hitem⟩ := h.item hkey (by decide) (by decide) hscan
  exact ⟨p, _, hitem, coordinateAt_of_lookup (by decide) hscan.2 hx hm hlen,
    coordinateAt_of_lookup (by decide) hscan.2 hy hm hlen⟩

end

/-! ## The request -/

/-- Two coordinates which `process_client_pin` accepts. -/
def Command.HasCoordinates (c : Command) : Prop :=
  ∃ item ka kaLen x y, (getCborMapItem 1 (c.reqLen - 1) 0x03).run c.req = some item ∧
    item.pointer c.env = some (ka, kaLen) ∧
    (getCborMapNegValue ka kaLen 2).run c.req = some (some x) ∧
    (getCborMapNegValue ka kaLen 3).run c.req = some (some y) ∧
    (31 ≤ x.len ∧ x.len ≤ 33) ∧ 31 ≤ y.len ∧ y.len ≤ 33

/-- The protocol under which the request is handled. -/
def Command.protocolFor (c : Command) (d : Device) : ℕ :=
  ((getCborMapInt 1 (c.reqLen - 1) 0x01).run c.req).join.getD d.pin.activePinProtocol

/-- The request reaches `uECC_shared_secret`: the device has a key pair, the protocol is
known, and there are two coordinates of 31 to 33 bytes. -/
structure Command.OffersKey (c : Command) (d : Device) : Prop where
  keyValid : d.pin.ecdhKeyValid = true
  protocol : c.protocolFor d = 1 ∨ c.protocolFor d = 2
  coordinates : c.HasCoordinates

/-- Keys are derived for the request, and its subcommand goes on with them. -/
def GoesOn (d : Device) (c : Command) : Prop :=
  ∃ front, (clientPinFront c.env (d.onChannel c.cid) 1 (c.reqLen - 1)).run c.req =
    some (.ok front)

section

variable {d : Device} {c : Command} {o : Outcome} {subCmd : ℕ} {x y : ℕ}

theorem hasCoordinates_iff {item : ItemResult} {ka kaLen : ℕ} {x y : Option MapValue}
    (hitem : (getCborMapItem 1 (c.reqLen - 1) 0x03).run c.req = some item)
    (hka : item.pointer c.env = some (ka, kaLen))
    (hx : (getCborMapNegValue ka kaLen 2).run c.req = some x)
    (hy : (getCborMapNegValue ka kaLen 3).run c.req = some y) :
    c.HasCoordinates ↔ ∃ vx vy, x = some vx ∧ y = some vy ∧
      (31 ≤ vx.len ∧ vx.len ≤ 33) ∧ 31 ≤ vy.len ∧ vy.len ≤ 33 := by
  constructor
  · rintro ⟨item', ka', kaLen', vx, vy, hitem', hka', hvx, hvy, hlen⟩
    rw [hitem, Option.some.injEq] at hitem'
    rw [← hitem', hka, Option.some.injEq, Prod.mk.injEq] at hka'
    obtain ⟨rfl, rfl⟩ := hka'
    rw [hx, Option.some.injEq] at hvx
    rw [hy, Option.some.injEq] at hvy
    exact ⟨vx, vy, hvx, hvy, hlen⟩
  · rintro ⟨vx, vy, rfl, rfl, hlen⟩
    exact ⟨item, ka, kaLen, vx, vy, hitem, hka, hx, hy, hlen⟩

/-- The 64 bytes are the point which the request names, if the coordinates fit. -/
theorem hostPublicKey_named :
    (hostPublicKey c.env 1 (c.reqLen - 1)).Returns c.req fun r => match r with
      | .error _ => ¬ c.HasCoordinates
      | .ok pub => c.HasCoordinates ∧ ∀ x y, c.NamesPoint x y → x < 256 ^ 32 →
          y < 256 ^ 32 → beNat (pub.val.take 32) = x ∧ beNat (pub.val.drop 32) = y := by
  unfold hostPublicKey
  refine Returns.bind_run fun item hitem => ?_
  cases hka : item.pointer c.env with
  | none =>
      refine Returns.pure ?_
      rintro ⟨item', ka, kaLen, x, y, hitem', hka', -⟩
      rw [hitem, Option.some.injEq] at hitem'
      rw [← hitem', hka] at hka'
      cases hka'
  | some place =>
      rcases place with ⟨ka, kaLen⟩
      refine Returns.bind_run fun x hx => Returns.bind_run fun y hy => ?_
      rw [hasCoordinates_iff hitem hka hx hy]
      cases x with
      | none => exact Returns.pure (by simp)
      | some vx =>
          cases y with
          | none => exact Returns.pure (by simp)
          | some vy =>
              refine Returns.ite (fun hbad => Returns.pure ?_) fun hbad => ?_
              · simp only [badCoordinate, decide_eq_true_eq] at hbad
                rintro ⟨_, _, ⟨⟩, ⟨⟩, hlen⟩
                omega
              · rw [not_or, Bool.not_eq_true, Bool.not_eq_true] at hbad
                refine Returns.bind_run fun xs hxs => Returns.bind_run fun ys hys =>
                  Returns.pure ⟨⟨vx, vy, rfl, rfl, ?_⟩, ?_⟩
                · simp only [badCoordinate, decide_eq_false_iff_not] at hbad
                  omega
                · rintro x y ⟨ka', kaLen', hitem', hnx, hny⟩ hltx hlty
                  rw [hitem, Option.some.injEq] at hitem'
                  rw [hitem'] at hka
                  obtain ⟨rfl, rfl⟩ := Prod.mk.inj (Option.some.inj hka)
                  have hxval := coordinate_named hnx hltx hx hbad.1 xs hxs
                  have hyval := coordinate_named hny hlty hy hbad.2 ys hys
                  rw [List.take_left' xs.length_val, List.drop_left' xs.length_val]
                  exact ⟨hxval, hyval⟩

theorem hostPublicKey_valid {succeeds : Bytes 64 → Bytes 32 → Bool} {pub pub' : Bytes 64}
    (h : ValidKey succeeds d c pub)
    (hrun : (hostPublicKey c.env 1 (c.reqLen - 1)).run c.req = some (.ok pub')) :
    pub' = pub := by
  obtain ⟨hx, hy⟩ := (hostPublicKey_named _ hrun).2 _ _ h.named
    (h.onCurve.x_lt.trans p256_lt) (h.onCurve.y_lt.trans p256_lt)
  apply Subtype.ext
  rw [← List.take_append_drop 32 pub'.val, ← List.take_append_drop 32 pub.val,
    beNat_inj (by simp) hx, beNat_inj (by simp) hy]

/-- The request before the subcommands: it is refused under the protocol which it names,
or there are keys. -/
theorem clientPinFront_keys (hsub : c.pinSubCmd = some subCmd)
    (hkind : subCmd = 0x03 ∨ subCmd = 0x04 ∨ subCmd = 0x05 ∨ subCmd = 0x09) :
    (clientPinFront c.env (d.onChannel c.cid) 1 (c.reqLen - 1)).Returns c.req
      fun r => match r with
        | .error o => ¬ c.OffersKey d ∧ (∃ status, status ≠ 0x00 ∧ o.resp = [status]) ∧
            o.pin = { d.pin with activePinProtocol := c.protocolFor d }
        | .ok front => c.OffersKey d ∧ ∃ pub,
            (hostPublicKey c.env 1 (c.reqLen - 1)).run c.req = some (.ok pub) ∧
            front = (subCmd, d.agreed c (c.protocolFor d)
              (c.env.sharedSecret pub d.pin.ecdhPrivateKey)) := by
  obtain ⟨hlen, hcmd⟩ := pinSubCmd_reached hsub
  have hread := pinSubCmd_eq hlen hcmd
  rw [hsub] at hread
  unfold clientPinFront
  refine Returns.ite (fun hshort => ?_) fun _ => Returns.bind_run fun sub hrun => ?_
  · have hzero : c.reqLen - 1 = 0 := by omega
    rw [hzero] at hread
    cases hread
  rw [hrun, Option.join_some] at hread
  subst hread
  refine Returns.bind_run fun proto hproto => ?_
  have hactive : c.protocolFor d = proto.getD d.pin.activePinProtocol := by
    rw [Command.protocolFor, hproto]
    rfl
  have hpin : (d.onChannel c.cid).pin = d.pin := rfl
  rw [hpin, ← hactive]
  refine Returns.ite (fun hunknown => Returns.pure ⟨?_, ⟨0x2B, by decide, rfl⟩, rfl⟩)
    fun hknown => Returns.ite (fun hretries => ?_) fun _ => Returns.ite (fun hagree => ?_)
    fun _ => Returns.ite (fun _ => ?_) fun hother => absurd hkind hother
  · exact fun h => h.protocol.elim hunknown.2.1 hunknown.2.2
  · omega
  · omega
  · refine Returns.ite (fun hinvalid => Returns.pure ⟨?_, ⟨0x01, by decide, rfl⟩, rfl⟩)
      fun hvalid => Returns.bind_run fun hostPub hhost => ?_
    · exact fun h => hinvalid h.keyValid
    have hcoordinates := hostPublicKey_named hostPub hhost
    have hnonzero := hostPublicKey_failsNonzero hostPub hhost
    cases hostPub with
    | error status =>
        exact Returns.pure ⟨fun h => hcoordinates h.coordinates,
          ⟨status, hnonzero status rfl, rfl⟩, rfl⟩
    | ok pub =>
        refine Returns.pure ⟨⟨not_not.1 hvalid, ?_, hcoordinates.1⟩, pub, hhost, rfl⟩
        have hne : subCmd ≠ 0x01 := by omega
        tauto

end

/-! ## Keys and points -/

/-- Keys are derived only from a valid point, and from that one; without one the request
is refused and the session is kept. -/
structure KeysFromPoint (succeeds : Bytes 64 → Bytes 32 → Bool) (d : Device) (c : Command)
    (o : Outcome) : Prop where
  derived : GoesOn d c → ∃ pub, ValidKey succeeds d c pub ∧ o.pin.keyState =
    (d.agreed c (c.protocolFor d) (c.env.sharedSecret pub d.pin.ecdhPrivateKey)).pin.keyState
  refused : (¬ ∃ pub, ValidKey succeeds d c pub) → o.pin = d.pin ∧ o.ops = [] ∧
    ∃ status, status ≠ 0x00 ∧ o.resp = [status]

/-- The code keeps to valid points where the point is one, and where it does not get to
`uECC_shared_secret` and the request names no other protocol. -/
theorem keysFromPoint_iff {d : Device} {c : Command} {o : Outcome} {subCmd : ℕ}
    (succeeds : Bytes 64 → Bytes 32 → Bool) (hsub : c.pinSubCmd = some subCmd)
    (hkind : subCmd = 0x03 ∨ subCmd = 0x04 ∨ subCmd = 0x05 ∨ subCmd = 0x09)
    (ho : d.outcome c = some o) :
    KeysFromPoint succeeds d c o ↔ (∃ pub, ValidKey succeeds d c pub) ∨
      ¬ c.OffersKey d ∧ c.protocolFor d = d.pin.activePinProtocol := by
  obtain ⟨hlen, hcmd⟩ := pinSubCmd_reached hsub
  rw [outcome_eq hlen, hcmd] at ho
  change (processClientPin c.env (d.onChannel c.cid) 1 (c.reqLen - 1)).run c.req = some o at ho
  have hrun := ho
  rw [processClientPin, run_bind_eq_some] at hrun
  obtain ⟨front, hfront, hrun⟩ := hrun
  have hkeys := clientPinFront_keys hsub hkind front hfront
  cases front with
  | error o' =>
      obtain ⟨hoffers, ⟨status, hnonzero, hresp⟩, hpin⟩ := hkeys
      obtain rfl : o' = o := Option.some.inj hrun
      have hstays : ¬ GoesOn d c := by
        rintro ⟨front, hgoes⟩
        rw [hfront] at hgoes
        cases hgoes
      have hops : o'.ops = [] := clientPinFront_session hlen hcmd _ hfront
      constructor
      · intro h
        by_cases hvalid : ∃ pub, ValidKey succeeds d c pub
        · exact .inl hvalid
        · have hsame := (h.refused hvalid).1
          rw [hpin] at hsame
          exact .inr ⟨hoffers, congrArg PinSession.activePinProtocol hsame⟩
      · intro h
        refine ⟨fun hgoes => absurd hgoes hstays, fun hinvalid => ?_⟩
        have hprotocol := (h.resolve_left hinvalid).2
        refine ⟨?_, hops, status, hnonzero, hresp⟩
        rw [hpin, hprotocol]
  | ok front =>
      obtain ⟨hoffers, pub, hpub, rfl⟩ := hkeys
      have hgoes : GoesOn d c := ⟨_, hfront⟩
      have hkept := processClientPin_keyState hfront o ho
      constructor
      · intro h
        obtain ⟨pub', hvalid, -⟩ := h.derived hgoes
        exact .inl ⟨pub', hvalid⟩
      · intro h
        obtain ⟨pub', hvalid⟩ := h.resolve_right fun h => h.1 hoffers
        have hsame := hostPublicKey_valid hvalid hpub
        refine ⟨fun _ => ⟨pub', hvalid, ?_⟩, fun hnone => absurd ⟨pub', hvalid⟩ hnone⟩
        rw [hkept, hsame]

/-! ## A point of the curve and one beside it -/

def generatorX : List UInt8 :=
  [0x6B, 0x17, 0xD1, 0xF2, 0xE1, 0x2C, 0x42, 0x47, 0xF8, 0xBC, 0xE6, 0xE5, 0x63, 0xA4, 0x40,
    0xF2, 0x77, 0x03, 0x7D, 0x81, 0x2D, 0xEB, 0x33, 0xA0, 0xF4, 0xA1, 0x39, 0x45, 0xD8, 0x98,
    0xC2, 0x96]

def generatorY : List UInt8 :=
  [0x4F, 0xE3, 0x42, 0xE2, 0xFE, 0x1A, 0x7F, 0x9B, 0x8E, 0xE7, 0xEB, 0x4A, 0x7C, 0x0F, 0x9E,
    0x16, 0x2B, 0xCE, 0x33, 0x57, 0x6B, 0x31, 0x5E, 0xCE, 0xCB, 0xB6, 0x40, 0x68, 0x37, 0xBF,
    0x51, 0xF5]

def agreementKey (xs ys : List UInt8) : List Entry :=
  [(.uint 1, .uint 2), (.uint 3, .nint 24), (.nint 0, .uint 1), (.nint 1, .bytes xs),
    (.nint 2, .bytes ys)]

/-- setPIN under protocol 1 with a keyAgreement and nothing else. -/
def bareSetPin (xs ys : List UInt8) : Command :=
  hostCommand (0x06 :: (Item.map [(.uint 1, .uint 1), (.uint 2, .uint 3),
    (.uint 3, .map (agreementKey xs ys))]).encode)

theorem bareSetPin_named {xs ys : List UInt8} (hx : xs.length < 65536) (hy : ys.length < 65536)
    (hfits : (bareSetPin xs ys).reqLen ≤ 1024) :
    (bareSetPin xs ys).NamesPoint (beNat xs) (beNat ys) := by
  have hcarries : (bareSetPin xs ys).Carries 0x06 [(.uint 1, .uint 1), (.uint 2, .uint 3),
      (.uint 3, .map (agreementKey xs ys))] := ⟨holds_getD _, rfl, hfits⟩
  refine namesPoint_of_carries hcarries ⟨[(.uint 1, .uint 1), (.uint 2, .uint 3)], [], rfl,
    by simp [ScannableEntries, Scannable], by simp⟩ ?_ rfl rfl
  simp [agreementKey, ScannableEntries, Scannable, hx, hy]

theorem Command.NamesPoint.unique {c : Command} {x y x' y' : ℕ} (h : c.NamesPoint x y)
    (h' : c.NamesPoint x' y') : x = x' ∧ y = y' := by
  obtain ⟨ka, kaLen, hitem, hx, hy⟩ := h
  obtain ⟨ka', kaLen', hitem', hx', hy'⟩ := h'
  rw [hitem, Option.some.injEq, ItemResult.item.injEq] at hitem'
  obtain ⟨rfl, rfl⟩ := hitem'
  rw [hx, Option.some.injEq, Option.some.injEq] at hx'
  rw [hy, Option.some.injEq, Option.some.injEq] at hy'
  exact ⟨hx', hy'⟩

/-- The key is read without a look at anything outside the request. -/
theorem Command.NamesPoint.hostPublicKey_eq {c : Command} {x y : ℕ} (h : c.NamesPoint x y)
    (env env' : Env) : (hostPublicKey env 1 (c.reqLen - 1)).run c.req =
      (hostPublicKey env' 1 (c.reqLen - 1)).run c.req := by
  obtain ⟨ka, kaLen, hitem, -⟩ := h
  rw [hostPublicKey, hostPublicKey, run_bind, run_bind, hitem]
  rfl

theorem bareSetPin_runs {d : Device} {c : Command} {p : ℕ} {z : Bytes 32}
    (hsub : c.pinSubCmd = some 0x03) (hagreed : KeyAgreement d c p z)
    (hauth : (getCborMapString 1 (c.reqLen - 1) 0x04).run c.req = some none)
    (hnew : (getCborMapString 1 (c.reqLen - 1) 0x05).run c.req = some none) :
    GoesOn d c ∧ ∃ o, d.outcome c = some o := by
  refine ⟨⟨_, clientPinFront_agreed hagreed hsub (.inl rfl)⟩,
    (d.agreed c p z).reply [0x30], ?_⟩
  rw [outcome_agreed hagreed hsub (.inl rfl), if_pos rfl, setPin, run_bind, setPinChecks,
    run_bind, hauth, Option.bind_some, run_bind, hnew]
  rfl

theorem keysFromPoint_generator : ∃ d o,
    (Device.powerUp fun _ => 0xFF).step agreeUnder2 = some d ∧
      d.outcome (bareSetPin (0 :: generatorX) generatorY) = some o ∧
      KeysFromPoint (fun _ _ => true) d (bareSetPin (0 :: generatorX) generatorY) o := by
  have hruns : ((Device.powerUp fun _ => 0xFF).step agreeUnder2 |>.bind
      fun d => d.outcome (bareSetPin (0 :: generatorX) generatorY)).isSome := by decide +kernel
  obtain ⟨o, ho⟩ := Option.isSome_iff_exists.1 hruns
  obtain ⟨d, hd, ho⟩ := Option.bind_eq_some_iff.1 ho
  have hnamed : (bareSetPin (0 :: generatorX) generatorY).NamesPoint _ _ :=
    bareSetPin_named (by decide) (by decide) (by decide +kernel)
  have hvalid : ValidKey (fun _ _ => true) d (bareSetPin (0 :: generatorX) generatorY)
      (Bytes.fill 0 64 (generatorX ++ generatorY)) :=
    { named := hnamed
      onCurve := ⟨by decide +kernel, by decide +kernel, by decide +kernel⟩
      succeeds := rfl }
  have hsub : (bareSetPin (0 :: generatorX) generatorY).pinSubCmd = some 0x03 := by
    decide +kernel
  exact ⟨d, o, hd, ho, (keysFromPoint_iff _ hsub (.inl rfl) ho).2 (.inl ⟨_, hvalid⟩)⟩

/-- setPIN with a point which is not on the curve. -/
def offCurve : Command := bareSetPin (List.replicate 32 2) (List.replicate 32 3)

/-- The command on a device whose `uECC_shared_secret` is the given one. -/
def Command.computing (c : Command) (sharedSecret : Bytes 64 → Bytes 32 → Bytes 32) : Command :=
  { c with env := { c.env with sharedSecret := sharedSecret } }

theorem offCurve_named : offCurve.NamesPoint (beNat (List.replicate 32 2))
    (beNat (List.replicate 32 3)) :=
  bareSetPin_named (by decide) (by decide) (by decide +kernel)

theorem offCurve_runs {d : Device} (hvalid : d.pin.ecdhKeyValid = true)
    (sharedSecret : Bytes 64 → Bytes 32 → Bytes 32) :
    GoesOn d (offCurve.computing sharedSecret) ∧
      ∃ o, d.outcome (offCurve.computing sharedSecret) = some o := by
  have hsub : offCurve.pinSubCmd = some 0x03 := by decide +kernel
  have hproto : (getCborMapInt 1 (offCurve.reqLen - 1) 0x01).run offCurve.req =
      some (some 1) := by decide +kernel
  have hauth : (getCborMapString 1 (offCurve.reqLen - 1) 0x04).run offCurve.req =
      some none := by decide +kernel
  have hnew : (getCborMapString 1 (offCurve.reqLen - 1) 0x05).run offCurve.req =
      some none := by decide +kernel
  have hread : ((hostPublicKey hostEnv 1 (offCurve.reqLen - 1)).run offCurve.req).any
      (fun r => r.isOk) = true := by decide +kernel
  obtain ⟨r, hr, hok⟩ := (Option.any_eq_true _ _).1 hread
  cases r with
  | error status => cases hok
  | ok hostPub =>
      have hhost := (offCurve_named.hostPublicKey_eq (offCurve.computing sharedSecret).env
        hostEnv).trans hr
      exact bareSetPin_runs (p := 1) (c := offCurve.computing sharedSecret) hsub
        ⟨hvalid, .inl rfl, ⟨some 1, hproto, rfl⟩, hostPub, hhost, rfl⟩ hauth hnew

/-- Whatever `uECC_shared_secret` computes and returns, keys are derived from a point
which is not on the curve. -/
theorem offCurve_goes_on :
    ¬ ∃ (sharedSecret : Bytes 64 → Bytes 32 → Bytes 32) (succeeds : Bytes 64 → Bytes 32 → Bool),
      ∀ (mem : Mem) (before : List Command) (d : Device) (c : Command) (o : Outcome)
        (subCmd : ℕ), Trace.Run Device.step (Device.powerUp mem) before d →
        c.env.sharedSecret = sharedSecret → c.pinSubCmd = some subCmd →
        subCmd = 0x03 ∨ subCmd = 0x04 ∨ subCmd = 0x05 ∨ subCmd = 0x09 →
        d.outcome c = some o → KeysFromPoint succeeds d c o := by
  rintro ⟨sharedSecret, succeeds, hall⟩
  obtain ⟨d, hstep, -, hvalid⟩ := agreeUnder2_step (Device.powerUp fun _ => 0xFF)
  obtain ⟨hgoes, o, ho⟩ := offCurve_runs hvalid sharedSecret
  have hsub : offCurve.pinSubCmd = some 0x03 := by decide +kernel
  have hkeys := hall _ _ d (offCurve.computing sharedSecret) o 0x03 (.single hstep) rfl hsub
    (.inl rfl) ho
  obtain ⟨pub, hpub, -⟩ := hkeys.derived hgoes
  have hnamed : offCurve.NamesPoint _ _ := hpub.named
  obtain ⟨hx, hy⟩ := hnamed.unique offCurve_named
  have hequation := hpub.onCurve.equation
  rw [hx, hy] at hequation
  revert hequation
  decide +kernel

end UnsoloKey
