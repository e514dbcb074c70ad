import UnsoloKey.CanonicalRequest
import UnsoloKey.WalkRetries
import Mathlib.Tactic

/-!
# The challenge of a walk

The first assertion of a walk signs the clientDataHash of its request if that is 32
bytes long.  The following ones sign the copy which was made of it if it was at least
32 bytes long, under flags which are always those of an unverified user.
-/

namespace UnsoloKey

open Rd Cbor

/-- What `ga_build_response` is given to hash and sign. -/
structure SignedData where
  authData : List UInt8
  cdh : Bytes 32

/-- The UV bit of the authenticator data. -/
def SignedData.uv (x : SignedData) : Bool := x.authData.getD 32 0 &&& 0x04 ≠ 0

def AssertionPlan.signedData (plan : AssertionPlan) (cdh : Bytes 32) : SignedData :=
  ⟨authDataHeader plan.rpIdHash (gaFlags plan.upRequired plan.verified.isSome), cdh⟩

/-- What GetAssertion signs, unless it fails. -/
def gaSigned (env : Env) : GaDecision → Rd (Option SignedData)
  | .refuse _ _ => return none
  | .assert plan => do
      if plan.upRequired ∧ env.presence.status ≠ 0x00 then return none
      return some (plan.signedData (← signedCdh plan.cdh))

/-- What GetNextAssertion signs, unless it fails. -/
def nextSigned (env : Env) (d : Device) : Option SignedData :=
  if d.ctap.gGaCount = 0 ∨ d.ctap.gGaIdx + 1 ≥ d.ctap.gGaCount then none
  else if (passkeyGetByRpIndex d.flash.mem d.ctap.gGaRpHash (d.ctap.gGaIdx + 1)).isNone ∨
      env.presence.status ≠ 0x00 then none
  else some ⟨authDataHeader d.ctap.gGaRpHash 0x01, d.ctap.gGaCdh⟩

/-- What the command signs, if it makes an assertion. -/
def Device.signed (d : Device) (c : Command) : Option SignedData :=
  if c.reqLen = 0 then none
  else if c.req 0 = 0x02 then
    ((gaDecision (d.onChannel c.cid) c.reqLen >>= fun r => gaSigned c.env r.2).run c.req).join
  else if c.req 0 = 0x08 then nextSigned c.env (d.onChannel c.cid)
  else none

/-- What the commands sign, one after the other. -/
def Device.signedBy (d : Device) : List Command → List SignedData
  | [] => []
  | c :: rest => (d.signed c).toList ++ ((d.step c).map fun d' => d'.signedBy rest).getD []

section

variable {d : Device} {c : Command} {o : Outcome} {rpIdHash cdh : Bytes 32} {k : ℕ}

/-! ## The signed data and the response -/

theorem signed_getAssertion (h : c.IsGetAssertion) (ho : d.outcome c = some o) :
    (o.status ≠ some 0x00 ∧ d.signed c = none) ∨
      ∃ ctap plan cdh, (gaDecision (d.onChannel c.cid) c.reqLen).run c.req =
          some (ctap, .assert plan) ∧
        (signedCdh plan.cdh).run c.req = some cdh ∧
        d.signed c = some (plan.signedData cdh) ∧ o.status = some 0x00 ∧
        o.resp = plan.response c.env d.flash.mem cdh := by
  rw [outcome_eq h.1, h.2] at ho
  change (getAssertion c.env (d.onChannel c.cid) c.reqLen).run c.req = some o at ho
  rw [getAssertion_run, run_bind_eq_some] at ho
  obtain ⟨⟨ctap, decision⟩, hdecision, hfinish⟩ := ho
  have hsigned : d.signed c = ((gaSigned c.env decision).run c.req).join := by
    rw [Device.signed, if_neg h.1, if_pos h.2, run_bind, hdecision]
    rfl
  cases decision with
  | refuse verified status =>
      have hstatus : status ≠ 0x00 := gaDecision_spec _ hdecision
      have hout : _ = o := Option.some.inj hfinish
      refine .inl ⟨?_, hsigned⟩
      rw [← hout]
      exact fun hok => hstatus (Option.some.inj hok)
  | assert plan =>
      change (plan.finish c.env _).run c.req = some o at hfinish
      unfold AssertionPlan.finish at hfinish
      by_cases hup : plan.upRequired ∧ c.env.presence.status ≠ 0x00
      · rw [if_pos hup, run_pure, Option.some.injEq] at hfinish
        have hnone : (gaSigned c.env (.assert plan)).run c.req = some none := by
          rw [gaSigned, if_pos hup]
          rfl
        refine .inl ⟨?_, by rw [hsigned, hnone]; rfl⟩
        rw [← hfinish]
        exact fun hok => hup.2 (Option.some.inj hok)
      · rw [if_neg hup, run_bind_eq_some] at hfinish
        obtain ⟨cdh, hcdh, hout⟩ := hfinish
        rw [run_pure, Option.some.injEq] at hout
        have hsome : (gaSigned c.env (.assert plan)).run c.req =
            some (some (plan.signedData cdh)) := by
          rw [gaSigned, if_neg hup, run_bind, hcdh]
          rfl
        have hflash : (if plan.upRequired then
            Device.waited { d.onChannel c.cid with ctap := ctap } c.env
            else { d.onChannel c.cid with ctap := ctap }).flash.mem = d.flash.mem := by
          split <;> rfl
        rw [hflash] at hout
        refine .inr ⟨ctap, plan, cdh, hdecision, hcdh, by rw [hsigned, hsome]; rfl, ?_, ?_⟩
        · rw [← hout]
          rfl
        · rw [← hout]
          rfl

theorem signed_next (h : c.IsNext) :
    d.signed c = nextSigned c.env (d.onChannel c.cid) := by
  have hother : ¬ c.req 0 = 0x02 := by
    rw [h.2]
    decide
  rw [Device.signed, if_neg h.1, if_neg hother, if_pos h.2]

theorem nextSigned_effect (env : Env) (d : Device) :
    ((getNextAssertion env d).status ≠ some 0x00 ∧ nextSigned env d = none) ∨
      ∃ i, d.ctap.MoreToWalk ∧ (getNextAssertion env d).status = some 0x00 ∧
        nextSigned env d = some ⟨authDataHeader d.ctap.gGaRpHash 0x01, d.ctap.gGaCdh⟩ ∧
        (getNextAssertion env d).resp = gaBuildResponse env d.flash.mem i
          (authDataHeader d.ctap.gGaRpHash 0x01) d.ctap.gGaCdh d.ctap.gGaCount := by
  by_cases hmore : d.ctap.MoreToWalk
  · have hnot : ¬ (d.ctap.gGaCount = 0 ∨ d.ctap.gGaIdx + 1 ≥ d.ctap.gGaCount) := by
      rw [CtapSession.MoreToWalk] at hmore
      omega
    rw [nextSigned, if_neg hnot]
    cases hslot : passkeyGetByRpIndex d.flash.mem d.ctap.gGaRpHash (d.ctap.gGaIdx + 1) with
    | none =>
        refine .inl ⟨mt (getNextAssertion_status hmore).1 ?_, by simp⟩
        rw [hslot]
        simp
    | some i =>
        by_cases hpresence : env.presence = .confirmed
        · have hzero : ¬ (env.presence.status ≠ 0x00) :=
            not_not.2 ((presence_status_eq_zero_iff _).2 hpresence)
          refine .inr ⟨i, hmore, ?_, by simp [hzero], ?_⟩
          · rw [getNextAssertion_more hmore hslot hpresence]
            rfl
          · rw [getNextAssertion_more hmore hslot hpresence]
            rfl
        · have hnonzero : env.presence.status ≠ 0x00 :=
            mt (presence_status_eq_zero_iff _).1 hpresence
          exact .inl ⟨mt (getNextAssertion_status hmore).1 fun h => hpresence h.2,
            by simp [hnonzero]⟩
  · have hdone : d.ctap.gGaCount ≤ d.ctap.gGaIdx + 1 := Nat.le_of_not_lt hmore
    rw [nextSigned, if_pos (by omega), getNextAssertion_done hdone]
    exact .inl ⟨by simp [Outcome.status, Device.reply], rfl⟩

/-- An assertion is made exactly where something is signed, and the response is the
one for it. -/
theorem signed_iff (ho : d.outcome c = some o) (hc : c.IsGetAssertion ∨ c.IsNext) :
    (o.status = some 0x00 ↔ (d.signed c).isSome) ∧
      ∀ x, d.signed c = some x → ∃ i total,
        o.resp = gaBuildResponse c.env d.flash.mem i x.authData x.cdh total := by
  rcases hc with hget | hnext
  · rcases signed_getAssertion hget ho with ⟨hfails, hnone⟩ |
      ⟨ctap, plan, cdh, -, -, hsome, hok, hresp⟩
    · simp [hnone, hfails]
    · rw [hsome]
      refine ⟨by simp [hok], ?_⟩
      rintro x hx
      rw [Option.some.injEq] at hx
      subst hx
      exact ⟨plan.slot, plan.total, hresp⟩
  · rw [outcome_isNext hnext, Option.some.injEq] at ho
    subst ho
    rw [signed_next hnext]
    rcases nextSigned_effect c.env (d.onChannel c.cid) with ⟨hfails, hnone⟩ |
      ⟨i, -, hok, hsome, hresp⟩
    · simp [hnone, hfails]
    · rw [hsome]
      refine ⟨by simp [hok], ?_⟩
      rintro x hx
      rw [Option.some.injEq] at hx
      subst hx
      exact ⟨i, _, hresp⟩

theorem signedBy_cons (ho : d.outcome c = some o) (rest : List Command) :
    d.signedBy (c :: rest) = (d.signed c).toList ++ (d.after o).signedBy rest := by
  rw [Device.signedBy, Device.step, ho]
  rfl

/-! ## What the request asks for -/

/-- The clientDataHash parameter of GetAssertion, as long as the request has it. -/
def Command.clientDataHash (c : Command) : Option (List UInt8) :=
  ((getCborMapString 1 (c.reqLen - 1) 0x02).run c.req).join.map fun p =>
    c.req.slice p.1 p.2

/-- GetAssertion with a pinUvAuthParam. -/
def Command.HasPinUvAuthParam (c : Command) : Prop :=
  ∃ p, (getCborMapString 1 (c.reqLen - 1) 0x06).run c.req = some (some p)

theorem clientDataHash_of_carries {before after : List Entry} {bs : List UInt8}
    (h : c.Carries 0x02 (before ++ (.uint 2, .bytes bs) :: after))
    (hbefore : ScannableEntries before) (hother : ∀ e ∈ before, e.1 ≠ .uint 2) :
    c.clientDataHash = some bs := by
  have hlen : bs.length < 65536 := by
    have hvalue := h.value_length_lt before
    simp only [Item.encode, List.length_append] at hvalue
    omega
  obtain ⟨p, hm, hrun⟩ :=
    (h.entry before (by decide) (by decide) hbefore hother).bytes hlen
  rw [Command.clientDataHash, hrun]
  exact congrArg some (hm.slice_eq rfl)

theorem signedCdh_eq_request {read : Option (ℕ × ℕ)}
    (hread : (getCborMapString 1 (c.reqLen - 1) 0x02).run c.req = some read)
    (hsigned : (signedCdh read).run c.req = some cdh) :
    c.clientDataHash = some cdh.val ↔ ∃ p, read = some (p, 32) := by
  have hparam : c.clientDataHash = read.map fun p => c.req.slice p.1 p.2 := by
    rw [Command.clientDataHash, hread]
    rfl
  rw [hparam]
  constructor
  · intro hsame
    obtain ⟨⟨p, n⟩, rfl, hslice⟩ := Option.map_eq_some_iff.1 hsame
    have hlen : n = 32 := by
      have hlength := congrArg List.length hslice
      rwa [Mem.slice_length, cdh.property] at hlength
    exact ⟨p, by rw [hlen]⟩
  · rintro ⟨p, rfl⟩
    rw [signedCdh, if_pos rfl, run_bind, run_bytes, Option.bind_some, run_pure,
      Option.some.injEq] at hsigned
    rw [← hsigned, Option.map_some, Bytes.fill_val (by simp)]

/-- An assertion which goes ahead is verified exactly where the request has a
pinUvAuthParam. -/
theorem gaDecision_verified {ctap : CtapSession} {plan : AssertionPlan}
    (h : (gaDecision d c.reqLen).run c.req = some (ctap, .assert plan)) :
    plan.verified.isSome ↔ c.HasPinUvAuthParam := by
  have hcheck : (pinAuthCheck d.pin c.reqLen 0x02 0x06).run c.req =
      some (plan.verified.map fun _ => true) := gaDecision_check _ h
  rw [pinAuthCheck, run_bind_eq_some] at hcheck
  obtain ⟨cdh, -, hcheck⟩ := hcheck
  rw [run_bind_eq_some] at hcheck
  obtain ⟨param, hparam, hcheck⟩ := hcheck
  cases param with
  | none =>
      have hnot : ¬ c.HasPinUvAuthParam := by
        rintro ⟨p, hp⟩
        rw [hparam] at hp
        simp at hp
      have hverified : plan.verified = none := by
        simpa [eq_comm] using hcheck
      simp [hverified, hnot]
  | some p =>
      have hsome : plan.verified.isSome := by
        cases hverified : plan.verified with
        | none =>
            rw [hverified, run_bind_eq_some] at hcheck
            obtain ⟨valid, -, hcheck⟩ := hcheck
            simp at hcheck
        | some key => rfl
      exact ⟨fun _ => ⟨p, hparam⟩, fun _ => hsome⟩

theorem uv_signedData (plan : AssertionPlan) (cdh : Bytes 32) :
    (plan.signedData cdh).uv = plan.verified.isSome := by
  have hbyte : (plan.signedData cdh).authData.getD 32 0 =
      gaFlags plan.upRequired plan.verified.isSome := by
    have hlen := plan.rpIdHash.property
    simp [AssertionPlan.signedData, authDataHeader, List.getD_eq_getElem?_getD, hlen]
  rw [SignedData.uv, hbyte]
  cases plan.upRequired <;> cases plan.verified.isSome <;> decide

theorem uv_next (rpIdHash cdh : Bytes 32) :
    (SignedData.mk (authDataHeader rpIdHash 0x01) cdh).uv = false := by
  have hlen := rpIdHash.property
  have hbit : (0x01 : UInt8) &&& 0x04 = 0 := by decide
  simp [SignedData.uv, authDataHeader, List.getD_eq_getElem?_getD, hlen, hbit]

/-! ## The following assertions -/

/-- No command but GetAssertion changes what the walk has to sign. -/
theorem outcome_keeps_challenge (hc : ¬ c.IsGetAssertion) (ho : d.outcome c = some o) :
    o.ctap.gGaCount = d.ctap.gGaCount ∧ o.ctap.gGaCdh = d.ctap.gGaCdh := by
  by_cases hnext : c.IsNext
  · rw [outcome_isNext hnext, Option.some.injEq] at ho
    subst ho
    by_cases hmore : (d.onChannel c.cid).ctap.MoreToWalk
    · have hmoves := @getNextAssertion_moves _ c.env hmore
      simp only [CtapSession.walkState, Prod.mk.injEq] at hmoves
      exact ⟨hmoves.2.1, hmoves.2.2.2⟩
    · rw [getNextAssertion_done (Nat.le_of_not_lt hmore)]
      exact ⟨rfl, rfl⟩
  · have hkept := outcome_walkState hc (fun hlen hcmd => hnext ⟨hlen, hcmd⟩) ho
    simp only [CtapSession.walkState, Prod.mk.injEq] at hkept
    exact ⟨hkept.2.1, hkept.2.2.2⟩

theorem signed_following (hc : ¬ c.IsGetAssertion) {x : SignedData}
    (hx : d.signed c = some x) :
    1 < d.ctap.gGaCount ∧ x.cdh = d.ctap.gGaCdh ∧ x.uv = false := by
  by_cases hnext : c.IsNext
  · rw [signed_next hnext] at hx
    rcases nextSigned_effect c.env (d.onChannel c.cid) with ⟨-, hnone⟩ |
      ⟨i, hmore, -, hsome, -⟩
    · rw [hnone] at hx
      simp at hx
    · rw [hsome, Option.some.injEq] at hx
      subst hx
      refine ⟨?_, rfl, uv_next _ _⟩
      change d.ctap.gGaIdx + 1 < d.ctap.gGaCount at hmore
      omega
  · rw [Device.signed] at hx
    split_ifs at hx with hlen hget hcmd
    · exact absurd ⟨hlen, hget⟩ hc
    · exact absurd ⟨hlen, hcmd⟩ hnext

/-- Every following assertion signs the copy, for a user who is not verified, and there
is none in a walk over one credential. -/
theorem signedBy_following {nexts : List Command} (hnexts : ∀ c ∈ nexts, ¬ c.IsGetAssertion) :
    ∀ x ∈ d.signedBy nexts,
      1 < d.ctap.gGaCount ∧ x.cdh = d.ctap.gGaCdh ∧ x.uv = false := by
  induction nexts generalizing d with
  | nil => simp [Device.signedBy]
  | cons c rest ih =>
      intro x hx
      have hc := hnexts c List.mem_cons_self
      cases ho : d.outcome c with
      | none =>
          rw [Device.signedBy, Device.step, ho, Option.map_none, Option.map_none,
            Option.getD_none, List.append_nil, Option.mem_toList] at hx
          exact signed_following hc hx
      | some o =>
          rw [signedBy_cons ho, List.mem_append, Option.mem_toList] at hx
          cases hx with
          | inl hhere => exact signed_following hc hhere
          | inr hrest =>
              have hlater := ih (fun c hc => hnexts c (List.mem_cons_of_mem _ hc)) x hrest
              have hkept := outcome_keeps_challenge hc ho
              change 1 < o.ctap.gGaCount ∧ x.cdh = o.ctap.gGaCdh ∧ _ at hlater
              rwa [hkept.1, hkept.2] at hlater

/-! ## The walk -/

/-- All that the walk signs is for the clientDataHash of its GetAssertion, with one and
the same UV bit. -/
structure SameChallenge (d : Device) (c : Command) (nexts : List Command) : Prop where
  cdh : ∀ x ∈ d.signedBy (c :: nexts), c.clientDataHash = some x.cdh.val
  uv : ∀ x ∈ d.signedBy (c :: nexts), ∀ y ∈ d.signedBy (c :: nexts), x.uv = y.uv

/-- What the first assertion signs, and what the following ones will. -/
structure FirstSigned (d : Device) (c : Command) (o : Outcome) (rpIdHash : Bytes 32)
    (x : SignedData) (stored : Bytes 32) : Prop where
  signed : d.signed c = some x
  walking : Walking d.flash.mem rpIdHash stored (d.after o) 0
  uv : x.uv = true ↔ c.HasPinUvAuthParam
  request : c.clientDataHash = some x.cdh.val ↔
    ∃ cdh, c.clientDataHash = some cdh ∧ cdh.length = 32
  stored : c.clientDataHash = some x.cdh.val → stored = x.cdh

theorem first_signed (hc : c.BareAssertion rpIdHash) (ho : d.outcome c = some o)
    (hok : o.status = some 0x00) : ∃ x stored, FirstSigned d c o rpIdHash x stored := by
  obtain ⟨plan', _, stored, hfirst⟩ := firstAssertion hc ho hok
  rcases signed_getAssertion ⟨hc.len, hc.cmd⟩ ho with ⟨hfails, -⟩ |
    ⟨ctap, plan, cdh, hdecision, hcdh, hsome, -, -⟩
  · exact absurd hok hfails
  have hselected : Selected (d.onChannel c.cid) c.reqLen c.req ctap plan :=
    gaDecision_spec _ hdecision
  have hread : (getCborMapString 1 (c.reqLen - 1) 0x02).run c.req = some plan.cdh :=
    hselected.cdh
  have hstores : (storedCdh plan.cdh).run c.req = some stored := by
    have hsame : plan'.cdh = plan.cdh :=
      Option.some.inj (hfirst.cdh.symm.trans hread)
    rw [← hsame]
    exact hfirst.stores
  refine ⟨plan.signedData cdh, stored, ⟨hsome, hfirst.walking, ?_, ?_, ?_⟩⟩
  · rw [uv_signedData]
    exact gaDecision_verified hdecision
  · constructor
    · intro hsame
      exact ⟨cdh.val, hsame, cdh.property⟩
    · rintro ⟨bs, hbs, hlen⟩
      refine (signedCdh_eq_request hread hcdh).2 ?_
      rw [Command.clientDataHash, hread] at hbs
      obtain ⟨⟨p, n⟩, hplan, rfl⟩ := Option.map_eq_some_iff.1 hbs
      rw [Mem.slice_length] at hlen
      exact ⟨p, by rw [← hlen]; exact hplan⟩
  · intro hsame
    obtain ⟨p, hplan⟩ := (signedCdh_eq_request hread hcdh).1 hsame
    rw [hplan] at hstores hcdh
    have hcopy : (storedCdh (some (p, 32))).run c.req =
        (signedCdh (some (p, 32))).run c.req := rfl
    rw [hcopy, hcdh, Option.some.injEq] at hstores
    exact hstores.symm

/-- The assertions of every continuation of the walk answer the request's challenge in
the same way exactly where its clientDataHash has 32 bytes and the walk either is not
verified or has no other credential. -/
theorem same_challenge_iff (hc : c.BareAssertion rpIdHash) (ho : d.outcome c = some o)
    (hok : o.status = some 0x00) :
    (∀ nexts, (∀ c ∈ nexts, ¬ c.IsGetAssertion) → SameChallenge d c nexts) ↔
      (∃ cdh, c.clientDataHash = some cdh ∧ cdh.length = 32) ∧
        (c.HasPinUvAuthParam → (slotsOfRp d.flash.mem rpIdHash).length ≤ 1) := by
  obtain ⟨x, stored, hx⟩ := first_signed hc ho hok
  have hall : ∀ nexts, d.signedBy (c :: nexts) = x :: (d.after o).signedBy nexts := by
    intro nexts
    rw [signedBy_cons ho, hx.signed]
    rfl
  constructor
  · intro hsame
    refine ⟨hx.request.1 ((hsame [] (by simp)).cdh x (by simp [hall])), fun hparam => ?_⟩
    by_contra hmore
    rw [Nat.not_le] at hmore
    obtain ⟨o', ho', hresp, -⟩ := hx.walking.next (c := nextCommand)
      ⟨by decide, by decide, rfl⟩ (List.getElem?_eq_getElem hmore)
    have hnext : ¬ nextCommand.IsGetAssertion := by decide
    have hok' : o'.status = some 0x00 := by
      rw [Outcome.status, hresp]
      rfl
    obtain ⟨y, hy⟩ := Option.isSome_iff_exists.1
      ((signed_iff ho' (.inr ⟨by decide, by decide⟩)).1.1 hok')
    have huv := (hsame [nextCommand] (by simpa using hnext)).uv x (by simp [hall]) y (by
      rw [hall, signedBy_cons ho', hy]
      simp)
    rw [hx.uv.2 hparam, (signed_following hnext hy).2.2] at huv
    simp at huv
  · rintro ⟨hlen, hsingle⟩ nexts hnexts
    have hrequest := hx.request.2 hlen
    have hlater := signedBy_following (d := d.after o) hnexts
    rw [hx.walking.count, hx.walking.cdh, hx.stored hrequest] at hlater
    have hfalse : ∀ y ∈ (d.after o).signedBy nexts, x.uv = y.uv := by
      intro y hy
      have hmore := (hlater y hy).1
      have hnot : ¬ c.HasPinUvAuthParam := fun hparam => absurd (hsingle hparam) (by omega)
      rw [(hlater y hy).2.2, Bool.eq_false_iff]
      exact mt hx.uv.1 hnot
    constructor
    · intro y hy
      rw [hall, List.mem_cons] at hy
      rcases hy with rfl | hy
      · exact hrequest
      · rw [(hlater y hy).2.1]
        exact hrequest
    · have hone : ∀ y ∈ d.signedBy (c :: nexts), x.uv = y.uv := by
        intro y hy
        rw [hall, List.mem_cons] at hy
        rcases hy with rfl | hy
        · rfl
        · exact hfalse y hy
      intro y hy z hz
      rw [← hone y hy, hone z hz]

end

/-- GetAssertion for the relying party `a` with a clientDataHash of 33 bytes. -/
def longHashCommand : Command :=
  hostCommand (0x02 :: (Item.map [(.uint 1, .text [0x61]),
    (.uint 2, .bytes (List.replicate 33 0xC5))]).encode)

theorem same_challenge_two :
    SameChallenge (Device.powerUp (interleaved (sha256 [0x61]) (sha256 [0x62]))) signInCommand
      [nextCommand, nextCommand] := by
  obtain ⟨o, ho, hok⟩ := (Option.any_eq_true _ _).1 interleaved_signIn.1
  have hcdh : signInCommand.clientDataHash = some (List.replicate 32 0xC5) := by
    decide +kernel
  have hparam : (getCborMapString 1 (signInCommand.reqLen - 1) 0x06).run signInCommand.req =
      some none := by
    decide +kernel
  have hnext : ¬ nextCommand.IsGetAssertion := by decide
  refine (same_challenge_iff signInCommand_bare ho (of_decide_eq_true hok)).2
    ⟨⟨_, hcdh, List.length_replicate⟩, ?_⟩ [nextCommand, nextCommand] (by simpa using hnext)
  rintro ⟨p, hp⟩
  rw [hparam] at hp
  simp at hp

/-- A clientDataHash of 33 bytes is accepted and not signed. -/
theorem longHash_not_signed :
    ¬ ∀ (d : Device) (c : Command) (o : Outcome) (rpIdHash : Bytes 32)
      (nexts : List Command), c.BareAssertion rpIdHash → d.outcome c = some o →
      o.status = some 0x00 → (∀ c ∈ nexts, ¬ c.IsGetAssertion) → SameChallenge d c nexts := by
  intro hall
  have hruns : ((Device.powerUp (oneCredential (sha256 [0x61]))).outcome
      longHashCommand).any (fun o => o.status = some 0x00) = true := by
    decide +kernel
  obtain ⟨o, ho, hok⟩ := (Option.any_eq_true _ _).1 hruns
  have hbare : longHashCommand.BareAssertion (sha256 [0x61]) :=
    ⟨by decide, by decide, by decide +kernel, none, by decide +kernel, by simp⟩
  have hcdh : longHashCommand.clientDataHash = some (List.replicate 33 0xC5) := by
    decide +kernel
  obtain ⟨x, stored, hx⟩ := first_signed hbare ho (of_decide_eq_true hok)
  have hsame := (hall _ _ o _ [] hbare ho (of_decide_eq_true hok) (by simp)).cdh x (by
    rw [signedBy_cons ho, hx.signed]
    simp)
  rw [hcdh, Option.some.injEq] at hsame
  have hlen := congrArg List.length hsame
  rw [x.cdh.property, List.length_replicate] at hlen
  exact absurd hlen (by decide)

end UnsoloKey
