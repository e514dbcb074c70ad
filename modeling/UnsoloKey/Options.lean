import UnsoloKey.OptionSearch
import UnsoloKey.UnverifiedRegistration
import UnsoloKey.UserPresence
import Mathlib.Tactic

/-!
# Options of a request

`uv`, `up` and `rk` mean what the options map says exactly as long as the search for
them, which does not stop at the end of that map, comes to the same answer.
-/

namespace UnsoloKey

open Rd Cbor

/-! ## What the map says and what is read -/

/-- The map under the number has the boolean under the text key. -/
def OptionSet (entries : List Entry) (number : ℕ) (key : String) (b : Bool) : Prop :=
  ∃ options, lookup number entries = some (.map options) ∧
    lookupText (ascii key) options = some (.bool b)

/-- The search which begins behind the head of the value under the number says `val`. -/
def Command.Says (c : Command) (number : ℕ) (key : String) (val : UInt8) : Prop :=
  ∃ v, (getCborMapValue 1 (c.reqLen - 1) number).run c.req = some (some v) ∧
    FirstSays c.req v.ptr (searchLen c.reqLen v.ptr) (ascii key) val

/-- The encoding from behind the head of the map under the number to its end. -/
def behindHead (number : ℕ) : List Entry → List UInt8
  | [] => []
  | (.uint n, .map options) :: rest =>
      if n = number then encodeEntries options ++ encodeEntries rest
      else behindHead number rest
  | _ :: rest => behindHead number rest

/-- `"uv": true` without a pinUvAuthParam, as GetAssertion reads it. -/
def Command.AsksForUv (c : Command) : Prop :=
  c.Says 0x05 "uv" 0xF5 ∧ ¬ c.HasPinUvAuthParam

/-- What MakeCredential takes for a reason to answer 0x35 or 0x36. -/
def Command.NeedsPin (c : Command) (pinSet : Prop) : Prop :=
  (∃ p, (getCborMapString 1 (c.reqLen - 1) 0x08).run c.req = some (some (p, 0))) ∧ ¬ pinSet ∨
    ¬ c.HasPinAuth ∧ (c.Says 0x07 "uv" 0xF5 ∨ c.Says 0x07 "rk" 0xF5 ∧ pinSet)

/-- The command ends with PIN_NOT_SET or PUAT_REQUIRED. -/
def Outcome.RefusedForPin (o : Outcome) : Prop :=
  o.status = some 0x35 ∨ o.status = some 0x36

section

variable {d : Device} {c : Command} {o : Outcome} {entries before after : List Entry}
  {key number : ℕ} {m : Mem} {v : Item}

/-! ## GetAssertion -/

theorem searchLen_lt (reqLen ptr : ℕ) : searchLen reqLen ptr < 65536 :=
  Nat.mod_lt _ (by omega)

theorem hasOption_returns {ptr len : ℕ} {val : UInt8} (hlen : len < 65536) (key : String) :
    (hasOption ptr len key val).Returns m fun b =>
      b = true ↔ FirstSays m ptr len (ascii key) val := by
  intro b hb
  have hfound : ∃ b', (hasOption ptr len key val).run m = some b' ∧
      (b' = true ↔ FirstSays m ptr len (ascii key) val) := hasOption_iff hlen key
  obtain ⟨b', hb', hiff⟩ := hfound
  rw [hb', Option.some.injEq] at hb
  rwa [← hb]

theorem says_iff {options : Option MapValue} {key : String} {val : UInt8}
    (h : (getCborMapValue 1 (c.reqLen - 1) number).run c.req = some options) :
    c.Says number key val ↔ ∃ v, options = some v ∧
      FirstSays c.req v.ptr (searchLen c.reqLen v.ptr) (ascii key) val := by
  rw [Command.Says, h]
  simp only [Option.some.injEq]

/-- How the options of GetAssertion are decided on. -/
theorem assertionOptions_read {pinSet hasPinAuth : Bool} {options : Option MapValue}
    (h : (getCborMapValue 1 (c.reqLen - 1) 0x05).run c.req = some options) :
    (assertionOptions pinSet hasPinAuth options c.reqLen).Returns c.req fun decision =>
      match decision with
      | .error status => (status = 0x35 ∨ status = 0x36) ∧
          c.Says 0x05 "uv" 0xF5 ∧ hasPinAuth = false
      | .ok upRequired => ¬ (c.Says 0x05 "uv" 0xF5 ∧ hasPinAuth = false) ∧
          (upRequired = false ↔ c.Says 0x05 "up" 0xF4) := by
  rw [says_iff h, says_iff h]
  unfold assertionOptions
  cases options with
  | none => exact Returns.pure (by simp)
  | some v =>
      have huv : (uvRequested hasPinAuth v.ptr (searchLen c.reqLen v.ptr)).Returns c.req
          fun uv => uv = true ↔ FirstSays c.req v.ptr (searchLen c.reqLen v.ptr)
            (ascii "uv") 0xF5 ∧ hasPinAuth = false := by
        cases hasPinAuth with
        | true => exact Returns.pure (by simp)
        | false =>
            intro uv hrun
            simpa using hasOption_returns (searchLen_lt _ _) "uv" uv hrun
      refine Returns.bind_of huv fun uv huv => Returns.ite (fun hreq => Returns.pure ?_)
        fun hreq => Returns.bind_of (hasOption_returns (searchLen_lt _ _) "up")
          fun preflight hup => Returns.pure ?_
      · have hsearch := huv.1 hreq
        refine ⟨?_, ⟨v, rfl, hsearch.1⟩, hsearch.2⟩
        cases pinSet
        · exact .inl rfl
        · exact .inr rfl
      · have hnot := mt huv.2 hreq
        simpa [hup] using hnot

theorem gaOptions_read {rpIdHash : Bytes 32} {cdh : Option (ℕ × ℕ)} {i : Slot} {total : ℕ}
    {verified : Option (List UInt8)} {hasPinAuth : Bool}
    (hparam : hasPinAuth = true ↔ c.HasPinUvAuthParam) :
    (gaOptions d c.reqLen rpIdHash cdh i total verified hasPinAuth).Returns c.req fun r =>
      match r with
      | .refuse _ status => (status = 0x35 ∨ status = 0x36) ∧ c.AsksForUv
      | .assert plan => ¬ c.AsksForUv ∧
          (plan.upRequired = false ↔ c.Says 0x05 "up" 0xF4) := by
  have hnone : hasPinAuth = false ↔ ¬ c.HasPinUvAuthParam := by
    rw [← hparam, Bool.not_eq_true]
  unfold gaOptions
  refine Returns.bind_run fun options hoptions =>
    Returns.bind_of (assertionOptions_read hoptions) fun decision hdecision => ?_
  cases decision with
  | error status =>
      refine Returns.pure ?_
      rwa [hnone] at hdecision
  | ok upRequired =>
      refine Returns.pure ?_
      rwa [hnone] at hdecision

theorem gaSelected_read {rpIdHash : Bytes 32} {cdh : Option (ℕ × ℕ)}
    {selected : Option (Slot × ℕ)} :
    (gaSelected d c.reqLen rpIdHash cdh selected).Returns c.req fun r =>
      match r with
      | .refuse _ status => status = 0x2E ∨ status = 0x33 ∨
          (status = 0x35 ∨ status = 0x36) ∧ c.AsksForUv
      | .assert plan => ¬ c.AsksForUv ∧
          (plan.upRequired = false ↔ c.Says 0x05 "up" 0xF4) := by
  have hoptions : ∀ i total verified hasPinAuth,
      (hasPinAuth = true ↔ c.HasPinUvAuthParam) →
      (gaOptions d c.reqLen rpIdHash cdh i total verified hasPinAuth).Returns c.req fun r =>
        match r with
        | .refuse _ status => status = 0x2E ∨ status = 0x33 ∨
            (status = 0x35 ∨ status = 0x36) ∧ c.AsksForUv
        | .assert plan => ¬ c.AsksForUv ∧
            (plan.upRequired = false ↔ c.Says 0x05 "up" 0xF4) := by
    intro i total verified hasPinAuth hparam r hr
    have hread := gaOptions_read hparam r hr
    cases r with
    | refuse verified status => exact .inr (.inr hread)
    | assert plan => exact hread
  cases selected with
  | none => exact Returns.pure (.inl rfl)
  | some found =>
      unfold gaSelected
      refine Returns.bind_run fun param hparam => ?_
      cases param with
      | none => exact hoptions _ _ _ _ (by simp [Command.HasPinUvAuthParam, hparam])
      | some p =>
          refine Returns.bind fun valid => Returns.ite (fun _ => Returns.pure ?_) fun _ =>
            hoptions _ _ _ _ (by simp [Command.HasPinUvAuthParam, hparam])
          exact .inr (.inl rfl)

theorem gaDecision_read :
    (gaDecision d c.reqLen).Returns c.req fun r => match r.2 with
      | .refuse _ status => status = 0x2E ∨ status = 0x33 ∨
          (status = 0x35 ∨ status = 0x36) ∧ c.AsksForUv
      | .assert plan => ¬ c.AsksForUv ∧
          (plan.upRequired = false ↔ c.Says 0x05 "up" 0xF4) := by
  unfold gaDecision
  exact Returns.bind fun rpId => Returns.bind fun cdh => Returns.bind fun allowList =>
    Returns.bind fun rpIdHash => Returns.bind fun selection =>
    Returns.bind_of gaSelected_read fun r hr => Returns.pure hr

theorem presence_refused (presence : Presence) :
    ¬ (some presence.status = some (0x35 : UInt8) ∨ some presence.status = some 0x36) := by
  cases presence <;> decide

theorem finish_status {plan : AssertionPlan} {env : Env} :
    (plan.finish env d).Returns m fun o =>
      o.status = some env.presence.status ∨ o.status = some 0x00 := by
  unfold AssertionPlan.finish
  exact Returns.ite (fun _ => Returns.pure (.inl rfl)) fun _ =>
    Returns.bind fun cdhBuf => Returns.pure (.inr rfl)

/-- GetAssertion, unless it ends before it looks at the options. -/
theorem getAssertion_options (hc : c.IsGetAssertion) (ho : d.outcome c = some o)
    (hcredential : o.status ≠ some 0x2E) (hparam : o.status ≠ some 0x33) :
    (o.RefusedForPin ↔ c.AsksForUv) ∧
      (¬ c.AsksForUv → (d.touches c = [] ↔ c.Says 0x05 "up" 0xF4)) := by
  rw [outcome_eq hc.1, hc.2] at ho
  change (getAssertion c.env (d.onChannel c.cid) c.reqLen).run c.req = some o at ho
  rw [getAssertion_run, run_bind_eq_some] at ho
  obtain ⟨⟨ctap, decision⟩, hdecision, hfinish⟩ := ho
  have hread := gaDecision_read _ hdecision
  cases decision with
  | refuse verified status =>
      have hstatus : o.status = some status := by
        rw [← Option.some.inj hfinish]
        rfl
      rw [hstatus, ne_eq, Option.some.injEq] at hcredential hparam
      obtain ⟨hpin, hasks⟩ := (hread.resolve_left hcredential).resolve_left hparam
      refine ⟨iff_of_true ?_ hasks, fun hnot => absurd hasks hnot⟩
      rw [Outcome.RefusedForPin, hstatus]
      exact hpin.imp (congrArg some) (congrArg some)
  | assert plan =>
      obtain ⟨hnot, hup⟩ := hread
      refine ⟨iff_of_false ?_ hnot, fun _ => ?_⟩
      · rw [Outcome.RefusedForPin]
        rcases finish_status o hfinish with hstatus | hstatus
        · rw [hstatus]
          exact presence_refused _
        · rw [hstatus]
          decide
      · rw [touches_get hc.1 hc.2 hdecision, ← hup]
        cases plan.upRequired <;> simp

/-! ## MakeCredential -/

theorem optionsRefused_read {pinSet : Bool} {v : MapValue}
    (h : (getCborMapValue 1 (c.reqLen - 1) 0x07).run c.req = some (some v)) :
    (optionsRefused pinSet v.ptr c.reqLen).Returns c.req fun refused => match refused with
      | some status => (status = 0x35 ∨ status = 0x36) ∧
          (c.Says 0x07 "uv" 0xF5 ∨ c.Says 0x07 "rk" 0xF5 ∧ pinSet = true)
      | none => ¬ (c.Says 0x07 "uv" 0xF5 ∨ c.Says 0x07 "rk" 0xF5 ∧ pinSet = true) := by
  have hsearch : ∀ key, c.Says 0x07 key 0xF5 ↔
      FirstSays c.req v.ptr (searchLen c.reqLen v.ptr) (ascii key) 0xF5 := by
    intro key
    rw [says_iff h]
    simp
  rw [hsearch, hsearch]
  unfold optionsRefused
  refine Returns.bind_of (hasOption_returns (searchLen_lt _ _) "uv") fun uv huv =>
    Returns.bind_of (hasOption_returns (searchLen_lt _ _) "rk") fun rk hrk =>
    Returns.ite (fun huvReq => Returns.pure ⟨?_, .inl (huv.1 huvReq)⟩) fun huvReq =>
    Returns.ite (fun hrkReq => Returns.pure ⟨.inr rfl, .inr ⟨hrk.1 hrkReq.1, hrkReq.2⟩⟩)
      fun hrkReq => Returns.pure ?_
  · cases pinSet
    · exact .inl rfl
    · exact .inr rfl
  · rw [← huv, ← hrk]
    exact not_or.2 ⟨huvReq, hrkReq⟩

/-- How MakeCredential decides. -/
theorem mcDecision_read :
    (mcDecision d c.reqLen).Returns c.req fun decision => match decision with
      | .error status => (status = 0x35 ∨ status = 0x36) ↔
          c.NeedsPin ((pinLoad d.flash.mem).isSome = true)
      | .ok _ => ¬ c.NeedsPin ((pinLoad d.flash.mem).isSome = true) := by
  unfold mcDecision
  refine Returns.bind fun cdh => Returns.bind_run fun param hparam => ?_
  rw [Command.NeedsPin, Command.HasPinAuth, hparam]
  generalize (pinLoad d.flash.mem).isSome = pinSet
  cases param with
  | some p =>
      refine Returns.ite (fun hprobe => Returns.pure ?_) fun hprobe => Returns.bind fun options =>
        Returns.bind fun valid => Returns.ite (fun _ => Returns.pure ?_) fun _ =>
        Returns.pure ?_
      · have hempty : p = (p.1, 0) := Prod.ext rfl hprobe
        rw [hempty]
        cases pinSet <;> simp
      · simp [Prod.ext_iff, hprobe]
      · simp [Prod.ext_iff, hprobe]
  | none =>
      refine Returns.bind_run fun options hoptions => ?_
      cases options with
      | none => exact Returns.pure (by simp [says_iff hoptions])
      | some v =>
          refine Returns.bind_of (optionsRefused_read hoptions) fun refused hrefused => ?_
          cases refused with
          | some status =>
              refine Returns.pure (iff_of_true hrefused.1 (.inr ⟨by simp, ?_⟩))
              exact hrefused.2
          | none => exact Returns.pure (by simpa using hrefused)

theorem makeCredential_options (hlen : c.reqLen ≠ 0) (hcmd : c.req 0 = 0x01)
    (ho : d.outcome c = some o) :
    o.RefusedForPin ↔ c.NeedsPin (d.storedPin.isSome = true) := by
  have hpin : d.storedPin.isSome = true ↔ (pinLoad (d.onChannel c.cid).flash.mem).isSome = true :=
    storedPin_isSome_iff
  rw [hpin]
  rw [outcome_eq hlen, hcmd] at ho
  have heffect : MakeCredentialEffect c.env (d.onChannel c.cid) c.reqLen c.req o :=
    makeCredential_effect o ho
  cases heffect with
  | refused status _ hdecision ho =>
      have hread : status = 0x35 ∨ status = 0x36 ↔ _ := mcDecision_read _ hdecision
      rw [← hread, ho]
      exact or_congr (Option.some.injEq _ _).to_iff (Option.some.injEq _ _).to_iff
  | untouched cdh verified hdecision _ ho =>
      refine iff_of_false ?_ (mcDecision_read _ hdecision)
      rw [ho]
      exact presence_refused _
  | registered cdh verified hdecision _ h =>
      refine iff_of_false ?_ (mcDecision_read _ hdecision)
      have hstatus : o.status = some 0x2C ∨ o.status = some 0x28 ∨ o.status = some 0x00 := by
        cases h with
        | excluded _ ho => exact .inl (by rw [ho]; rfl)
        | full r _ _ ho => exact .inr (.inl (by rw [ho]; rfl))
        | saved r i cdhBytes _ _ _ _ ho => exact .inr (.inr (by rw [ho]; rfl))
      rw [Outcome.RefusedForPin]
      rcases hstatus with hstatus | hstatus | hstatus <;> rw [hstatus] <;> decide

/-! ## Where the search looks -/

theorem lookup_cons_ne {k : Item} (hk : k ≠ .uint key) :
    lookup key ((k, v) :: after) = lookup key after := by
  cases k with
  | uint n => exact if_neg fun h => hk (congrArg Item.uint h)
  | _ => rfl

theorem behindHead_cons_ne {k : Item} (hk : k ≠ .uint key) :
    behindHead key ((k, v) :: after) = behindHead key after := by
  cases k with
  | uint n =>
      cases v with
      | map options => exact if_neg fun h => hk (congrArg Item.uint h)
      | _ => rfl
  | _ => rfl

/-- The first entry under the number, and the bytes from behind its head. -/
theorem lookup_some (h : lookup key entries = some v) :
    ∃ before after, entries = before ++ (.uint key, v) :: after ∧
      (∀ e ∈ before, e.1 ≠ .uint key) ∧ ∀ options, v = .map options →
        behindHead key entries = encodeEntries options ++ encodeEntries after := by
  induction entries with
  | nil => simp [lookup] at h
  | cons e rest ih =>
      rcases e with ⟨k, v'⟩
      by_cases hk : k = .uint key
      · rw [hk, lookup, if_pos rfl, Option.some.injEq] at h
        subst hk h
        refine ⟨[], rest, rfl, by simp, ?_⟩
        rintro options rfl
        rw [behindHead, if_pos rfl]
      · rw [lookup_cons_ne hk] at h
        obtain ⟨before, after, hsplit, hother, hbytes⟩ := ih h
        refine ⟨(k, v') :: before, after, by rw [hsplit]; rfl, ?_, ?_⟩
        · simpa [hk] using hother
        · rwa [behindHead_cons_ne hk]

theorem lookup_none (h : lookup key entries = none) :
    (∀ e ∈ entries, e.1 ≠ .uint key) ∧ behindHead key entries = [] := by
  induction entries with
  | nil => exact ⟨by simp, rfl⟩
  | cons e rest ih =>
      rcases e with ⟨k, v'⟩
      by_cases hk : k = .uint key
      · rw [hk, lookup, if_pos rfl] at h
        cases h
      · rw [lookup_cons_ne hk] at h
        rw [behindHead_cons_ne hk]
        exact ⟨by simpa [hk] using (ih h).1, (ih h).2⟩

theorem searchLen_eq {reqLen ptr : ℕ} (hptr : ptr ≤ reqLen) (hlen : reqLen < 65536) :
    searchLen reqLen ptr = reqLen - ptr := by
  have hsame : u16 ptr = ptr := u16_of_lt (by omega)
  rw [searchLen, hsame, u16]
  omega

/-- The search runs from behind the head of the options map to the end of the request. -/
theorem says_iff_behindHead {cmd val : UInt8} {key : String} (h : c.Carries cmd entries)
    (hscan : ScannableEntries entries) (hpos : 0 < number) (hnumber : number < 256)
    (hmap : ∀ v, lookup number entries = some v → ∃ options, v = .map options) :
    c.Says number key val ↔
      FirstSays c.req (c.reqLen - (behindHead number entries).length)
        (behindHead number entries).length (ascii key) val := by
  cases hfound : lookup number entries with
  | none =>
      obtain ⟨hother, hbytes⟩ := lookup_none hfound
      have hnot : ¬ FirstSays c.req c.reqLen 0 (ascii key) val := by
        rintro ⟨i, hi, -⟩
        exact Nat.not_lt_zero _ hi.within
      have hmissing : (getCborMapValue 1 (c.reqLen - 1) number).run c.req = some none :=
        h.missing hpos hnumber hscan hother
      rw [hbytes]
      exact iff_of_false (by simp [says_iff hmissing]) hnot
  | some v =>
      obtain ⟨options, rfl⟩ := hmap v hfound
      obtain ⟨before, after, rfl, hother, hbytes⟩ := lookup_some hfound
      have hbefore := (scannableEntries_append.1 hscan).1
      have hcount : options.length < 65536 :=
        lt_of_le_of_lt (length_le_encode_map _) (h.value_length_lt before)
      obtain ⟨p, -, hend, hrun⟩ :=
        (h.entry before hpos hnumber hbefore hother).valueEnd (by omega) hcount rfl
      have hreq : p + (behindHead number (before ++ (.uint number, .map options) :: after)).length
          = c.reqLen := by
        rw [hbytes options rfl, List.length_append, h.length]
        omega
      have hfits := h.fits
      rw [says_iff hrun, ← hreq, Nat.add_sub_cancel, hreq]
      simp only [Option.some.injEq, exists_eq_left', searchLen_eq (show p ≤ c.reqLen by omega)
        (by omega)]
      rw [show c.reqLen - p = _ by rw [← hreq, Nat.add_sub_cancel_left]]

/-- A pinUvAuthParam is read where there is one. -/
theorem reads_param {cmd : UInt8} (h : c.Carries cmd entries)
    (hscan : ScannableEntries entries) (hpos : 0 < number) (hnumber : number < 256)
    (hbytes : ∀ v, lookup number entries = some v → ∃ bs, v = .bytes bs) :
    (∃ p, (getCborMapString 1 (c.reqLen - 1) number).run c.req = some (some p)) ↔
      lookup number entries ≠ none := by
  cases hfound : lookup number entries with
  | none =>
      have hmissing : (getCborMapValue 1 (c.reqLen - 1) number).run c.req = some none :=
        h.missing hpos hnumber hscan (lookup_none hfound).1
      simp [getCborMapString, hmissing]
  | some v =>
      obtain ⟨bs, rfl⟩ := hbytes v hfound
      obtain ⟨before, after, rfl, hother, -⟩ := lookup_some hfound
      have hbefore := (scannableEntries_append.1 hscan).1
      have hlen : bs.length < 65536 := by
        have hvalue := h.value_length_lt before
        simp only [Item.encode, List.length_append] at hvalue
        omega
      obtain ⟨p, -, hrun⟩ := (h.entry before hpos hnumber hbefore hother).bytes hlen
      simp [hrun]

end

/-! ## The options -/

/-- GetAssertion does what its options map says. -/
structure GaOptionsHonoured (d : Device) (c : Command) (o : Outcome) (entries : List Entry) :
    Prop where
  refused : o.RefusedForPin ↔ OptionSet entries 0x05 "uv" true ∧ lookup 0x06 entries = none
  untouched : ¬ o.RefusedForPin → (d.touches c = [] ↔ OptionSet entries 0x05 "up" false)

/-- The searches of GetAssertion come to what its options map says. -/
structure GaOptionsFound (c : Command) (entries : List Entry) : Prop where
  uv : c.AsksForUv ↔ OptionSet entries 0x05 "uv" true ∧ lookup 0x06 entries = none
  up : ¬ (OptionSet entries 0x05 "uv" true ∧ lookup 0x06 entries = none) →
    (c.Says 0x05 "up" 0xF4 ↔ OptionSet entries 0x05 "up" false)

/-- The options map of MakeCredential asks for the PIN. -/
def OptionsNeedPin (entries : List Entry) (pinSet : Prop) : Prop :=
  OptionSet entries 0x07 "uv" true ∨ OptionSet entries 0x07 "rk" true ∧ pinSet

/-- What the search finds in a request whose integers and lengths have 16 bits. -/
structure SearchesBehindHead (c : Command) (entries : List Entry) : Prop where
  search : ∀ number key val, 0 < number → number < 256 →
    (∀ v, lookup number entries = some v → ∃ options, v = .map options) →
    (c.Says number key val ↔ FirstSays c.req (c.reqLen - (behindHead number entries).length)
      (behindHead number entries).length (ascii key) val)
  getParam : (∀ v, lookup 0x06 entries = some v → ∃ bs, v = .bytes bs) →
    (c.HasPinUvAuthParam ↔ lookup 0x06 entries ≠ none)
  makeParam : (∀ v, lookup 0x08 entries = some v → ∃ bs, v = .bytes bs) →
    (c.HasPinAuth ↔ lookup 0x08 entries ≠ none)

/-- The options are those of the map exactly if the searches, which run to the end of
the request, come to what the map says. -/
theorem options_honoured_iff (d : Device) (c : Command) (o : Outcome) (entries : List Entry) :
    (c.Carries 0x02 entries → d.outcome c = some o → o.status ≠ some 0x2E →
      o.status ≠ some 0x33 → (GaOptionsHonoured d c o entries ↔ GaOptionsFound c entries)) ∧
    (c.Carries 0x01 entries → lookup 0x08 entries = none → d.outcome c = some o →
      ((o.RefusedForPin ↔ OptionsNeedPin entries (d.storedPin.isSome = true)) ↔
        (c.NeedsPin (d.storedPin.isSome = true) ↔
          OptionsNeedPin entries (d.storedPin.isSome = true)))) ∧
    ∀ cmd, c.Carries cmd entries → ScannableEntries entries → SearchesBehindHead c entries := by
  refine ⟨?_, ?_, ?_⟩
  · intro hc ho hcredential hparam
    obtain ⟨hrefused, htouch⟩ :=
      getAssertion_options ⟨hc.reqLen_ne_zero, hc.cmd_eq⟩ ho hcredential hparam
    constructor
    · rintro ⟨huv, hup⟩
      have hasks : c.AsksForUv ↔ _ := hrefused.symm.trans huv
      refine ⟨hasks, fun hnot => ?_⟩
      exact (htouch (mt hasks.1 hnot)).symm.trans (hup (mt huv.1 hnot))
    · rintro ⟨huv, hup⟩
      refine ⟨hrefused.trans huv, fun hnot => ?_⟩
      have hasks := mt hrefused.2 hnot
      exact (htouch hasks).trans (hup (mt huv.2 hasks))
  · intro hc _ ho
    rw [makeCredential_options hc.reqLen_ne_zero hc.cmd_eq ho]
  · intro cmd hc hscan
    exact ⟨fun number key val hpos hnumber hmap =>
        says_iff_behindHead hc hscan hpos hnumber hmap,
      reads_param hc hscan (by decide) (by decide),
      reads_param hc hscan (by decide) (by decide)⟩

/-- The one option `"uv": true`. -/
def uvOptions : Item := .map [(.text (ascii "uv"), .bool true)]

def uvAssertionEntries : List Entry :=
  [(.uint 1, .text [0x61]), (.uint 2, .bytes (List.replicate 32 0xC5)), (.uint 5, uvOptions)]

def uvRegistrationEntries : List Entry := [(.uint 7, uvOptions)]

def commandOf (cmd : UInt8) (entries : List Entry) : Command :=
  hostCommand (cmd :: (Item.map entries).encode)

theorem uvCommands_refused :
    ((Device.powerUp (oneCredential (sha256 [0x61]))).outcome
      (commandOf 0x02 uvAssertionEntries)).any (fun o => o.status = some 0x35) = true ∧
    ((Device.powerUp (oneCredential (sha256 [0x61]))).outcome
      (commandOf 0x01 uvRegistrationEntries)).any (fun o => o.status = some 0x35) = true := by
  decide +kernel

theorem uvCommands_carry :
    (commandOf 0x02 uvAssertionEntries).Carries 0x02 uvAssertionEntries ∧
      (commandOf 0x01 uvRegistrationEntries).Carries 0x01 uvRegistrationEntries :=
  ⟨⟨holds_getD _, rfl, by decide +kernel⟩, ⟨holds_getD _, rfl, by decide +kernel⟩⟩

/-- An option which is refused as the map says is one which the searches find. -/
theorem options_honoured_iff_uv :
    GaOptionsFound (commandOf 0x02 uvAssertionEntries) uvAssertionEntries ∧
    SearchesBehindHead (commandOf 0x02 uvAssertionEntries) uvAssertionEntries ∧
    ((commandOf 0x01 uvRegistrationEntries).NeedsPin
      ((Device.powerUp (oneCredential (sha256 [0x61]))).storedPin.isSome = true) ↔
      OptionsNeedPin uvRegistrationEntries
        ((Device.powerUp (oneCredential (sha256 [0x61]))).storedPin.isSome = true)) := by
  obtain ⟨hget, hmake⟩ := uvCommands_refused
  obtain ⟨hgetCarries, hmakeCarries⟩ := uvCommands_carry
  obtain ⟨o, ho, hstatus⟩ := (Option.any_eq_true _ _).1 hget
  obtain ⟨o', ho', hstatus'⟩ := (Option.any_eq_true _ _).1 hmake
  rw [decide_eq_true_iff] at hstatus hstatus'
  have hgetSet : OptionSet uvAssertionEntries 0x05 "uv" true := ⟨_, rfl, by simp [lookupText]⟩
  have hmakeSet : OptionSet uvRegistrationEntries 0x07 "uv" true := ⟨_, rfl, by simp [lookupText]⟩
  have hscan : ScannableEntries uvAssertionEntries := by
    simp [uvAssertionEntries, uvOptions, ScannableEntries, Scannable, ascii]
  obtain ⟨hhonoured, -, hsearch⟩ := options_honoured_iff
    (Device.powerUp (oneCredential (sha256 [0x61]))) (commandOf 0x02 uvAssertionEntries) o
    uvAssertionEntries
  have hmakeIff := (options_honoured_iff (Device.powerUp (oneCredential (sha256 [0x61])))
    (commandOf 0x01 uvRegistrationEntries) o' uvRegistrationEntries).2.1 hmakeCarries
    (by simp [uvRegistrationEntries, lookup]) ho'
  refine ⟨(hhonoured hgetCarries ho (by rw [hstatus]; decide) (by rw [hstatus]; decide)).1
    ⟨?_, ?_⟩, hsearch 0x02 hgetCarries hscan, hmakeIff.1 ?_⟩
  · exact iff_of_true (.inl hstatus) ⟨hgetSet, rfl⟩
  · exact fun hnot => absurd (.inl hstatus) hnot
  · exact iff_of_true (.inl hstatus') (.inl hmakeSet)

/-- GetAssertion for the relying party `a` with the one option `"bup": false`. -/
def unknownOptionEntries : List Entry :=
  [(.uint 1, .text [0x61]), (.uint 2, .bytes (List.replicate 32 0xC5)),
    (.uint 5, .map [(.text (ascii "bup"), .bool false)])]

def unknownOptionCommand : Command :=
  hostCommand (0x02 :: (Item.map unknownOptionEntries).encode)

/-- The end of the option's name, with its value, is taken for `"up": false`. -/
theorem unknownOption_skips_touch :
    ¬ ∀ (d : Device) (c : Command) (o : Outcome) (entries : List Entry),
      c.Carries 0x02 entries → ScannableEntries entries → d.outcome c = some o →
      o.status = some 0x00 → GaOptionsHonoured d c o entries := by
  intro hall
  have hruns : ((Device.powerUp (oneCredential (sha256 [0x61]))).outcome
      unknownOptionCommand).any (fun o => o.status = some 0x00) = true := by decide +kernel
  obtain ⟨o, ho, hok⟩ := (Option.any_eq_true _ _).1 hruns
  have hok : o.status = some 0x00 := of_decide_eq_true hok
  have hnone : (Device.powerUp (oneCredential (sha256 [0x61]))).touches
      unknownOptionCommand = [] := by decide +kernel
  have hhonoured := hall _ unknownOptionCommand o unknownOptionEntries
    ⟨holds_getD _, by decide +kernel, by decide +kernel⟩
    (by simp [unknownOptionEntries, ScannableEntries, Scannable, ascii]) ho hok
  have hnot : ¬ o.RefusedForPin := by
    rw [Outcome.RefusedForPin, hok]
    decide
  obtain ⟨options, hmap, hset⟩ := (hhonoured.untouched hnot).1 hnone
  have hoptions : options = [(.text (ascii "bup"), .bool false)] := by
    simpa [unknownOptionEntries, lookup, eq_comm] using hmap
  rw [hoptions] at hset
  simp [lookupText, ascii] at hset

end UnsoloKey
