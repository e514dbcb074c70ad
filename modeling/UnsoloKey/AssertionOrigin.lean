import UnsoloKey.Answers
import UnsoloKey.CurveLibrary
import UnsoloKey.Login
import UnsoloKey.PinLifecycle
import UnsoloKey.RpIdentity
import UnsoloKey.WalkChallenge
import Mathlib.Tactic

/-!
# Where an assertion comes from

The key of a stored credential is one which an earlier registration has made, and its
public key is in the attestation of that registration.  In every run from a flash without
credentials an assertion is therefore for a credential of an earlier attestation, under
the same relying party, and signed for the public key which stands there.
-/

namespace UnsoloKey

open Rd Trace Cbor UEcc P256

/-- Among the events there is a successful registration with this outcome. -/
structure RegisteredIn (mem : Mem) (past : List HostEvent) (c : Command) (o : Outcome)
    (rpIdHash : Bytes 32) (cdh : List UInt8) : Prop where
  occurs : ∃ before after d, past = before ++ .command c :: after ∧
    Run Device.event (Device.powerUp mem) before d ∧ d.outcome c = some o
  cmd : c.req 0 = 0x01
  ok : o.status = some 0x00
  read : ∃ p, (getCborMapString 1 (c.reqLen - 1) 0x01).run c.req = some p ∧
    (attestedCdh p).run c.req = some cdh
  attested : ∃ verified, o.resp = attestation c.env rpIdHash verified cdh

/-- The credential in the slot is that of a registration among the events. -/
def SlotRegistered (mem : Mem) (past : List HostEvent) (k : ResidentKey) : Prop :=
  ∃ c o cdh, RegisteredIn mem past c o k.rpIdHash cdh ∧
    k.credentialId = c.env.rng 0 32 ∧ k.privateKey = c.env.makeKey.2

structure StoreOrigin (mem : Mem) (past : List HostEvent) (d : Device) : Prop where
  count : d.ctap.gGaCount < 2 ^ 32
  slots : ∀ i, (d.flash.mem.slotKey i).magic = passkeyMagic →
    SlotRegistered mem past (d.flash.mem.slotKey i)

section

variable {mem : Mem} {past : List HostEvent} {d d' : Device} {c : Command} {o : Outcome}
  {rpIdHash : Bytes 32} {cdh : List UInt8} {k : ResidentKey}

theorem RegisteredIn.snoc (h : RegisteredIn mem past c o rpIdHash cdh) (e : HostEvent) :
    RegisteredIn mem (past ++ [e]) c o rpIdHash cdh := by
  obtain ⟨before, after, d, hpast, hrun⟩ := h.occurs
  exact ⟨⟨before, after ++ [e], d, by simp [hpast], hrun⟩, h.cmd, h.ok, h.read, h.attested⟩

theorem SlotRegistered.snoc (h : SlotRegistered mem past k) (e : HostEvent) :
    SlotRegistered mem (past ++ [e]) k := by
  obtain ⟨c, o, cdh, hregistered, hid, hkey⟩ := h
  exact ⟨c, o, cdh, hregistered.snoc e, hid, hkey⟩

/-! ## What one command does to the credentials -/

theorem mcDecision_cdh {reqLen : ℕ} {m : Mem} : (mcDecision d reqLen).Returns m fun r =>
    ∀ go, r = .ok go → (getCborMapString 1 (reqLen - 1) 0x01).run m = some go.1 := by
  unfold mcDecision
  refine Returns.bind_run fun cdh hcdh => Returns.bind fun pinAuth => ?_
  have hgoes : ∀ {verified} (go : Option (ℕ × ℕ) × Option (List UInt8)),
      (.ok (cdh, verified) : Except UInt8 _) = .ok go →
      (getCborMapString 1 (reqLen - 1) 0x01).run m = some go.1 := by
    rintro verified go heq
    cases heq
    exact hcdh
  cases pinAuth with
  | some p =>
      refine Returns.ite (fun _ => Returns.pure nofun) fun _ => Returns.bind fun _ =>
        Returns.bind fun valid => Returns.ite (fun _ => Returns.pure nofun) fun _ =>
        Returns.pure hgoes
  | none =>
      refine Returns.bind fun options => ?_
      cases options with
      | none => exact Returns.pure hgoes
      | some options =>
          refine Returns.bind fun refused => ?_
          cases refused with
          | some status => exact Returns.pure nofun
          | none => exact Returns.pure hgoes

theorem makeCredential_registered (hcmd : c.req 0 = 0x01)
    (ho : d.outcome c = some o) (hok : o.status = some 0x00) :
    ∃ (r : Registration) (i : Slot) (cdh : List UInt8) (p : Option (ℕ × ℕ)) (verified : Bool),
      saveSlot d.flash.mem r.rpIdHash r.userId = some i ∧
      o.ops = writePageOps (slotAddr i) (r.key c.env).toBytes ∧
      (getCborMapString 1 (c.reqLen - 1) 0x01).run c.req = some p ∧
      (attestedCdh p).run c.req = some cdh ∧
      o.resp = attestation c.env r.rpIdHash verified cdh := by
  have hlen : c.reqLen ≠ 0 := by
    intro hzero
    unfold Device.outcome fido2ProcessCbor at ho
    rw [if_pos hzero, run_pure, Option.some.injEq] at ho
    rw [← ho] at hok
    exact absurd (Option.some.inj hok) (by decide)
  rw [outcome_eq hlen, hcmd] at ho
  change (makeCredential c.env (d.onChannel c.cid) c.reqLen).run c.req = some o at ho
  cases makeCredential_effect o ho with
  | refused status hstatus _ ho =>
      rw [ho, reply_status] at hok
      exact absurd (Option.some.inj hok) hstatus
  | untouched cdh verified _ hpresence ho =>
      rw [ho, replyUnder_status] at hok
      exact absurd ((presence_status_eq_zero_iff _).1 (Option.some.inj hok)) hpresence
  | registered cdh verified hdecision _ heffect =>
      cases heffect with
      | excluded _ ho =>
          rw [ho, replyUnder_status] at hok
          exact absurd (Option.some.inj hok) (by decide)
      | full _ _ _ ho =>
          rw [ho, replyUnder_status] at hok
          exact absurd (Option.some.inj hok) (by decide)
      | saved r i cdhBytes _ hread hslot hcdh ho =>
          refine ⟨r, i, cdhBytes, cdh, verified.isSome, hslot, by rw [ho]; rfl,
            mcDecision_cdh _ hdecision _ rfl, hcdh, by rw [ho]; rfl⟩

theorem storeOrigin_command (h : StoreOrigin mem past d)
    (hrun : Run Device.event (Device.powerUp mem) past d) (ho : d.outcome c = some o) :
    StoreOrigin mem (past ++ [.command c]) (d.after o) := by
  refine ⟨gaCount_step h.count (step_iff.2 ⟨o, ho, rfl⟩), fun i hmagic => ?_⟩
  cases credentialSlots_change ho with
  | kept hkept _ =>
      rw [slotKey_of_slotBytes (hkept i)] at hmagic ⊢
      exact (h.slots i hmagic).snoc _
  | registered _ _ hcmd _ _ _ _ hok =>
      obtain ⟨r, j, cdh, p, verified, -, hops, hread, hcdh, hresp⟩ :=
        makeCredential_registered hcmd ho hok
      have hkey : (d.after o).flash.mem.slotKey i =
          if i = j then r.key c.env else d.flash.mem.slotKey i := by
        rw [Device.after, Flash.run_mem, hops]
        exact slotKey_after_write _ j i (show passkeyMagic < 2 ^ 32 by decide)
      rw [hkey] at hmagic ⊢
      split_ifs at hmagic ⊢ with hij
      · exact ⟨c, o, cdh, ⟨⟨past, [], d, rfl, hrun, ho⟩, hcmd, hok, ⟨p, hread, hcdh⟩,
          verified, hresp⟩, rfl, rfl⟩
      · exact (h.slots i hmagic).snoc _
  | deleted id p n j _ _ _ _ _ _ herased hothers _ =>
      by_cases hij : i = j
      · subst hij
        rw [slotKey_magic_of_erased herased] at hmagic
        exact absurd hmagic (by decide)
      · rw [slotKey_of_onlySlot hothers hij] at hmagic ⊢
        exact (h.slots i hmagic).snoc _
  | reset _ herased _ _ =>
      rw [slotKey_magic_of_erased (herased i)] at hmagic
      exact absurd hmagic (by decide)

theorem storeOrigin_run (hempty : ∀ i, (mem.slotKey i).magic ≠ passkeyMagic)
    (hrun : Run Device.event (Device.powerUp mem) past d) : StoreOrigin mem past d := by
  induction past using List.reverseRecOn generalizing d with
  | nil =>
      obtain rfl := Run.nil_iff.1 hrun
      exact ⟨Nat.two_pow_pos 32, fun i hmagic => absurd hmagic (hempty i)⟩
  | append_singleton past e ih =>
      obtain ⟨d₀, hpast, hstep⟩ := Run.snoc_iff.1 hrun
      cases e with
      | command c =>
          obtain ⟨o, ho, rfl⟩ := step_iff.1 hstep
          exact storeOrigin_command (ih hpast) hpast ho
      | powerCycle =>
          cases hstep
          exact ⟨Nat.two_pow_pos 32, fun i hmagic => ((ih hpast).slots i hmagic).snoc _⟩

/-! ## What an assertion is for -/

/-- The slot which an assertion is for, with what it signs. -/
theorem assertion_slot (hcount : d.ctap.gGaCount < 2 ^ 32) (ho : d.outcome c = some o)
    (hc : c.IsGetAssertion ∨ c.IsNext) (hok : o.status = some 0x00) :
    ∃ i rpIdHash flags cdh total, total < 2 ^ 32 ∧ isOfRp d.flash.mem rpIdHash i = true ∧
      d.signed c = some ⟨authDataHeader rpIdHash flags, cdh⟩ ∧
      o.resp = gaBuildResponse c.env d.flash.mem i (authDataHeader rpIdHash flags) cdh total := by
  rcases hc with hget | hnext
  · rcases signed_getAssertion hget ho with ⟨hfails, -⟩ |
      ⟨ctap, plan, cdh, hdecision, -, hsigned, -, hresp⟩
    · exact absurd hok hfails
    · have hselected : Selected (d.onChannel c.cid) c.reqLen c.req ctap plan :=
        gaDecision_spec _ hdecision
      exact ⟨plan.slot, plan.rpIdHash, _, cdh, plan.total, hselected.total_lt,
        hselected.isOfRp, hsigned, hresp⟩
  · have hsigned := signed_iff ho (.inr hnext)
    rw [outcome_isNext hnext, Option.some.injEq] at ho
    subst ho
    have heffect : GetNextAssertionEffect c.env (d.onChannel c.cid)
        (getNextAssertion c.env (d.onChannel c.cid)) := getNextAssertion_effect
    cases heffect with
    | refused status hstatus hresp _ =>
        rw [Outcome.status, hresp] at hok
        exact absurd (Option.some.inj hok) hstatus
    | asserted i hmore hslot _ hresp _ _ =>
        refine ⟨i, d.ctap.gGaRpHash, 0x01, d.ctap.gGaCdh, d.ctap.gGaCount, hcount,
          isOfRp_of_getByRpIndex hslot, ?_, hresp⟩
        obtain ⟨x, hx⟩ := Option.isSome_iff_exists.1 (hsigned.1.1 hok)
        rcases nextSigned_effect c.env (d.onChannel c.cid) with ⟨hfails, -⟩ |
          ⟨-, -, -, hsome, -⟩
        · exact absurd hok hfails
        · rw [signed_next hnext]
          exact hsome

/-- The signature of the response is over its authenticator data and `cdh`, and accepted
under the public key. -/
def SignedUnder (pub resp cdh : List UInt8) : Prop :=
  ∃ authData der r s, responseAuthData resp = some authData ∧
    responseSignature resp = some der ∧ decodeDerSignature der = some (r, s) ∧
    AcceptedUnder pub (sha256 (authData ++ cdh)).val r s

theorem attestation_signedUnder {env : Env} (h : env.CallsUEcc) (verified : Bool) :
    SignedUnder env.makeKey.1.val (attestation env rpIdHash verified cdh) cdh := by
  unfold attestation
  refine ⟨_, _, _, _, responseAuthData_mc (mcAuthData_length _ _ _ _)
    (ecdsaSigToDer_length_le _), responseSignature_mc (mcAuthData_length _ _ _ _)
    (ecdsaSigToDer_length_le _), decodeDerSignature_ecdsaSigToDer _, ?_⟩
  rw [signature_eq]
  exact h.accepted h _

/-- An assertion, and the attestation it goes back to. -/
structure GoesBackTo (d : Device) (c : Command) (resp attested cdh : List UInt8) : Prop where
  credential : ∃ id pub x, responseCredential attested = some (id, pub) ∧
    responseCredentialId resp = some id ∧ d.signed c = some x ∧
    SignedUnder pub attested cdh ∧ SignedUnder pub resp x.cdh.val
  rp : ∃ left right, responseAuthData attested = some left ∧ responseAuthData resp = some right ∧
    left.take 32 = right.take 32

/-- Every assertion of a run is for a credential which a registration of the run has
attested, and signed for the public key in that attestation. -/
theorem assertion_origin (hempty : ∀ i, (mem.slotKey i).magic ≠ passkeyMagic)
    (hrun : Run Device.event (Device.powerUp mem) past d)
    (hpast : ∀ c, .command c ∈ past → c.env.CallsUEcc) (henv : c.env.CallsUEcc)
    (ho : d.outcome c = some o) (hc : c.IsGetAssertion ∨ c.IsNext) (hok : o.status = some 0x00) :
    ∃ reg oreg rpIdHash cdh, RegisteredIn mem past reg oreg rpIdHash cdh ∧
      GoesBackTo d c o.resp oreg.resp cdh := by
  have horigin := storeOrigin_run hempty hrun
  obtain ⟨i, rpIdHash, flags, cdh, total, htotal, hslot, hsigned, hresp⟩ :=
    assertion_slot horigin.count ho hc hok
  obtain ⟨hmagic, hrp⟩ := isOfRp_iff_magic.1 hslot
  obtain ⟨reg, oreg, cdh', hregistered, hid, hkey⟩ := horigin.slots i hmagic
  rw [hrp] at hregistered
  refine ⟨reg, oreg, rpIdHash, cdh', hregistered, ?_⟩
  obtain ⟨before, after, d₀, hsplit, -, -⟩ := hregistered.occurs
  have hreg : reg.env.CallsUEcc := hpast reg (by simp [hsplit])
  obtain ⟨verified, hattested⟩ := hregistered.attested
  have hauth := authDataHeader_length rpIdHash flags
  rw [hattested, hresp]
  constructor
  · refine ⟨_, _, _, responseCredential_attestation _ _, ?_, hsigned,
      attestation_signedUnder hreg verified, _, _, _, _, responseAuthData_ga hauth htotal,
      responseSignature_ga hauth htotal, decodeDerSignature_ecdsaSigToDer _, ?_⟩
    · rw [gaResponse_credentialId hauth htotal, hid]
    · rw [signature_eq, hkey]
      exact hreg.accepted henv _
  · refine ⟨_, _, responseAuthData_mc (mcAuthData_length _ _ _ _)
      (ecdsaSigToDer_length_le _), responseAuthData_ga hauth htotal, ?_⟩
    simp only [mcAuthData, authDataHeader, List.append_assoc]
    rw [List.take_left' rpIdHash.length_val, List.take_left' rpIdHash.length_val]

end

section

variable {c : Command} {cmd : UInt8} {entries : List Entry} {rpId userId cdh : List UInt8}

theorem Command.Carries.withEnv (h : c.Carries cmd entries) (env : Env) :
    ({ c with env := env } : Command).Carries cmd entries :=
  ⟨h.holds, h.length, h.fits⟩

theorem Command.Registers.withEnv (h : c.Registers rpId userId cdh) (env : Env) :
    ({ c with env := env } : Command).Registers rpId userId cdh := by
  obtain ⟨rp, user, rest, hcarries, hrp, huser⟩ := h.carries
  exact ⟨⟨rp, user, rest, hcarries.withEnv env, hrp, huser⟩, h.cdhLen, h.rpIdLen, h.userIdLen⟩

theorem Command.SignsIn.withEnv (h : c.SignsIn rpId cdh) (env : Env)
    (htouch : env.presence = .confirmed) :
    ({ c with env := env } : Command).SignsIn rpId cdh := by
  obtain ⟨rest, hcarries, hrest⟩ := h.carries
  exact ⟨⟨rest, hcarries.withEnv env, hrest⟩, h.cdhLen, h.rpIdLen, htouch⟩

end

def libraryRegister : Command := { registerCommand with env := libraryEnv }

def librarySignIn : Command := { signInCommand with env := libraryEnv }

theorem libraryRegister_outcome : ∃ o,
    (Device.powerUp fun _ => 0xFF).outcome libraryRegister = some o ∧ o.status = some 0x00 := by
  have hruns : ((Device.powerUp fun _ => 0xFF).outcome libraryRegister).any
      (fun o => o.status = some 0x00) = true := by decide +kernel
  obtain ⟨o, ho, hstatus⟩ := (Option.any_eq_true _ _).1 hruns
  exact ⟨o, ho, of_decide_eq_true hstatus⟩

theorem assertion_origin_single : ∃ o o' reg oreg rpIdHash cdh,
    (Device.powerUp fun _ => 0xFF).outcome libraryRegister = some o ∧
      ((Device.powerUp fun _ => 0xFF).after o).outcome librarySignIn = some o' ∧
      RegisteredIn (fun _ => 0xFF) [.command libraryRegister] reg oreg rpIdHash cdh ∧
      GoesBackTo ((Device.powerUp fun _ => 0xFF).after o) librarySignIn o'.resp oreg.resp cdh := by
  obtain ⟨o, ho, hok⟩ := libraryRegister_outcome
  have hregisters : libraryRegister.Registers [0x61] [0x01] (List.replicate 32 0xC5) :=
    keyedRegister_registers.withEnv libraryEnv
  have hsignsIn : librarySignIn.SignsIn [0x61] (List.replicate 32 0xC5) :=
    keyedSignIn_signsIn.withEnv libraryEnv rfl
  obtain ⟨i, verified, -, hstored⟩ := hregisters.registered ho hok
  have hpos := List.length_pos_of_mem hstored.mem_slotsOfRp
  obtain ⟨o', ho', hok'⟩ := hsignsIn.succeeds (List.getElem?_eq_getElem hpos)
  have hempty : ∀ j, (Mem.slotKey (fun _ => 0xFF) j).magic ≠ passkeyMagic := by
    intro j hmagic
    rw [erased_magic j] at hmagic
    exact passkeyMagic_ne_emptyMagic hmagic.symm
  have hrun : Run Device.event (Device.powerUp fun _ => 0xFF) [.command libraryRegister]
      ((Device.powerUp fun _ => 0xFF).after o) := .single (step_iff.2 ⟨o, ho, rfl⟩)
  have hcalls : ∀ c, .command c ∈ [HostEvent.command libraryRegister] → c.env.CallsUEcc := by
    intro c hc
    cases List.mem_singleton.1 hc
    exact callsUEcc_libraryEnv
  obtain ⟨reg, oreg, rpIdHash, cdh, hregistered, hback⟩ := assertion_origin hempty hrun hcalls
    callsUEcc_libraryEnv ho' (.inl ⟨hsignsIn.bare.len, hsignsIn.bare.cmd⟩) hok'
  exact ⟨o, o', reg, oreg, rpIdHash, cdh, ho, ho', hregistered, hback⟩

end UnsoloKey
