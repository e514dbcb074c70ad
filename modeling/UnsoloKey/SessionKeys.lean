import UnsoloKey.Answers
import UnsoloKey.CurveLibrary
import UnsoloKey.HostPoint
import UnsoloKey.Login
import UnsoloKey.PinLifecycle
import Mathlib.Tactic

/-!
# The session keys of the two sides

The answer to getKeyAgreement carries the public key of a key pair which the device keeps
until it is asked for another one.  A host which multiplies that point by a scalar of its
own, and sends its multiple of the generator, derives the keys which the device derives,
whatever commands come in between.
-/

namespace UnsoloKey

open Rd Trace Cbor UEcc CoZ P256

/-! ## The key pair of the session -/

def PinSession.keyPair (s : PinSession) : Bytes 64 × Bytes 32 × Bool :=
  (s.ecdhPublicKey, s.ecdhPrivateKey, s.ecdhKeyValid)

/-- What a command does to the key pair. -/
inductive KeyPairEffect (d : Device) (c : Command) (o : Outcome) : Prop
  | kept (hpair : o.pin.keyPair = d.pin.keyPair)
      (hstatus : c.pinSubCmd = some 0x02 → o.status ≠ some 0x00)
  | made (hsub : c.pinSubCmd = some 0x02) (hresp : o.resp = keyAgreementResponse c.env.makeKey.1)
      (hpair : o.pin.keyPair = (c.env.makeKey.1, c.env.makeKey.2, true))

section

variable {d d' : Device} {c : Command} {o : Outcome} {m : Mem} {reqLen : ℕ}

theorem agree_keyPair (s : PinSession) (shared : Bytes 32) :
    (s.agree shared).keyPair = s.keyPair := by
  unfold PinSession.agree PinSession.keyPair
  split <;> rfl

theorem setPin_keyPair : (setPin d 1 reqLen).Returns m fun o => o.pin.keyPair = d.pin.keyPair := by
  unfold setPin
  refine Returns.bind fun checked => ?_
  cases checked <;> exact Returns.pure rfl

theorem changePin_keyPair :
    (changePin d 1 reqLen).Returns m fun o => o.pin.keyPair = d.pin.keyPair := by
  unfold changePin
  refine Returns.bind fun checked => ?_
  cases checked with
  | error status => exact Returns.pure rfl
  | ok request =>
      refine Returns.pure ?_
      unfold changePinOutcome
      split
      · rfl
      · split
        · rfl
        · split <;> rfl

theorem getPinToken_keyPair (env : Env) (subCmd : ℕ) :
    (getPinToken env d 1 reqLen subCmd).Returns m fun o => o.pin.keyPair = d.pin.keyPair := by
  unfold getPinToken
  refine Returns.bind fun claimed => ?_
  cases claimed with
  | error status => exact Returns.pure rfl
  | ok guess =>
      refine Returns.pure ?_
      unfold pinTokenOutcome
      split
      · rfl
      · split
        · rfl
        · split <;> rfl

theorem clientPinFront_keyPair (hlen : c.reqLen ≠ 0) (hcmd : c.req 0 = 0x06) :
    (clientPinFront c.env (d.onChannel c.cid) 1 (c.reqLen - 1)).Returns c.req
      fun r => match r with
        | .error o => KeyPairEffect d c o
        | .ok (_, d') => d'.pin.keyPair = d.pin.keyPair ∧ c.pinSubCmd ≠ some 0x02 := by
  have hsub := pinSubCmd_eq hlen hcmd
  unfold clientPinFront
  refine Returns.ite (fun _ => Returns.pure (.kept rfl fun _ => ?_)) fun _ =>
    Returns.bind_run fun subCmd hrun => ?_
  · simp [Outcome.status, Device.reply]
  rw [hrun, Option.join_some] at hsub
  cases subCmd with
  | none => exact Returns.pure (.kept rfl (by simp [hsub]))
  | some subCmd =>
      refine Returns.bind fun proto => Returns.ite (fun _ => Returns.pure (.kept rfl (by simp)))
        fun _ => Returns.ite (fun hretries => Returns.pure (.kept ?_ ?_)) fun _ =>
        Returns.ite (fun hagree => Returns.pure (.made ?_ rfl rfl)) fun hother =>
        Returns.ite (fun _ => ?_) fun _ => Returns.pure (.kept rfl (by simp))
      · unfold getPinRetries
        split <;> rfl
      · rw [hsub, hretries]
        simp
      · rw [hsub, hagree]
      · refine Returns.ite (fun _ => Returns.pure (.kept rfl (by simp))) fun _ =>
          Returns.bind fun hostPub => ?_
        have hne : c.pinSubCmd ≠ some 0x02 := by
          rw [hsub, Ne, Option.some.injEq]
          exact hother
        cases hostPub with
        | error status => exact Returns.pure (.kept rfl fun h => absurd h hne)
        | ok hostPub => exact Returns.pure ⟨agree_keyPair _ _, hne⟩

theorem outcome_keyPair (ho : d.outcome c = some o) : KeyPairEffect d c o := by
  cases outcome_effect ho with
  | keeps hother hkept _ =>
      refine .kept (by rw [hkept.pin]) fun hsub => ?_
      obtain ⟨hlen, hcmd⟩ := pinSubCmd_reached hsub
      exact absurd hcmd (hother hlen)
  | reset htaken _ hpin _ _ _ =>
      refine .kept (by rw [hpin]) fun hsub => ?_
      obtain ⟨-, hcmd⟩ := pinSubCmd_reached hsub
      rw [htaken.2.1] at hcmd
      exact absurd hcmd (by decide)
  | clientPin hlen hcmd _ _ =>
      rw [outcome_eq hlen, hcmd] at ho
      have hspec := clientPinFront_keyPair (d := d) hlen hcmd
      suffices h : (processClientPin c.env (d.onChannel c.cid) 1 (c.reqLen - 1)).Returns c.req
          (KeyPairEffect d c) from h o ho
      unfold processClientPin
      refine Returns.bind_of hspec fun front hfront => ?_
      cases front with
      | error o => exact Returns.pure hfront
      | ok front =>
          obtain ⟨subCmd, d'⟩ := front
          obtain ⟨hpair, hne⟩ := hfront
          have hkept : ∀ o : Outcome, o.pin.keyPair = d'.pin.keyPair → KeyPairEffect d c o :=
            fun o ho => .kept (ho.trans hpair) fun h => absurd h hne
          refine Returns.ite ?_ fun _ => Returns.ite ?_ fun _ => ?_
          · exact fun _ o ho => hkept o (setPin_keyPair o ho)
          · exact fun _ o ho => hkept o (changePin_keyPair o ho)
          · exact fun o ho => hkept o (getPinToken_keyPair _ _ o ho)

end

/-! ## The session keys -/

/-- The public key in the answer to getKeyAgreement. -/
def responseKey (resp : List UInt8) : Option (List UInt8) := (responseEntry resp 1).bind cosePoint

theorem responseKey_keyAgreement (pub : Bytes 64) :
    responseKey (keyAgreementResponse pub) = some pub.val := by
  have hvalid : (keyAgreementItem pub).Valid :=
    (ResponseItem.keyAgreement (m := fun _ => 0) pub).valid
  rw [keyAgreementResponse_eq, responseKey, keyAgreementItem, responseEntry_eq hvalid]
  simp [lookup, cosePoint, lookupNint]

/-- The device keeps its power, and no other key pair is asked for. -/
def LeavesKeyPair (_ : Device) : HostEvent → Prop
  | .command c => c.pinSubCmd ≠ some 0x02
  | .powerCycle => False

theorem hasKeyPair_event {pair : Bytes 64 × Bytes 32 × Bool} {d d' : Device} {e : HostEvent}
    (hleaves : LeavesKeyPair d e) (h : d.pin.keyPair = pair) (hstep : d.event e = some d') :
    d'.pin.keyPair = pair := by
  cases e with
  | powerCycle => exact hleaves.elim
  | command c =>
      obtain ⟨o, ho, rfl⟩ := step_iff.1 hstep
      cases outcome_keyPair ho with
      | kept hpair _ => exact hpair.trans h
      | made hsub _ _ => exact absurd hsub hleaves

section

variable {d₀ d : Device} {ka c : Command} {o o' : Outcome} {events : List HostEvent} {subCmd b : ℕ}
  {secret : Bytes 32} {hostPub : Bytes 64} {devicePub : List UInt8}

/-- The x-coordinate of the multiple of the device's point. -/
def HostSecret (devicePub : List UInt8) (b : ℕ) (secret : Bytes 32) : Prop :=
  ∃ P x y, ∃ h : curve.Nonsingular x y, PointBytes devicePub P ∧ b • P = .some x y h ∧
    secret.val = beBytes 32 x.val

theorem deviceSecret_eq {env : Env} {pub : Bytes 64} {priv : Bytes 32} {a : ℕ}
    (henv : env.CallsUEcc) (hdevice : IsKeyPair devicePub priv.val a)
    (hhost : PointBytes pub.val (b • generator)) (hx : beNat (pub.val.take 32) ≠ 0)
    (hsecret : HostSecret devicePub b secret) : env.sharedSecret pub priv = secret := by
  obtain ⟨random, pos, ok, pos', hcall⟩ := henv.sharedSecret pub priv
  obtain ⟨-, x, y, hns, hpoint, hval⟩ := sharedSecret_point hhost (generator_nsmul_order b)
    hdevice.priv_eq hdevice.low hdevice.high hx hcall
  obtain ⟨P, x', y', hns', hP, hmult, hval'⟩ := hsecret
  have hsame : P = a • generator := pointBytes_inj hP hdevice.pub_bytes
  rw [hsame, smul_comm, hpoint] at hmult
  have hxs := (WeierstrassCurve.Affine.Point.some.inj hmult).1
  exact Subtype.ext (by rw [hval, hval', hxs])

theorem PinSession.SharedWith.congr {s t : PinSession} {h : HostSession} (hshared : s.SharedWith h)
    (hsame : t.keyState = s.keyState) : t.SharedWith h := by
  simp only [PinSession.keyState, Prod.mk.injEq] at hsame
  obtain ⟨hprotocol, hsecret, hhmac⟩ := hsame
  refine ⟨hprotocol.trans hshared.protocol, hshared.known, hsecret.trans hshared.aes, ?_⟩
  rw [← hshared.hmac]
  funext msg
  rw [PinSession.mac, PinSession.mac, hprotocol, hsecret, hhmac]

/-- A subcommand which gets to the keys leaves those which are derived for it. -/
theorem outcome_keyState (hsub : c.pinSubCmd = some subCmd)
    (hkind : subCmd = 0x03 ∨ subCmd = 0x04 ∨ subCmd = 0x05 ∨ subCmd = 0x09)
    (hvalid : d.pin.ecdhKeyValid = true) (hknown : c.protocolFor d = 1 ∨ c.protocolFor d = 2)
    (hpub : (hostPublicKey c.env 1 (c.reqLen - 1)).run c.req = some (.ok hostPub))
    (ho : d.outcome c = some o) :
    o.pin.keyState = (d.agreed c (c.protocolFor d)
      (c.env.sharedSecret hostPub d.pin.ecdhPrivateKey)).pin.keyState := by
  obtain ⟨hlen, hcmd⟩ := pinSubCmd_reached hsub
  rw [outcome_eq hlen, hcmd] at ho
  have hrun : (processClientPin c.env (d.onChannel c.cid) 1 (c.reqLen - 1)).run c.req =
    some o := ho
  rw [processClientPin, run_bind_eq_some] at hrun
  obtain ⟨front, hfront, -⟩ := hrun
  have hkeys := clientPinFront_keys hsub hkind front hfront
  cases front with
  | error o' =>
      have hnamed := (hostPublicKey_named _ hpub).1
      exact absurd ⟨hvalid, hknown, hnamed⟩ hkeys.1
  | ok front =>
      obtain ⟨-, pub, hrun, rfl⟩ := hkeys
      rw [hpub, Option.some.injEq, Except.ok.injEq] at hrun
      rw [hrun]
      exact processClientPin_keyState hfront o ho

/-- The session keys of the host, from a scalar of its own, are those of the device. -/
theorem sessionKeys_agree (ho : d₀.outcome ka = some o) (hsub : ka.pinSubCmd = some 0x02)
    (hok : o.status = some 0x00) (hka : ka.env.CallsUEcc)
    (hread : responseKey o.resp = some devicePub) (hsecret : HostSecret devicePub b secret)
    (hrun : Run Device.event (d₀.after o) events d)
    (hleaves : Run.Guarded Device.event LeavesKeyPair (d₀.after o) events)
    (hsub' : c.pinSubCmd = some subCmd)
    (hkind : subCmd = 0x03 ∨ subCmd = 0x04 ∨ subCmd = 0x05 ∨ subCmd = 0x09)
    (hknown : c.protocolFor d = 1 ∨ c.protocolFor d = 2) (hc : c.env.CallsUEcc)
    (hpub : (hostPublicKey c.env 1 (c.reqLen - 1)).run c.req = some (.ok hostPub))
    (hhost : PointBytes hostPub.val (b • generator)) (hx : beNat (hostPub.val.take 32) ≠ 0)
    (ho' : d.outcome c = some o') :
    o'.pin.SharedWith (hostSession (c.protocolFor d) secret) := by
  cases outcome_keyPair ho with
  | kept _ hstatus => exact absurd hok (hstatus hsub)
  | made _ hresp hpair =>
      rw [hresp, responseKey_keyAgreement, Option.some.injEq] at hread
      have hkept : d.pin.keyPair = (ka.env.makeKey.1, ka.env.makeKey.2, true) :=
        Run.invariant_of_guard (P := fun d => d.pin.keyPair = _)
          (fun _ _ _ h hleaves => hasKeyPair_event hleaves h) hrun hleaves hpair
      have hpriv : d.pin.ecdhPrivateKey = ka.env.makeKey.2 := congrArg (·.2.1) hkept
      obtain ⟨a, ha⟩ := hka.keyPair
      have hkeys := outcome_keyState hsub' hkind (congrArg (·.2.2) hkept) hknown hpub ho'
      rw [hpriv, deviceSecret_eq hc (hread ▸ ha) hhost hx hsecret] at hkeys
      exact (agree_sharedWith rfl hknown secret).congr hkeys

end

/-! ## Two sides with the same scalar -/

def libraryAgree : Command := { agreeUnder2 with env := libraryEnv }

/-- setPIN with the double of the generator as the host's key. -/
def libraryKey : Command := { bareSetPin doubleX doubleY with env := libraryEnv }

theorem doubleKey_x : beNat (doubleKey.val.take 32) ≠ 0 := by decide

theorem hostSecret_double : ∃ secret, HostSecret doubleKey.val 2 secret := by
  have hpub : IsKeyPair doubleKey.val (beBytes 32 2) 2 :=
    ⟨le_rfl, by decide, rfl, double_bytes⟩
  obtain ⟨secret, ok, pos', hcall⟩ := sharedSecret_small (.inl rfl) doubleKey.val (beBytes 32 2)
  obtain ⟨-, x, y, hns, hpoint, -⟩ := sharedSecret_point hpub.pub_bytes
    (generator_nsmul_order 2) hpub.priv_eq hpub.low hpub.high doubleKey_x hcall
  exact ⟨Bytes.fill 0 32 (beBytes 32 x.val), _, x, y, hns, double_bytes, hpoint,
    Bytes.fill_val (beBytes_length 32 _)⟩

theorem libraryKey_reads : (hostPublicKey libraryKey.env 1 (libraryKey.reqLen - 1)).run
    libraryKey.req = some (.ok doubleKey) := by
  have hread : ((hostPublicKey libraryKey.env 1 (libraryKey.reqLen - 1)).run
      libraryKey.req).any (fun r => match r with
        | .ok pub => decide (pub = doubleKey)
        | .error _ => false) = true := by decide +kernel
  obtain ⟨r, hr, hpub⟩ := (Option.any_eq_true _ _).1 hread
  cases r with
  | error status => cases hpub
  | ok pub => rw [hr, of_decide_eq_true hpub]

theorem libraryAgree_outcome (d : Device) : ∃ o, d.outcome libraryAgree = some o ∧
    o.resp = keyAgreementResponse doubleKey ∧ o.pin.ecdhKeyValid = true :=
  ⟨_, rfl, rfl, rfl⟩

def infoCommand : Command := hostCommand [0x04]

theorem infoCommand_step (d : Device) : ∃ d', d.step infoCommand = some d' ∧ d'.pin = d.pin :=
  ⟨_, rfl, rfl⟩

theorem infoCommand_sub : infoCommand.pinSubCmd = none := rfl

theorem libraryKey_parsed : libraryKey.pinSubCmd = some 0x03 ∧
    (getCborMapInt 1 (libraryKey.reqLen - 1) 0x01).run libraryKey.req = some (some 1) ∧
    (getCborMapString 1 (libraryKey.reqLen - 1) 0x04).run libraryKey.req = some none ∧
    (getCborMapString 1 (libraryKey.reqLen - 1) 0x05).run libraryKey.req = some none := by
  decide +kernel

theorem libraryKey_protocolFor (d : Device) : libraryKey.protocolFor d = 1 := by
  rw [Command.protocolFor, libraryKey_parsed.2.1]
  rfl

theorem libraryKey_outcome {d : Device} (hvalid : d.pin.ecdhKeyValid = true) :
    ∃ o, d.outcome libraryKey = some o := by
  have hagreed : KeyAgreement d libraryKey 1
      (libraryEnv.sharedSecret doubleKey d.pin.ecdhPrivateKey) :=
    ⟨hvalid, .inl rfl, ⟨some 1, libraryKey_parsed.2.1, rfl⟩, doubleKey, libraryKey_reads, rfl⟩
  exact (bareSetPin_runs libraryKey_parsed.1 hagreed libraryKey_parsed.2.2.1
    libraryKey_parsed.2.2.2).2

theorem sessionKeys_agree_double : ∃ (o o' : Outcome) (d : Device) (secret : Bytes 32),
    (Device.powerUp fun _ => 0xFF).outcome libraryAgree = some o ∧
      Run Device.event ((Device.powerUp fun _ => 0xFF).after o)
        [.command infoCommand] d ∧
      d.outcome libraryKey = some o' ∧ HostSecret doubleKey.val 2 secret ∧
      o'.pin.SharedWith (hostSession (libraryKey.protocolFor d) secret) := by
  obtain ⟨secret, hsecret⟩ := hostSecret_double
  obtain ⟨o, ho, hresp, hvalid⟩ := libraryAgree_outcome (Device.powerUp fun _ => 0xFF)
  obtain ⟨d, hstep, hpin⟩ := infoCommand_step ((Device.powerUp fun _ => 0xFF).after o)
  have hrun : Run Device.event ((Device.powerUp fun _ => 0xFF).after o)
      [.command infoCommand] d := .single hstep
  have hleaves : Run.Guarded Device.event LeavesKeyPair ((Device.powerUp fun _ => 0xFF).after o)
      [.command infoCommand] := by
    apply Run.Guarded.of_forall
    intro e he t
    rw [List.mem_singleton.1 he]
    exact fun hsub => Option.some_ne_none _ (hsub.symm.trans infoCommand_sub)
  have hok : o.status = some 0x00 := by
    rw [Outcome.status, hresp, keyAgreementResponse_eq]
    rfl
  have hread : responseKey o.resp = some doubleKey.val := by
    rw [hresp, responseKey_keyAgreement]
  have hvalid' : d.pin.ecdhKeyValid = true := by
    rw [hpin]
    exact hvalid
  obtain ⟨o', ho'⟩ := libraryKey_outcome hvalid'
  exact ⟨o, o', d, secret, ho, hrun, ho', hsecret, sessionKeys_agree
    (c := libraryKey) ho rfl hok callsUEcc_libraryEnv hread hsecret hrun hleaves
    libraryKey_parsed.1 (.inl rfl) (.inl (libraryKey_protocolFor d)) callsUEcc_libraryEnv
    libraryKey_reads double_bytes doubleKey_x ho'⟩

end UnsoloKey
