import UnsoloKey.PinLifecycle
import UnsoloKey.TokenProtocol
import UnsoloKey.ScanTermination
import Mathlib.Tactic

/-!
# An issued token and its three users

The host decrypts the byte string of a token response.  What it gets is the key under
which MakeCredential, GetAssertion and CredentialManagement check a parameter, with the
length which the protocol prescribes.
-/

namespace UnsoloKey

open Rd Cbor

/-- The parameter which the host sends for the message. -/
def tokenParam (p : ℕ) (token msg : List UInt8) : List UInt8 :=
  (hmacSha256 token msg).val.take (prescribedLen p)

/-! ## The response -/

theorem tokenResponse_eq {enc : List UInt8} (hlen : enc.length ≤ 48) :
    tokenResponse enc = 0x00 :: (Item.map [(.uint 2, .bytes enc)]).encode := by
  have h := (CborEncoder.holds_init respCapacity).map 1
  have h := (h.uint 2).bytes enc
  have hfits : (Item.map [(.uint 2, .bytes enc)]).encode.length ≤ respCapacity := by
    have hcapacity : respCapacity = 1024 := rfl
    simp only [Item.encode, encodeEntries, List.length_append, List.length_nil, hcapacity,
      Cbor.head]
    split_ifs <;> simp <;> omega
  unfold tokenResponse okResponse
  rw [h.buffer_eq (by simp [Item.encode, encodeEntries]) hfits]

/-- `aes_encrypt` reads no more than its blocks. -/
theorem aesEncrypt_take (key : Bytes 32) (iv : Aes.Block) (n : ℕ) (data : List UInt8) :
    aesEncrypt key iv n (data.take (16 * n)) = aesEncrypt key iv n data := by
  apply Subtype.ext
  change Aes.cbcEncrypt _ n iv (data.take (16 * n)) = Aes.cbcEncrypt _ n iv data
  generalize Aes.keyExpansion key = roundKey
  induction n generalizing iv data with
  | zero => rfl
  | succ n ih =>
      have hhead : (data.take (16 * (n + 1))).take 16 = data.take 16 := by
        rw [List.take_take, Nat.min_eq_left (by omega)]
      have htail : (data.take (16 * (n + 1))).drop 16 = (data.drop 16).take (16 * n) := by
        rw [List.drop_take]
        congr 1
      rw [Aes.cbcEncrypt, Aes.cbcEncrypt, hhead, htail, ih]

section

variable {s : PinSession} {h : HostSession} {env : Env} {subCmd : ℕ}

/-- The token, as long as it is used. -/
def PinSession.issued (s : PinSession) : List UInt8 := s.pinToken.val.take s.pinTokenLen

/-- The token has one block for getPinToken under protocol 1, and two otherwise. -/
def PinSession.tokenBlocks (s : PinSession) (subCmd : ℕ) : ℕ :=
  if subCmd = 0x05 ∧ s.activePinProtocol ≠ 2 then 1 else 2

theorem issueToken_len (s : PinSession) (env : Env) (subCmd : ℕ) :
    (s.issueToken env subCmd).pinTokenLen = 16 * s.tokenBlocks subCmd := by
  unfold PinSession.issueToken PinSession.tokenBlocks
  dsimp only
  split_ifs <;> rfl

theorem tokenBlocks_le (s : PinSession) (subCmd : ℕ) :
    0 < s.tokenBlocks subCmd ∧ s.tokenBlocks subCmd ≤ 2 := by
  unfold PinSession.tokenBlocks
  split_ifs <;> decide

theorem issued_length (s : PinSession) (env : Env) (subCmd : ℕ) :
    (s.issueToken env subCmd).issued.length = 16 * s.tokenBlocks subCmd := by
  have hle := (tokenBlocks_le s subCmd).2
  rw [PinSession.issued, issueToken_len, List.length_take, Bytes.length_val, Nat.min_eq_left]
  omega

theorem tokenEnc_eq (hshared : s.SharedWith h) :
    (s.issueToken env subCmd).tokenEnc env subCmd =
      h.encrypt (env.rng 32 16) (s.issueToken env subCmd).issued := by
  have hblocks : (s.issueToken env subCmd).issued.length / 16 = s.tokenBlocks subCmd := by
    rw [issued_length, Nat.mul_div_cancel_left _ (by decide)]
  have htake : ∀ (key : Bytes 32) iv, aesEncrypt key iv (s.tokenBlocks subCmd)
      (s.issueToken env subCmd).issued =
      aesEncrypt key iv (s.tokenBlocks subCmd) (env.rng 0 32).val := by
    intro key iv
    rw [PinSession.issued, issueToken_len]
    exact aesEncrypt_take key iv _ _
  unfold HostSession.encrypt
  rw [hblocks, htake, htake, ← hshared.aes, ← hshared.protocol]
  change (if s.activePinProtocol = 2 then _ else _) = _
  unfold PinSession.tokenBlocks
  by_cases htwo : s.activePinProtocol = 2
  · rw [if_pos htwo, if_pos htwo, if_neg (fun hone => hone.2 htwo)]
    rfl
  · rw [if_neg htwo, if_neg htwo]
    by_cases hfirst : subCmd = 0x05
    · rw [if_pos hfirst, if_pos ⟨hfirst, htwo⟩]
      rfl
    · rw [if_neg hfirst, if_neg (fun hone => hfirst hone.1)]
      rfl

end

/-! ## The device after a token request -/

/-- The session which a token request leaves: the token belongs to the protocol. -/
structure HoldsToken (d : Device) (p : ℕ) (token : List UInt8) : Prop where
  valid : d.pin.hasPinToken = true
  protocol : d.pin.activePinProtocol = p
  known : p = 1 ∨ p = 2
  length : 0 < d.pin.pinTokenLen
  token : d.pin.issued = token
  pinSet : d.storedPin.isSome

section

variable {d : Device} {c : Command} {p : ℕ} {z : Bytes 32} {o : Outcome}

theorem tokenRequest_issues (hagreed : KeyAgreement d c p z)
    (hsub : c.pinSubCmd = some 0x05 ∨ c.pinSubCmd = some 0x09) (ho : d.outcome c = some o)
    (hok : o.status = some 0x00) : ∃ enc,
      o.resp = 0x00 :: (Item.map [(.uint 2, .bytes enc)]).encode ∧
      HoldsToken (d.after o) p ((hostSession p z).decrypt enc) := by
  obtain ⟨subCmd, hsub, hkind⟩ : ∃ subCmd, c.pinSubCmd = some subCmd ∧
      (subCmd = 0x05 ∨ subCmd = 0x09) := by
    rcases hsub with hsub | hsub
    · exact ⟨_, hsub, .inl rfl⟩
    · exact ⟨_, hsub, .inr rfl⟩
  have hshared := agreed_sharedWith hagreed
  rw [outcome_agreed hagreed hsub (by omega), if_neg (by omega), if_neg (by omega), getPinToken,
    run_bind_eq_some] at ho
  obtain ⟨claimed, hclaimed, ho⟩ := ho
  have hnonzero := tokenGuess_failsNonzero _ hclaimed
  cases claimed with
  | error status =>
      obtain rfl := Option.some.inj ho
      exact absurd (Option.some.inj hok) (hnonzero status rfl)
  | ok guess =>
      obtain rfl := Option.some.inj ho
      have hblocks := (tokenBlocks_le (d.agreed c p z).pin subCmd).2
      have hlen := issued_length (d.agreed c p z).pin c.env subCmd
      have hcapacity : ((hostSession p z).encrypt (c.env.rng 32 16)
          ((d.agreed c p z).pin.issueToken c.env subCmd).issued).length ≤ 48 := by
        rw [HostSession.encrypt_length hlen]
        split_ifs <;> omega
      cases hload : pinLoad d.flash.mem with
      | none =>
          unfold pinTokenOutcome at hok
          rw [agreed_mem, hload] at hok
          exact absurd (Option.some.inj hok) (by decide)
      | some q =>
          unfold pinTokenOutcome at hok ⊢
          rw [agreed_mem, hload] at hok ⊢
          dsimp only at hok ⊢
          split_ifs at hok ⊢ with hzero hwrong
          · exact absurd (Option.some.inj hok) (by decide)
          · exact absurd (Option.some.inj hok) (by decide)
          · refine ⟨(hostSession p z).encrypt (c.env.rng 32 16)
              ((d.agreed c p z).pin.issueToken c.env subCmd).issued, ?_,
              ⟨rfl, ?_, hagreed.known, ?_, ?_, ?_⟩⟩
            · change tokenResponse _ = _
              rw [tokenEnc_eq hshared]
              exact tokenResponse_eq hcapacity
            · exact agree_protocol _ _
            · change 0 < ((d.agreed c p z).pin.issueToken c.env subCmd).pinTokenLen
              rw [issueToken_len]
              exact Nat.mul_pos (by decide) (tokenBlocks_le _ _).1
            · rw [HostSession.decrypt_encrypt hlen]
              rfl
            · rw [after_storedPin]
              change (UnsoloKey.storedPin (d.flash.mem.after
                (pinResetRetriesOps (d.agreed c p z).flash.mem))).isSome
              rw [agreed_mem, storedPin_pinResetRetries hload]
              rfl

end

/-! ## The three users -/

section

variable {d : Device} {c : Command} {p q n len : ℕ} {token cdh param : List UInt8} {m : Mem}

theorem HoldsToken.tokenKey (h : HoldsToken d p token) : d.pin.tokenKey = token := by
  rw [PinSession.tokenKey, if_pos h.length]
  exact h.token

theorem HoldsToken.cmKey (h : HoldsToken d p token) : d.pin.cmKey = token := by
  rw [PinSession.cmKey, if_pos h.length]
  exact h.token

theorem tokenParam_length (p : ℕ) (token msg : List UInt8) :
    (tokenParam p token msg).length = prescribedLen p := by
  unfold tokenParam prescribedLen
  rw [List.length_take, Bytes.length_val]
  split_ifs <;> rfl

/-- The check compares with the parameter of the host, and does nothing else. -/
theorem pinAuthValid_holdsToken (h : HoldsToken d p token) (hlong : 32 ≤ len)
    (hcdh : m.slice q 32 = cdh) (hparam : m.slice n param.length = param) :
    (pinAuthValid d.pin (some (q, len)) n param.length).run m =
      some (decide (param = tokenParam p token cdh)) := by
  have hready : ¬ ¬ (d.pin.hasPinToken = true ∧ len ≥ 32) := not_not.2 ⟨h.valid, hlong⟩
  unfold pinAuthValid
  rw [run_ite, if_neg hready, run_bind, run_bytes, Option.bind_some, hcdh, h.tokenKey, h.protocol]
  by_cases hlength : param.length = prescribedLen p
  · rcases h.known with rfl | rfl
    · have hsixteen : param.length = 16 := hlength
      have hread : m.slice n 16 = param := hsixteen ▸ hparam
      simp [hsixteen, hread, tokenParam, prescribedLen, eq_comm]
    · have hall : param.length = 32 := hlength
      have hread : m.slice n 32 = param := hall ▸ hparam
      simp [hall, hread, tokenParam, prescribedLen, eq_comm, List.take_of_length_le]
  · have hne : param ≠ tokenParam p token cdh := by
      intro heq
      exact hlength (heq ▸ tokenParam_length p token cdh)
    rcases h.known with rfl | rfl
    · have hsixteen : param.length ≠ 16 := hlength
      simp [hsixteen, hne]
    · have hall : param.length ≠ 32 := hlength
      simp [hall, hne]

theorem waitAndRegister_uv {env : Env} {reqLen : ℕ} {found : Option (ℕ × ℕ)} :
    (waitAndRegister env d reqLen found (some token)).Returns m fun o =>
      o.verified = some token ∧ (o.status = some 0x00 → SaysUv o.resp) := by
  unfold waitAndRegister
  refine Returns.ite (fun hrefused => Returns.pure ⟨rfl, ?_⟩) fun _ => ?_
  · intro hok
    exact absurd (Option.some.inj hok) hrefused
  unfold registerCredential
  refine Returns.bind fun _ => Returns.bind fun _ => Returns.bind fun rpIdHash =>
    Returns.bind fun _ => Returns.bind fun _ => Returns.ite (fun _ => Returns.pure ⟨rfl, ?_⟩)
    fun _ => Returns.bind fun _ => Returns.bind fun _ => Returns.bind fun saved =>
    Returns.ite (fun _ => Returns.pure ⟨rfl, ?_⟩) fun _ => Returns.bind fun cdh =>
    Returns.pure ⟨rfl, fun _ => ?_⟩
  · intro hok
    exact absurd (Option.some.inj hok) (by decide)
  · intro hok
    exact absurd (Option.some.inj hok) (by decide)
  · exact saysUv_of_attestation

theorem assertCredential_uv {env : Env} {reqLen total : ℕ} {rpIdHash : Bytes 32}
    {found : Option (ℕ × ℕ)} {i : Slot} (htotal : total < 2 ^ 32) :
    (assertCredential env d reqLen rpIdHash found i total (some token) true).Returns m fun o =>
      o.verified = some token ∧ (o.status = some 0x00 → SaysUv o.resp) := by
  unfold assertCredential
  refine Returns.bind fun options => Returns.bind_of assertionOptions_nonzero
    fun decision hdecision => ?_
  cases decision with
  | error status =>
      refine Returns.pure ⟨rfl, fun hok => ?_⟩
      exact absurd (Option.some.inj hok) (hdecision status rfl)
  | ok upRequired =>
      refine Returns.ite (fun hrefused => Returns.pure ⟨rfl, fun hok => ?_⟩) fun _ => ?_
      · exact absurd (Option.some.inj hok) hrefused.2
      · exact Returns.bind fun cdhBuf => Returns.pure ⟨rfl, fun _ => saysUv_of_assertion htotal⟩

end

/-- A MakeCredential request with this clientDataHash and this pinUvAuthParam. -/
structure RegistersUnder (c : Command) (cdh param : List UInt8) : Prop where
  len : c.reqLen ≠ 0
  cmd : c.req 0 = 0x01
  scans : ScanReturns c.req 1 (c.reqLen - 1)
  hasCdh : c.HasString 0x01 cdh
  cdhLen : cdh.length = 32
  hasParam : c.HasString 0x08 param
  nonempty : param ≠ []

/-- A GetAssertion request which selects a credential. -/
structure AssertsUnder (d : Device) (c : Command) (cdh param : List UInt8) : Prop where
  len : c.reqLen ≠ 0
  cmd : c.req 0 = 0x02
  hasCdh : c.HasString 0x02 cdh
  cdhLen : cdh.length = 32
  hasParam : c.HasString 0x06 param
  finds : ∃ ctap plan, Selected (d.onChannel c.cid) c.reqLen c.req ctap plan

/-- The parameters of the subcommand, if it has any: the item of key 2, as it stands in
the request. -/
def Command.CmParams (c : Command) (subCmd : ℕ) (params : List UInt8) : Prop :=
  if subCmd = 0x04 ∨ subCmd = 0x05 ∨ subCmd = 0x06 then
    (params = [] ∧ (getCborMapItem 1 (c.reqLen - 1) 0x02).run c.req = some .null) ∨
    params.length ≤ 1024 ∧ ∃ q,
      (getCborMapItem 1 (c.reqLen - 1) 0x02).run c.req = some (.item q params.length) ∧
      c.req.slice q params.length = params
  else params = []

/-- A CredentialManagement request which names the protocol, with the HMAC of the
subcommand and its parameters. -/
structure ManagesUnder (c : Command) (p subCmd : ℕ) (token : List UInt8) : Prop where
  len : c.reqLen ≠ 0
  cmd : c.req 0 = 0x0A
  protocol : (getCborMapInt 1 (c.reqLen - 1) 0x03).run c.req = some (some p)
  sub : (cmSubCmd c.reqLen).run c.req = some subCmd
  message : ∃ params, c.CmParams subCmd params ∧
    c.HasString 0x04 (tokenParam p token (UInt8.ofNat subCmd :: params))

section

variable {d : Device} {c : Command} {p subCmd : ℕ} {token cdh param : List UInt8}

theorem HoldsToken.onChannel (h : HoldsToken d p token) (cid : ℕ) :
    HoldsToken (d.onChannel cid) p token :=
  ⟨h.valid, h.protocol, h.known, h.length, h.token, h.pinSet⟩

theorem makeCredential_token (h : HoldsToken d p token) (hc : RegistersUnder c cdh param) :
    ∃ q, d.outcome c = if param = tokenParam p token cdh then
        (waitAndRegister c.env (d.onChannel c.cid) c.reqLen (some (q, 32)) (some token)).run c.req
      else some ((d.onChannel c.cid).reply [0x33]) := by
  obtain ⟨q, hq, hcdh⟩ := hc.hasCdh
  obtain ⟨n, hn, hparam⟩ := hc.hasParam
  obtain ⟨options, hoptions⟩ := hc.scans.value 0x07
  rw [hc.cdhLen] at hq hcdh
  have hvalid := pinAuthValid_holdsToken (h.onChannel c.cid) (le_refl 32) hcdh hparam
  have hlong : ¬ param.length = 0 := fun hzero =>
    hc.nonempty (List.eq_nil_of_length_eq_zero hzero)
  refine ⟨q, ?_⟩
  rw [outcome_eq hc.len, hc.cmd]
  change (makeCredential c.env (d.onChannel c.cid) c.reqLen).run c.req = _
  unfold makeCredential
  simp only [run_bind, hq, hn, Option.bind_some, if_neg hlong, hoptions, hvalid, run_ite, run_pure,
    (h.onChannel c.cid).tokenKey, decide_eq_true_eq]
  split_ifs <;> rfl

theorem getAssertion_token (h : HoldsToken d p token) (hc : AssertsUnder d c cdh param) :
    ∃ (ctap : CtapSession) (plan : AssertionPlan),
      Selected (d.onChannel c.cid) c.reqLen c.req ctap plan ∧
      d.outcome c = if param = tokenParam p token cdh then
        (assertCredential c.env { d.onChannel c.cid with ctap := ctap } c.reqLen plan.rpIdHash
          plan.cdh plan.slot plan.total (some token) true).run c.req
      else some ({ d.onChannel c.cid with ctap := ctap }.reply [0x33]) := by
  obtain ⟨ctap, plan, hselected⟩ := hc.finds
  obtain ⟨q, hq, hcdh⟩ := hc.hasCdh
  obtain ⟨n, hn, hparam⟩ := hc.hasParam
  rw [hc.cdhLen] at hq hcdh
  obtain ⟨rpId, hrpId, hhash⟩ := hselected.rpId
  obtain ⟨allowList, hallow, hselect⟩ := hselected.selection
  have hfound : plan.cdh = some (q, 32) :=
    (Option.some.inj (hq.symm.trans hselected.cdh)).symm
  rw [hfound] at hselect
  have hvalid := pinAuthValid_holdsToken (h.onChannel c.cid) (le_refl 32) hcdh hparam
  refine ⟨ctap, plan, hselected, ?_⟩
  rw [outcome_eq hc.len, hc.cmd, hfound]
  change (getAssertion c.env (d.onChannel c.cid) c.reqLen).run c.req = _
  unfold getAssertion assertSelected
  simp only [run_bind, hrpId, hq, hallow, hhash, hselect, hn, hvalid, Option.bind_some, run_ite,
    run_pure, (h.onChannel c.cid).tokenKey, decide_eq_true_eq]
  split_ifs <;> rfl

theorem Command.CmParams.message {params : List UInt8} (h : c.CmParams subCmd params) :
    (cmMessage c.env c.reqLen subCmd).run c.req = some (UInt8.ofNat subCmd :: params) := by
  unfold Command.CmParams at h
  unfold cmMessage
  by_cases htaken : subCmd = 0x04 ∨ subCmd = 0x05 ∨ subCmd = 0x06
  · rw [if_pos htaken] at h ⊢
    rcases h with ⟨rfl, hnull⟩ | ⟨hshort, q, hitem, hslice⟩
    · simp [hnull, ItemResult.pointer]
    · simp only [run_bind, hitem, Option.bind_some, ItemResult.pointer, run_ite]
      split_ifs with hlen
      · rw [run_bytes, Option.bind_some, hslice]
        rfl
      · have hempty : params = [] := List.eq_nil_of_length_eq_zero (by omega)
        rw [hempty]
        rfl
  · rw [if_neg htaken] at h ⊢
    rw [h]
    rfl

theorem cmAuthorized_holdsToken (h : HoldsToken d p token) (hc : ManagesUnder c p subCmd token) :
    (cmAuthorized c.env d.pin c.reqLen subCmd).run c.req = some true := by
  obtain ⟨params, hparams, q, hq, hslice⟩ := hc.message
  have hmessage := hparams.message
  have hlength := tokenParam_length p token (UInt8.ofNat subCmd :: params)
  rw [hlength] at hq hslice
  have hready : ¬ (¬ d.pin.hasPinToken = true ∨ prescribedLen p ≠ if p = 2 then 32 else 16) := by
    rw [not_or, not_not, not_not]
    exact ⟨h.valid, rfl⟩
  unfold cmAuthorized
  simp only [run_bind, hc.protocol, hmessage, hq, Option.bind_some, Option.getD_some, run_ite,
    if_neg hready, h.cmKey, run_bytes, run_pure, Option.some.injEq, decide_eq_true_eq]
  exact hslice.symm

theorem credentialManagement_token (h : HoldsToken d p token)
    (hc : ManagesUnder c p subCmd token) :
    d.outcome c = ((cmDispatch c.env (d.onChannel c.cid) c.reqLen subCmd).run c.req).map
      fun o => { o with verified := some token } := by
  have hset : (pinLoad (d.onChannel c.cid).flash.mem).isSome :=
    storedPin_isSome_iff.1 (h.onChannel c.cid).pinSet
  have hauthorized := cmAuthorized_holdsToken (h.onChannel c.cid) hc
  have hsub := hc.sub
  unfold cmSubCmd at hsub
  rw [run_bind_eq_some] at hsub
  obtain ⟨sub, hread, hsub⟩ := hsub
  rw [run_pure, Option.some.injEq] at hsub
  rw [outcome_eq hc.len, hc.cmd]
  change (credentialManagement c.env (d.onChannel c.cid) c.reqLen).run c.req = _
  unfold credentialManagement
  rw [run_bind, hread, Option.bind_some, hsub, run_ite, if_pos hset, run_bind, hauthorized,
    Option.bind_some, run_ite, if_neg (by decide), run_bind, (h.onChannel c.cid).cmKey]
  cases (cmDispatch c.env (d.onChannel c.cid) c.reqLen subCmd).run c.req <;> rfl

end

/-! ## An issued token -/

/-- The three users of the token check what the host computes with it. -/
structure VerifiesEverywhere (d : Device) (p : ℕ) (token : List UInt8) : Prop where
  make : ∀ c cdh, RegistersUnder c cdh (tokenParam p token cdh) → ∃ q,
    d.outcome c = (waitAndRegister c.env (d.onChannel c.cid) c.reqLen (some (q, 32))
      (some token)).run c.req ∧
    ∀ o, d.outcome c = some o → o.verified = some token ∧
      (o.status = some 0x00 → SaysUv o.resp)
  makeRefused : ∀ c cdh param, RegistersUnder c cdh param → param ≠ tokenParam p token cdh →
    ∃ o, d.outcome c = some o ∧ o.resp = [0x33]
  get : ∀ c cdh, AssertsUnder d c cdh (tokenParam p token cdh) →
    ∃ (ctap : CtapSession) (plan : AssertionPlan),
      Selected (d.onChannel c.cid) c.reqLen c.req ctap plan ∧
      d.outcome c = (assertCredential c.env { d.onChannel c.cid with ctap := ctap } c.reqLen
        plan.rpIdHash plan.cdh plan.slot plan.total (some token) true).run c.req ∧
      ∀ o, d.outcome c = some o → o.verified = some token ∧
        (o.status = some 0x00 → SaysUv o.resp)
  getRefused : ∀ c cdh param, AssertsUnder d c cdh param → param ≠ tokenParam p token cdh →
    ∃ o, d.outcome c = some o ∧ o.resp = [0x33]
  manage : ∀ c subCmd, ManagesUnder c p subCmd token →
    d.outcome c = ((cmDispatch c.env (d.onChannel c.cid) c.reqLen subCmd).run c.req).map
      fun o => { o with verified := some token }

theorem HoldsToken.verifiesEverywhere {d : Device} {p : ℕ} {token : List UInt8}
    (h : HoldsToken d p token) : VerifiesEverywhere d p token where
  make := by
    intro c cdh hc
    obtain ⟨q, hout⟩ := makeCredential_token h hc
    rw [if_pos rfl] at hout
    exact ⟨q, hout, fun o ho => waitAndRegister_uv o (hout ▸ ho)⟩
  makeRefused := by
    intro c cdh param hc hne
    obtain ⟨q, hout⟩ := makeCredential_token h hc
    rw [if_neg hne] at hout
    exact ⟨_, hout, rfl⟩
  get := by
    intro c cdh hc
    obtain ⟨ctap, plan, hselected, hout⟩ := getAssertion_token h hc
    rw [if_pos rfl] at hout
    exact ⟨ctap, plan, hselected, hout,
      fun o ho => assertCredential_uv hselected.total_lt o (hout ▸ ho)⟩
  getRefused := by
    intro c cdh param hc hne
    obtain ⟨ctap, plan, -, hout⟩ := getAssertion_token h hc
    rw [if_neg hne] at hout
    exact ⟨_, hout, rfl⟩
  manage := fun c subCmd hc => credentialManagement_token h hc

/-- A token which the device issues, as the host decrypts it, is accepted everywhere. -/
theorem issuedToken_verifies {d : Device} {c : Command} {p : ℕ} {z : Bytes 32} {o : Outcome}
    (hagreed : KeyAgreement d c p z)
    (hsub : c.pinSubCmd = some 0x05 ∨ c.pinSubCmd = some 0x09) (ho : d.outcome c = some o)
    (hok : o.status = some 0x00) : ∃ enc,
      o.resp = 0x00 :: (Item.map [(.uint 2, .bytes enc)]).encode ∧
      VerifiesEverywhere (d.after o) p ((hostSession p z).decrypt enc) := by
  obtain ⟨enc, hresp, hholds⟩ := tokenRequest_issues hagreed hsub ho hok
  exact ⟨enc, hresp, hholds.verifiesEverywhere⟩

theorem tokenUnder2_accepted : ∃ (d : Device) (o : Outcome),
    KeyAgreement d tokenUnder2 2 hostX ∧ d.outcome tokenUnder2 = some o ∧
      o.status = some 0x00 := by
  obtain ⟨d, -, hpin, hvalid⟩ := agreeUnder2_step (Device.powerUp fun _ => 0xFF)
  have hunset : d.storedPin = none := by
    rw [hpin]
    decide +kernel
  obtain ⟨o, ho, -, hstored⟩ := setsPin_stores (by decide) (by decide) (by decide)
    (setsPin_hostPin hvalid hunset)
  obtain ⟨d', -, hpin', hvalid'⟩ := agreeUnder2_step (d.after o)
  obtain ⟨o', ho', hstatus⟩ := requestsToken_status (hpin'.trans hstored)
    (requestsToken_hostPin hvalid')
  exact ⟨d', o', ⟨hvalid', .inr rfl, ⟨some 2, by decide +kernel, rfl⟩, ⟨_, rfl, rfl⟩⟩, ho',
    hstatus.2 ⟨rfl, by decide⟩⟩

theorem issuedToken_verifies_under2 : ∃ (d : Device) (o : Outcome) (enc : List UInt8),
    d.outcome tokenUnder2 = some o ∧
      o.resp = 0x00 :: (Item.map [(.uint 2, .bytes enc)]).encode ∧
      VerifiesEverywhere (d.after o) 2 ((hostSession 2 hostX).decrypt enc) := by
  obtain ⟨d, o, hagreed, ho, hok⟩ := tokenUnder2_accepted
  obtain ⟨enc, hresp, hverifies⟩ :=
    issuedToken_verifies hagreed (.inl (by decide +kernel)) ho hok
  exact ⟨d, o, enc, ho, hresp, hverifies⟩

end UnsoloKey
