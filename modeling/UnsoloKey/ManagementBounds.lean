import UnsoloKey.RegistrationBounds
import Mathlib.Tactic

/-!
# How far CredentialManagement looks

The parameters of a subcommand are scanned as one item and read once for the HMAC.  Two
subcommands then look for a credential or a relying party inside them.
-/

namespace UnsoloKey

open Rd

/-- The parameters of the subcommand, as an item. -/
noncomputable def Mem.paramsAt (m : Mem) (env : Env) (n : ℕ) : Option (ℕ × ℕ) :=
  (m.itemAt 1 (n - 1) 0x02).pointer env

def AuthenticatesParams (subCmd : ℕ) : Prop := subCmd = 0x04 ∨ subCmd = 0x05 ∨ subCmd = 0x06

instance (subCmd : ℕ) : Decidable (AuthenticatesParams subCmd) :=
  inferInstanceAs (Decidable (_ ∨ _))

/-- The message under the pinUvAuthParam. -/
noncomputable def Mem.cmMessageAt (m : Mem) (env : Env) (n subCmd : ℕ) : List UInt8 :=
  UInt8.ofNat subCmd ::
    if AuthenticatesParams subCmd then
      (m.paramsAt env n).elim [] fun s => if s.2 ≤ 1024 then m.slice s.1 s.2 else []
    else []

def Mem.LooksMessage (m : Mem) (env : Env) (n subCmd : ℕ) : Prop :=
  AuthenticatesParams subCmd → m.LooksItem 1 (n - 1) 0x02 n ∧
    ∀ s ∈ m.paramsAt env n, s.2 ≤ 1024 → PayloadBelow n s.1 s.2

/-- The length which the pinUvAuthParam has to have. -/
noncomputable def Mem.cmParamLen (m : Mem) (s : PinSession) (n : ℕ) : ℕ :=
  prescribedLen ((m.intAt 1 (n - 1) 0x03).getD s.activePinProtocol)

def Mem.LooksCmParam (m : Mem) (env : Env) (s : PinSession) (n subCmd : ℕ) : Prop :=
  m.LooksInt 1 (n - 1) 0x03 n ∧ m.LooksMessage env n subCmd ∧
    m.LooksValue 1 (n - 1) 0x04 n ∧
    ∀ p ∈ m.stringAt 1 (n - 1) 0x04, s.hasPinToken = true → p.2 = m.cmParamLen s n →
      PayloadBelow n p.1 p.2

def Mem.CmAccepted (m : Mem) (env : Env) (s : PinSession) (n subCmd : ℕ) : Prop :=
  ∃ p ∈ m.stringAt 1 (n - 1) 0x04, s.hasPinToken = true ∧ p.2 = m.cmParamLen s n ∧
    m.slice p.1 p.2 = (hmacSha256 s.cmKey (m.cmMessageAt env n subCmd)).val.take p.2

/-- The value of key 1 of the map `s`, and 32 bytes of it. -/
def Mem.LooksHash (m : Mem) (n : ℕ) (s : ℕ × ℕ) : Prop :=
  m.LooksValue s.1 s.2 0x01 n ∧
    ∀ q ∈ m.stringAt s.1 s.2 0x01, 32 ≤ q.2 → PayloadBelow n q.1 32

/-- The string which deleteCredential takes for the credential id. -/
noncomputable def Mem.targetAt (m : Mem) (env : Env) (n : ℕ) : Option (ℕ × ℕ) :=
  (m.paramsAt env n).bind fun s => ((m.itemAt s.1 s.2 0x02).pointer env).bind fun q =>
    m.stringAt q.1 q.2 0x01

def Mem.LooksDispatch (m : Mem) (env : Env) (n subCmd : ℕ) : Prop :=
  m.LooksValue 1 (n - 1) 0x02 n ∧
    (subCmd = 0x04 → m.LooksItem 1 (n - 1) 0x02 n ∧ ∀ s ∈ m.paramsAt env n, m.LooksHash n s) ∧
    (subCmd = 0x06 → m.LooksItem 1 (n - 1) 0x02 n ∧ ∀ s ∈ m.paramsAt env n,
      m.LooksItem s.1 s.2 0x02 n ∧
        ∀ q ∈ (m.itemAt s.1 s.2 0x02).pointer env, m.LooksHash n q)

noncomputable def Mem.subCmdAt (m : Mem) (n : ℕ) : ℕ := u8 ((m.intAt 1 (n - 1) 0x01).getD 0)

def Mem.LooksManagement (m : Mem) (env : Env) (d : Device) (n : ℕ) : Prop :=
  m.LooksInt 1 (n - 1) 0x01 n ∧
    if (pinLoad d.flash.mem).isSome then
      m.LooksCmParam env d.pin n (m.subCmdAt n) ∧
        (m.CmAccepted env d.pin n (m.subCmdAt n) → m.LooksDispatch env n (m.subCmdAt n))
    else m.LooksDispatch env n (m.subCmdAt n)

section

variable {m : Mem} {n subCmd : ℕ} {env : Env} {d : Device} {s : PinSession}

/-! ## The pinUvAuthParam -/

theorem cmMessage_confined :
    (cmMessage env n subCmd).Confined m n (m.LooksMessage env n subCmd) := by
  unfold cmMessage Mem.LooksMessage
  refine Confined.ite (fun hparams => ?_) fun hnone => ?_
  · refine Confined.asked ?_ hparams
    refine getCborMapItem_confined.bind getCborMapItem_finds fun _ => ?_
    unfold Mem.paramsAt
    cases (m.itemAt 1 (n - 1) 0x02).pointer env with
    | none => exact confined_pure_of (by simp)
    | some s =>
        simp only [Option.mem_some_iff, forall_eq']
        refine Confined.ite (fun hread => ?_) fun hnot => ?_
        · exact payload_confined.map.asked hread.2
        · refine confined_pure_of fun hle => .inl ?_
          omega
  · exact confined_unasked hnone

theorem cmMessage_finds :
    (cmMessage env n subCmd).Returns m fun msg => msg = m.cmMessageAt env n subCmd := by
  unfold cmMessage Mem.cmMessageAt
  refine Returns.ite (fun hparams => ?_) fun hnone => Returns.pure ?_
  · refine Returns.bind_of getCborMapItem_finds fun item hitem => ?_
    have hauth : AuthenticatesParams subCmd := hparams
    rw [if_pos hauth, Mem.paramsAt, ← hitem]
    cases item.pointer env with
    | none => exact Returns.pure rfl
    | some s =>
        refine Returns.ite (fun hread => Returns.bind_run fun params hrun => Returns.pure ?_)
          fun hnot => Returns.pure ?_
        · obtain rfl := Option.some.inj ((run_bytes s.1 s.2 m).symm.trans hrun)
          rw [Option.elim_some, if_pos hread.2]
          rfl
        · rw [Option.elim_some]
          split
          · have hzero : s.2 = 0 := by omega
            rw [hzero]
            rfl
          · rfl
  · have hauth : ¬ AuthenticatesParams subCmd := hnone
    rw [if_neg hauth]

theorem cmAuthorized_confined :
    (cmAuthorized env s n subCmd).Confined m n (m.LooksCmParam env s n subCmd) := by
  unfold cmAuthorized Mem.LooksCmParam
  refine getCborMapInt_confined.bind getCborMapInt_finds fun _ => ?_
  refine cmMessage_confined.bind_run fun _ _ _ => ?_
  refine getCborMapString_confined.bind getCborMapString_finds fun _ => ?_
  cases m.stringAt 1 (n - 1) 0x04 with
  | none => exact confined_pure_of (by simp)
  | some p =>
      simp only [Option.mem_some_iff, forall_eq']
      refine Confined.ite (fun hrefused => ?_) fun hready => ?_
      · refine confined_pure_of fun htoken hlen => ?_
        exact hrefused.elim (fun h => absurd htoken h) fun h => absurd hlen h
      · rw [not_or, not_not, not_not] at hready
        refine Confined.congr ?_ (imp_iff_right hready.1).symm
        refine Confined.congr ?_ (imp_iff_right hready.2).symm
        rw [hready.2]
        exact payload_confined.map

theorem cmAuthorized_finds : (cmAuthorized env s n subCmd).Returns m fun ok =>
    ok = true ↔ m.CmAccepted env s n subCmd := by
  unfold cmAuthorized Mem.CmAccepted Mem.cmParamLen
  refine Returns.bind_of getCborMapInt_finds fun proto hproto =>
    Returns.bind_of cmMessage_finds fun msg hmsg =>
    Returns.bind_of getCborMapString_finds fun pinAuth hpinAuth => ?_
  rw [← hproto, ← hmsg, ← hpinAuth]
  cases pinAuth with
  | none => exact Returns.pure (by simp)
  | some p =>
      simp only [Option.mem_some_iff, exists_eq_left']
      refine Returns.ite (fun hrefused => Returns.pure ?_) fun hready =>
        Returns.bind_run fun param hparam => Returns.pure ?_
      · refine iff_of_false Bool.false_ne_true fun h => ?_
        exact hrefused.elim (fun hno => absurd h.1 hno) fun hno => absurd h.2.1 hno
      · rw [not_or, not_not, not_not] at hready
        obtain rfl := Option.some.inj ((run_bytes _ _ m).symm.trans hparam)
        rw [and_iff_right hready.1, and_iff_right (show p.2 = prescribedLen _ from hready.2),
          decide_eq_true_iff, ← hready.2]
        exact eq_comm

/-! ## The subcommands -/

theorem enumRpHashParam_confined : (enumRpHashParam env n).Confined m n
    (m.LooksItem 1 (n - 1) 0x02 n ∧ ∀ s ∈ m.paramsAt env n, m.LooksHash n s) := by
  unfold enumRpHashParam Mem.paramsAt
  refine getCborMapItem_confined.bind getCborMapItem_finds fun _ => ?_
  cases (m.itemAt 1 (n - 1) 0x02).pointer env with
  | none => exact confined_pure_of (by simp)
  | some s =>
      simp only [Option.mem_some_iff, forall_eq']
      refine getCborMapString_confined.bind getCborMapString_finds fun _ => ?_
      cases m.stringAt s.1 s.2 0x01 with
      | none => exact confined_pure_of (by simp)
      | some q =>
          simp only [Option.mem_some_iff, forall_eq']
          refine Confined.ite (fun hlong => ?_) fun hshort => ?_
          · exact payload_confined.map.asked hlong
          · exact confined_unasked hshort

theorem deleteTarget_confined : (deleteTarget env n).Confined m n
    (m.LooksItem 1 (n - 1) 0x02 n ∧ ∀ s ∈ m.paramsAt env n, m.LooksItem s.1 s.2 0x02 n ∧
      ∀ q ∈ (m.itemAt s.1 s.2 0x02).pointer env, m.LooksValue q.1 q.2 0x01 n) := by
  unfold deleteTarget Mem.paramsAt
  refine getCborMapItem_confined.bind getCborMapItem_finds fun _ => ?_
  cases (m.itemAt 1 (n - 1) 0x02).pointer env with
  | none => exact confined_pure_of (by simp)
  | some s =>
      simp only [Option.mem_some_iff, forall_eq']
      refine getCborMapItem_confined.bind getCborMapItem_finds fun _ => ?_
      cases (m.itemAt s.1 s.2 0x02).pointer env with
      | none => exact confined_pure_of (by simp)
      | some q => exact getCborMapString_confined.congr (by simp)

theorem deleteTarget_finds :
    (deleteTarget env n).Returns m fun target => target = m.targetAt env n := by
  unfold deleteTarget Mem.targetAt Mem.paramsAt
  refine Returns.bind_of getCborMapItem_finds fun item hitem => ?_
  rw [← hitem]
  cases item.pointer env with
  | none => exact Returns.pure rfl
  | some s =>
      refine Returns.bind_of getCborMapItem_finds fun inner hinner => ?_
      rw [Option.bind_some, ← hinner]
      cases inner.pointer env with
      | none => exact Returns.pure rfl
      | some q => exact getCborMapString_finds

theorem deleteCredential_confined : (deleteCredential env d n).Confined m n
    (m.LooksItem 1 (n - 1) 0x02 n ∧ ∀ s ∈ m.paramsAt env n, m.LooksItem s.1 s.2 0x02 n ∧
      ∀ q ∈ (m.itemAt s.1 s.2 0x02).pointer env, m.LooksHash n q) := by
  have hpayload : (deleteCredential env d n).Confined m n
      ((m.LooksItem 1 (n - 1) 0x02 n ∧ ∀ s ∈ m.paramsAt env n, m.LooksItem s.1 s.2 0x02 n ∧
        ∀ q ∈ (m.itemAt s.1 s.2 0x02).pointer env, m.LooksValue q.1 q.2 0x01 n) ∧
        ∀ t ∈ m.targetAt env n, 32 ≤ t.2 → PayloadBelow n t.1 32) := by
    unfold deleteCredential
    refine deleteTarget_confined.bind deleteTarget_finds fun _ => ?_
    cases m.targetAt env n with
    | none => exact confined_pure_of (by simp)
    | some t =>
        simp only [Option.mem_some_iff, forall_eq']
        refine Confined.ite (fun hshort => ?_) fun hlong => ?_
        · exact confined_unasked (by omega)
        · exact payload_confined.map.asked (by omega)
  refine hpayload.congr ?_
  unfold Mem.LooksHash Mem.targetAt
  cases m.paramsAt env n with
  | none => simp
  | some s =>
      simp only [Option.mem_some_iff, forall_eq', Option.bind_some]
      cases (m.itemAt s.1 s.2 0x02).pointer env with
      | none => simp
      | some q => simp [and_assoc]

theorem cmDispatch_confined :
    (cmDispatch env d n subCmd).Confined m n (m.LooksDispatch env n subCmd) := by
  unfold cmDispatch Mem.LooksDispatch
  refine getCborMapValue_confined.bind_run fun _ _ _ => ?_
  refine Confined.ite (fun h => ?_) fun _ => Confined.ite (fun h => ?_) fun _ =>
    Confined.ite (fun h => ?_) fun hother => Confined.ite (fun h => ?_) fun hunknown => ?_
  · exact confined_pure_of (by simp [h])
  · exact confined_pure_of (by rcases h with rfl | rfl <;> simp)
  · unfold enumerateCredentials
    by_cases hbegin : subCmd = 0x04
    · rw [if_pos hbegin]
      exact enumRpHashParam_confined.map.congr (by simp [hbegin])
    · rw [if_neg hbegin]
      exact confined_pure_of (by simp [h.resolve_left hbegin])
  · exact deleteCredential_confined.congr (by simp [h])
  · rw [not_or] at hother
    exact confined_pure_of (by simp [hother.1, hunknown])

theorem credentialManagement_confined :
    (credentialManagement env d n).Confined m n (m.LooksManagement env d n) := by
  unfold credentialManagement Mem.LooksManagement
  refine getCborMapInt_confined.bind getCborMapInt_finds fun _ => ?_
  change Confined m n _ (if (pinLoad d.flash.mem).isSome then _ else _)
  by_cases hset : (pinLoad d.flash.mem).isSome = true
  · rw [if_pos hset, if_pos hset]
    refine cmAuthorized_confined.bind_test cmAuthorized_finds (fun _ haccepted => ?_)
      fun _ hrefused => ?_
    · exact cmDispatch_confined.map.asked haccepted
    · exact confined_unasked hrefused
  · rw [if_neg hset, if_neg hset]
    exact cmDispatch_confined

end

end UnsoloKey
