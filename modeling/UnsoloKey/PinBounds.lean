import UnsoloKey.RegistrationBounds
import Mathlib.Tactic

/-!
# How far ClientPIN looks

The subcommands which need the session keys look up the host's public key and then the
parameters of their own.  These are read only when their lengths are the expected ones,
and then as a whole, or up to a fixed length.
-/

namespace UnsoloKey

open Rd

/-- The host's public key in the request. -/
def Mem.HostKey (m : Mem) (env : Env) (n : ℕ) (x y : MapValue) : Prop :=
  ∃ s ∈ (m.itemAt 1 (n - 1) 0x03).pointer env, x ∈ m.negValueAt s.1 s.2 2 ∧
    y ∈ m.negValueAt s.1 s.2 3 ∧ badCoordinate x = false ∧ badCoordinate y = false

def Mem.LooksHostKey (m : Mem) (env : Env) (n : ℕ) : Prop :=
  m.LooksItem 1 (n - 1) 0x03 n ∧
    (∀ s ∈ (m.itemAt 1 (n - 1) 0x03).pointer env,
      m.LooksNegValue s.1 s.2 2 n ∧ m.LooksNegValue s.1 s.2 3 n) ∧
    ∀ x y, m.HostKey env n x y → PayloadBelow n x.ptr x.len ∧ PayloadBelow n y.ptr y.len

/-- The lengths with which setPIN and changePIN go on. -/
def NewPinLength (protocol len : ℕ) : Prop :=
  (protocol = 1 → len = 64) ∧ (protocol = 2 → len = 80)

def PinHashLength (protocol len : ℕ) : Prop :=
  (protocol = 1 → len = 16) ∧ (protocol = 2 → len = 32)

def Mem.LooksSetPin (m : Mem) (flash : Mem) (protocol n : ℕ) : Prop :=
  m.LooksValue 1 (n - 1) 0x04 n ∧ m.LooksValue 1 (n - 1) 0x05 n ∧
    ((pinLoad flash).isSome = false → ∀ auth ∈ m.stringAt 1 (n - 1) 0x04,
      ∀ newPin ∈ m.stringAt 1 (n - 1) 0x05, NewPinLength protocol newPin.2 →
        auth.2 = prescribedLen protocol →
          PayloadBelow n newPin.1 newPin.2 ∧ PayloadBelow n auth.1 auth.2)

def Mem.LooksChangePin (m : Mem) (protocol n : ℕ) : Prop :=
  m.LooksValue 1 (n - 1) 0x04 n ∧ m.LooksValue 1 (n - 1) 0x05 n ∧
    m.LooksValue 1 (n - 1) 0x06 n ∧
    ∀ auth ∈ m.stringAt 1 (n - 1) 0x04, ∀ newPin ∈ m.stringAt 1 (n - 1) 0x05,
      ∀ pinHash ∈ m.stringAt 1 (n - 1) 0x06, auth.2 = prescribedLen protocol →
        NewPinLength protocol newPin.2 → PinHashLength protocol pinHash.2 →
          PayloadBelow n newPin.1 newPin.2 ∧ PayloadBelow n pinHash.1 pinHash.2 ∧
            PayloadBelow n auth.1 auth.2

def Mem.LooksToken (m : Mem) (protocol n : ℕ) : Prop :=
  m.LooksValue 1 (n - 1) 0x06 n ∧
    ∀ pinHash ∈ m.stringAt 1 (n - 1) 0x06, ¬ (protocol = 1 ∧ pinHash.2 < 16) →
      ¬ (protocol = 2 ∧ pinHash.2 < 32) → PayloadBelow n pinHash.1 (prescribedLen protocol)

/-- The protocol of the request, or the one of the session. -/
noncomputable def Mem.protocolAt (m : Mem) (s : PinSession) (n : ℕ) : ℕ :=
  (m.intAt 1 (n - 1) 0x01).getD s.activePinProtocol

/-- The subcommand goes on to the host's public key. -/
def Mem.UsesKeys (m : Mem) (s : PinSession) (n subCmd : ℕ) : Prop :=
  (m.protocolAt s n = 1 ∨ m.protocolAt s n = 2) ∧
    (subCmd = 0x03 ∨ subCmd = 0x04 ∨ subCmd = 0x05 ∨ subCmd = 0x09) ∧ s.ecdhKeyValid = true

def Mem.LooksSubCmd (m : Mem) (flash : Mem) (protocol n subCmd : ℕ) : Prop :=
  if subCmd = 0x03 then m.LooksSetPin flash protocol n
  else if subCmd = 0x04 then m.LooksChangePin protocol n
  else m.LooksToken protocol n

/-- Up to the session keys. -/
def Mem.LooksPinFront (m : Mem) (env : Env) (s : PinSession) (n : ℕ) : Prop :=
  2 ≤ n → m.LooksInt 1 (n - 1) 0x02 n ∧ ∀ subCmd ∈ m.intAt 1 (n - 1) 0x02,
    m.LooksInt 1 (n - 1) 0x01 n ∧ (m.UsesKeys s n subCmd → m.LooksHostKey env n)

def Mem.LooksClientPin (m : Mem) (env : Env) (d : Device) (n : ℕ) : Prop :=
  m.LooksPinFront env d.pin n ∧ ∀ subCmd ∈ m.intAt 1 (n - 1) 0x02, m.UsesKeys d.pin n subCmd →
    (∃ x y, m.HostKey env n x y) →
      m.LooksSubCmd d.flash.mem (m.protocolAt d.pin n) n subCmd

section

variable {m flash : Mem} {n : ℕ} {env : Env} {d : Device} {s : PinSession} {v : MapValue}

theorem coordinate_confined (hgood : badCoordinate v = false) :
    (coordinate v).Confined m n (PayloadBelow n v.ptr v.len) := by
  have hlen : ¬ (v.len < 31 ∨ v.len > 33) := by simpa [badCoordinate] using hgood
  unfold coordinate PayloadBelow
  refine Confined.ite (fun h33 => ?_) fun h33 => Confined.ite (fun h32 => ?_) fun h32 => ?_
  · exact confined_bytes.map.congr (by omega)
  · exact confined_bytes.map.congr (by omega)
  · exact confined_bytes.map.congr (by omega)

theorem hostPublicKey_confined :
    (hostPublicKey env 1 (n - 1)).Confined m n (m.LooksHostKey env n) := by
  unfold hostPublicKey Mem.LooksHostKey Mem.HostKey
  refine getCborMapItem_confined.bind getCborMapItem_finds fun _ => ?_
  cases (m.itemAt 1 (n - 1) 0x03).pointer env with
  | none => exact confined_pure_of (by simp)
  | some s =>
      simp only [Option.mem_some_iff, forall_eq', exists_eq_left']
      refine Confined.congr (getCborMapNegValue_confined.bind getCborMapNegValue_finds fun _ =>
        getCborMapNegValue_confined.bind getCborMapNegValue_finds fun _ => ?_) and_assoc.symm
      cases m.negValueAt s.1 s.2 2 with
      | none => exact confined_pure_of (by simp)
      | some x =>
          cases m.negValueAt s.1 s.2 3 with
          | none => exact confined_pure_of (by simp)
          | some y =>
              simp only [Option.mem_some_iff]
              refine Confined.ite (fun hbad => ?_) fun hgood => ?_
              · refine confined_pure_of ?_
                rintro x' y' ⟨rfl, rfl, hx, hy⟩
                rw [hx, hy] at hbad
                simp at hbad
              · simp only [not_or, Bool.not_eq_true] at hgood
                refine ((coordinate_confined hgood.1).bind_run fun _ _ _ =>
                  (coordinate_confined hgood.2).map).congr ⟨?_, fun h => h x y ⟨rfl, rfl, hgood⟩⟩
                rintro ⟨hx, hy⟩ x' y' ⟨rfl, rfl, -, -⟩
                exact ⟨hx, hy⟩

theorem hostPublicKey_finds : (hostPublicKey env 1 (n - 1)).Returns m fun r => match r with
    | .error _ => ¬ ∃ x y, m.HostKey env n x y
    | .ok _ => ∃ x y, m.HostKey env n x y := by
  unfold hostPublicKey Mem.HostKey
  refine Returns.bind_of getCborMapItem_finds fun item hitem => ?_
  subst hitem
  cases (m.itemAt 1 (n - 1) 0x03).pointer env with
  | none => exact Returns.pure (by simp)
  | some s =>
      simp only [Option.mem_some_iff, exists_eq_left']
      refine Returns.bind_of getCborMapNegValue_finds fun x hx =>
        Returns.bind_of getCborMapNegValue_finds fun y hy => ?_
      rw [← hx, ← hy]
      cases x with
      | none => exact Returns.pure (by simp)
      | some x =>
          cases y with
          | none => exact Returns.pure (by simp)
          | some y =>
              simp only [Option.mem_some_iff]
              refine Returns.ite (fun hbad => Returns.pure ?_) fun hgood =>
                Returns.bind fun _ => Returns.bind fun _ => Returns.pure ?_
              · rintro ⟨x', y', rfl, rfl, hx, hy⟩
                rw [hx, hy] at hbad
                simp at hbad
              · simp only [not_or, Bool.not_eq_true] at hgood
                exact ⟨x, y, rfl, rfl, hgood⟩

/-! ## The subcommands -/

theorem expectedAuthLen_eq : s.expectedAuthLen = prescribedLen s.activePinProtocol := rfl

theorem newPinLength_iff {protocol len : ℕ} : NewPinLength protocol len ↔
    ¬ (protocol = 1 ∧ len ≠ 64) ∧ ¬ (protocol = 2 ∧ len ≠ 80) := by
  unfold NewPinLength
  omega

theorem setPinChecks_confined : (setPinChecks flash s 1 (n - 1)).Confined m n
    (m.LooksSetPin flash s.activePinProtocol n) := by
  unfold setPinChecks Mem.LooksSetPin
  refine getCborMapString_confined.bind getCborMapString_finds fun _ =>
    getCborMapString_confined.bind getCborMapString_finds fun _ => ?_
  cases m.stringAt 1 (n - 1) 0x04 with
  | none => exact confined_pure_of (by simp)
  | some auth =>
      refine Confined.ite (fun hset => ?_) fun hunset => ?_
      · exact confined_pure_of (by simp [hset])
      rw [Bool.not_eq_true] at hunset
      cases m.stringAt 1 (n - 1) 0x05 with
      | none => exact confined_pure_of (by simp)
      | some newPin =>
          simp only [hunset, Option.mem_some_iff, forall_eq', forall_true_left]
          rw [newPinLength_iff, ← expectedAuthLen_eq]
          refine Confined.ite (fun h => ?_) fun hone => Confined.ite (fun h => ?_) fun htwo =>
            Confined.ite (fun h => ?_) fun hauth => ?_
          · exact confined_pure_of fun hlen => absurd h hlen.1
          · exact confined_pure_of fun hlen => absurd h hlen.2
          · exact confined_pure_of fun _ hlen => absurd hlen h
          · rw [not_not] at hauth
            rw [imp_iff_right ⟨hone, htwo⟩, imp_iff_right hauth, hauth]
            refine payload_confined.bind_run fun _ enc _ => ?_
            refine payload_confined.bind_free fun auth => ?_
            exact Confined.ite (fun _ => confined_pure) fun _ => confined_pure

theorem changePinChecks_confined : (changePinChecks s 1 (n - 1)).Confined m n
    (m.LooksChangePin s.activePinProtocol n) := by
  unfold changePinChecks Mem.LooksChangePin
  refine getCborMapString_confined.bind getCborMapString_finds fun _ =>
    getCborMapString_confined.bind getCborMapString_finds fun _ =>
    getCborMapString_confined.bind getCborMapString_finds fun _ => ?_
  cases m.stringAt 1 (n - 1) 0x04 with
  | none => exact confined_pure_of (by simp)
  | some auth =>
      cases m.stringAt 1 (n - 1) 0x05 with
      | none => exact confined_pure_of (by simp)
      | some newPin =>
          cases m.stringAt 1 (n - 1) 0x06 with
          | none => exact confined_pure_of (by simp)
          | some pinHash =>
              simp only [Option.mem_some_iff, forall_eq']
              have hlengths : ∀ protocol, NewPinLength protocol newPin.2 →
                  PinHashLength protocol pinHash.2 →
                    ¬ (protocol = 1 ∧ (newPin.2 ≠ 64 ∨ pinHash.2 ≠ 16)) ∧
                      ¬ (protocol = 2 ∧ (newPin.2 ≠ 80 ∨ pinHash.2 ≠ 32)) := by
                unfold NewPinLength PinHashLength
                omega
              rw [← expectedAuthLen_eq]
              refine Confined.ite (fun h => ?_) fun hauth => Confined.ite (fun h => ?_)
                fun hone => Confined.ite (fun h => ?_) fun htwo => ?_
              · exact confined_unasked h
              · exact confined_pure_of fun _ hnew hhash => absurd h (hlengths _ hnew hhash).1
              · exact confined_pure_of fun _ hnew hhash => absurd h (hlengths _ hnew hhash).2
              · rw [not_not] at hauth
                have hnew : NewPinLength s.activePinProtocol newPin.2 := by
                  unfold NewPinLength
                  omega
                have hhash : PinHashLength s.activePinProtocol pinHash.2 := by
                  unfold PinHashLength
                  omega
                rw [imp_iff_right hauth, imp_iff_right hnew, imp_iff_right hhash, hauth]
                refine payload_confined.bind_run fun _ newPinBytes _ =>
                  payload_confined.bind_run fun _ hashBytes _ => ?_
                refine payload_confined.bind_free fun authBytes => ?_
                exact Confined.ite (fun _ => confined_pure) fun _ => confined_pure

theorem tokenGuess_confined : (tokenGuess s 1 (n - 1)).Confined m n
    (m.LooksToken s.activePinProtocol n) := by
  unfold tokenGuess Mem.LooksToken
  refine getCborMapString_confined.bind getCborMapString_finds fun _ => ?_
  cases m.stringAt 1 (n - 1) 0x06 with
  | none => exact confined_pure_of (by simp)
  | some pinHash =>
      simp only [Option.mem_some_iff, forall_eq']
      refine Confined.ite (fun h => ?_) fun hone => Confined.ite (fun h => ?_) fun htwo => ?_
      · exact confined_pure_of fun hlen => absurd h hlen
      · exact confined_pure_of fun _ hlen => absurd h hlen
      · rw [imp_iff_right hone, imp_iff_right htwo]
        exact payload_confined.map

/-! ## The command -/

theorem clientPinFront_confined : (clientPinFront env d 1 (n - 1)).Confined m n
    (m.LooksPinFront env d.pin n) := by
  unfold clientPinFront Mem.LooksPinFront
  refine Confined.ite (fun hshort => ?_) fun hlong => ?_
  · exact confined_unasked (by omega)
  refine Confined.asked ?_ (by omega : 2 ≤ n)
  refine getCborMapInt_confined.bind getCborMapInt_finds fun _ => ?_
  cases m.intAt 1 (n - 1) 0x02 with
  | none => exact confined_pure_of (by simp)
  | some subCmd =>
      simp only [Option.mem_some_iff, forall_eq']
      refine getCborMapInt_confined.bind getCborMapInt_finds fun _ => ?_
      unfold Mem.UsesKeys Mem.protocolAt
      generalize (m.intAt 1 (n - 1) 0x01).getD d.pin.activePinProtocol = protocol
      refine Confined.ite (fun hproto => confined_unasked (by omega)) fun hproto =>
        Confined.ite (fun hsub => confined_unasked (by omega)) fun hretries =>
        Confined.ite (fun hsub => confined_unasked (by omega)) fun hagree =>
        Confined.ite (fun hsub => ?_) fun hsub => confined_unasked fun h => hsub h.2.1
      refine Confined.ite (fun hinvalid => confined_unasked fun h => hinvalid h.2.2)
        fun hvalid => ?_
      rw [not_not] at hvalid
      refine Confined.asked ?_ ⟨by omega, hsub, hvalid⟩
      refine hostPublicKey_confined.bind_free fun key => ?_
      cases key <;> exact confined_pure

/-- The subcommand for which the session keys have been agreed on. -/
theorem clientPinFront_finds : (clientPinFront env d 1 (n - 1)).Returns m fun r => match r with
    | .error _ => ¬ ∃ subCmd ∈ m.intAt 1 (n - 1) 0x02, m.UsesKeys d.pin n subCmd ∧
        ∃ x y, m.HostKey env n x y
    | .ok (subCmd, d') => subCmd ∈ m.intAt 1 (n - 1) 0x02 ∧ m.UsesKeys d.pin n subCmd ∧
        (∃ x y, m.HostKey env n x y) ∧ d'.flash = d.flash ∧
        d'.pin.activePinProtocol = m.protocolAt d.pin n := by
  unfold clientPinFront
  refine Returns.ite (fun hshort => Returns.pure ?_) fun _ =>
    Returns.bind_of getCborMapInt_finds fun found hfound => ?_
  · have hempty : n - 1 = 0 := by omega
    rintro ⟨subCmd, hsub, -⟩
    rw [hempty, Mem.intAt, Option.mem_def, Option.bind_eq_some_iff] at hsub
    obtain ⟨p, hp, -⟩ := hsub
    have hbounds := place_bounds hp
    omega
  rw [← hfound]
  cases found with
  | none => exact Returns.pure (by simp)
  | some subCmd =>
      simp only [Option.mem_some_iff, exists_eq_left']
      refine Returns.bind_of getCborMapInt_finds fun proto hproto => ?_
      unfold Mem.UsesKeys Mem.protocolAt
      rw [← hproto]
      generalize proto.getD d.pin.activePinProtocol = protocol
      refine Returns.ite (fun h => Returns.pure ?_) fun hknown =>
        Returns.ite (fun h => Returns.pure ?_) fun hretries =>
        Returns.ite (fun h => Returns.pure ?_) fun hagree =>
        Returns.ite (fun hsub => ?_) fun hsub => Returns.pure ?_
      · rintro ⟨⟨hp, -, -⟩, -⟩
        omega
      · rintro ⟨⟨-, hs, -⟩, -⟩
        omega
      · rintro ⟨⟨-, hs, -⟩, -⟩
        omega
      · refine Returns.ite (fun hinvalid => Returns.pure fun h => hinvalid h.1.2.2) fun hvalid =>
          Returns.bind_of hostPublicKey_finds fun key hkey => ?_
        rw [not_not] at hvalid
        cases key with
        | error status => exact Returns.pure fun h => hkey h.2
        | ok hostPub =>
            refine Returns.pure ⟨rfl, ⟨by omega, hsub, hvalid⟩, hkey, rfl, ?_⟩
            exact agree_protocol _ _
      · exact fun h => hsub h.1.2.1

theorem processClientPin_confined :
    (processClientPin env d 1 (n - 1)).Confined m n (m.LooksClientPin env d n) := by
  unfold processClientPin Mem.LooksClientPin
  refine clientPinFront_confined.bind_run fun _ front hfront => ?_
  have hread := clientPinFront_finds front hfront
  cases front with
  | error o =>
      refine confined_pure_of fun subCmd hsub huses hkey => ?_
      exact absurd ⟨subCmd, hsub, huses, hkey⟩ hread
  | ok go =>
      obtain ⟨subCmd, d'⟩ := go
      obtain ⟨hsub, huses, hkey, hflash, hprotocol⟩ := hread
      have hall : (∀ subCmd ∈ m.intAt 1 (n - 1) 0x02, m.UsesKeys d.pin n subCmd →
          (∃ x y, m.HostKey env n x y) →
            m.LooksSubCmd d.flash.mem (m.protocolAt d.pin n) n subCmd) ↔
          m.LooksSubCmd d.flash.mem (m.protocolAt d.pin n) n subCmd := by
        constructor
        · exact fun h => h subCmd hsub huses hkey
        · intro h subCmd' hsub' _ _
          rwa [← Option.mem_unique hsub hsub']
      refine Confined.congr ?_ hall.symm
      rw [← hflash, ← hprotocol]
      unfold Mem.LooksSubCmd
      by_cases hset : subCmd = 0x03
      · simp only [if_pos hset]
        refine setPinChecks_confined.bind_free fun r => ?_
        cases r <;> exact confined_pure
      by_cases hchange : subCmd = 0x04
      · simp only [if_neg hset, if_pos hchange]
        refine changePinChecks_confined.bind_free fun r => ?_
        cases r <;> exact confined_pure
      · simp only [if_neg hset, if_neg hchange]
        refine tokenGuess_confined.bind_free fun r => ?_
        cases r <;> exact confined_pure

end

end UnsoloKey
