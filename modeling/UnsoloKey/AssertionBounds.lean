import UnsoloKey.RegistrationBounds
import Mathlib.Tactic

/-!
# How far GetAssertion looks

The search for a listed credential stays inside the request by itself.  Everything else
which GetAssertion looks at lies where the lengths in the request put it.
-/

namespace UnsoloKey

open Rd

/-- The allowList is missing or an empty array. -/
def BareList (allowList : Option MapValue) : Prop :=
  ∀ v ∈ allowList, v.type = 0x80 ∧ v.len = 0

/-- The first credential of the relying party. -/
def firstOfRp (flash : Mem) (rpIdHash : Bytes 32) : Option Slot :=
  if passkeyCountForRp flash rpIdHash = 0 then none
  else passkeyGetByRpIndex flash rpIdHash 0

/-- Whether GetAssertion has a credential to go on with. -/
def Mem.Selects (m : Mem) (flash : Mem) (n : ℕ) (rpIdHash : Bytes 32)
    (allowList : Option MapValue) : Prop :=
  BareList allowList ∧ firstOfRp flash rpIdHash ≠ none ∨
    ¬ BareList allowList ∧ ∃ i, isOfRp flash rpIdHash i = true ∧
      (flash.slotKey i).credentialId.val <:+: m.slice 0 n

/-- `"uv": true` is looked for, and found. -/
def Mem.AsksUv (m : Mem) (ptr n : ℕ) (hasPinAuth : Bool) : Prop :=
  hasPinAuth = false ∧ FirstSays m ptr (searchLen n ptr) (ascii "uv") 0xF5

/-- The options do not end the command: none of them asks for user verification, and a touch
is given where one is required. -/
def Mem.OptionsPass (m : Mem) (env : Env) (n : ℕ) (hasPinAuth : Bool)
    (options : Option MapValue) : Prop :=
  (∀ v ∈ options, ¬ m.AsksUv v.ptr n hasPinAuth) ∧
    (env.presence = .confirmed ∨
      ∃ v ∈ options, FirstSays m v.ptr (searchLen n v.ptr) (ascii "up") 0xF4)

/-- From the options on. -/
def Mem.LooksOptions (m : Mem) (env : Env) (n : ℕ) (cdh : Option (ℕ × ℕ))
    (hasPinAuth : Bool) : Prop :=
  m.LooksValue 1 (n - 1) 0x05 n ∧
    (∀ v ∈ m.valueAt 1 (n - 1) 0x05, (hasPinAuth = false → m.LooksOption v.ptr n "uv") ∧
      (¬ m.AsksUv v.ptr n hasPinAuth → m.LooksOption v.ptr n "up")) ∧
    (m.OptionsPass env n hasPinAuth (m.valueAt 1 (n - 1) 0x05) →
      ∀ s ∈ cdh, s.2 = 32 → PayloadBelow n s.1 32)

def Mem.LooksGetAssertion (m : Mem) (env : Env) (d : Device) (n : ℕ) : Prop :=
  let cdh := m.stringAt 1 (n - 1) 0x02
  let allowList := m.valueAt 1 (n - 1) 0x03
  let rpId := (m.valueAt 1 (n - 1) 0x01).map fun v => (v.ptr, v.len)
  m.LooksValue 1 (n - 1) 0x01 n ∧ m.LooksValue 1 (n - 1) 0x02 n ∧
    m.LooksValue 1 (n - 1) 0x03 n ∧ (∀ s ∈ rpId, PayloadBelow n s.1 s.2) ∧
    (BareList allowList → firstOfRp d.flash.mem (m.hashOf rpId) ≠ none →
      ∀ s ∈ cdh, 32 ≤ s.2 → PayloadBelow n s.1 32) ∧
    (m.Selects d.flash.mem n (m.hashOf rpId) allowList →
      m.LooksValue 1 (n - 1) 0x06 n ∧
        match m.stringAt 1 (n - 1) 0x06 with
        | none => m.LooksOptions env n cdh false
        | some s => d.pin.LooksParam cdh n s.1 s.2 ∧
            (d.pin.Accepts m cdh s.1 s.2 → m.LooksOptions env n cdh true))

section

variable {m flash : Mem} {n ptr : ℕ} {env : Env} {d : Device} {rpIdHash : Bytes 32}
  {cdh : Option (ℕ × ℕ)} {allowList options : Option MapValue} {i : Slot} {total : ℕ}
  {verified : Option (List UInt8)} {hasPinAuth pinSet : Bool}

theorem storedCdh_confined : (storedCdh cdh).Confined m n
    (∀ s ∈ cdh, 32 ≤ s.2 → PayloadBelow n s.1 32) := by
  unfold storedCdh
  cases cdh with
  | none => exact confined_pure_of (by simp)
  | some s =>
      simp only [Option.mem_some_iff, forall_eq']
      refine Confined.ite (fun hlong => ?_) fun hshort => ?_
      · exact payload_confined.map.asked hlong
      · exact confined_unasked hshort

theorem signedCdh_confined : (signedCdh cdh).Confined m n
    (∀ s ∈ cdh, s.2 = 32 → PayloadBelow n s.1 32) := by
  unfold signedCdh
  cases cdh with
  | none => exact confined_pure_of (by simp)
  | some s =>
      simp only [Option.mem_some_iff, forall_eq']
      refine Confined.ite (fun hlong => ?_) fun hother => ?_
      · exact payload_confined.map.asked hlong
      · exact confined_unasked hother

theorem occursInRequest_below {wanted : Bytes 32} {left p : ℕ}
    (hend : left ≠ 0 → p + left + 31 ≤ n) :
    (occursInRequest wanted left p).ReadsBelow n m := by
  induction left generalizing p with
  | zero => exact confined_pure.below trivial
  | succ left ih =>
      have hbound := hend (by omega)
      rw [occursInRequest, readsBelow_bind]
      refine ⟨payload_confined.below (.inr (by omega)), fun id _ => ?_⟩
      rw [readsBelow_ite]
      exact ⟨fun _ => confined_pure.below trivial, fun _ => ih fun _ => by omega⟩

/-- The search for the listed credentials ends with the request. -/
theorem findListed_below (candidates : List Slot) :
    (findListed flash rpIdHash n candidates).ReadsBelow n m := by
  induction candidates with
  | nil => exact confined_pure.below trivial
  | cons i rest ih =>
      rw [findListed, readsBelow_ite, readsBelow_bind]
      refine ⟨fun _ => ⟨occursInRequest_below fun _ => by omega, fun hit _ => ?_⟩, fun _ => ih⟩
      rw [readsBelow_ite]
      exact ⟨fun _ => confined_pure.below trivial, fun _ => ih⟩

theorem bareList_iff : (match allowList with
    | none => true
    | some v => decide (v.type = 0x80 ∧ v.len = 0)) = true ↔ BareList allowList := by
  unfold BareList
  cases allowList <;> simp

theorem firstOfRp_ne_none : firstOfRp flash rpIdHash ≠ none ↔
    passkeyCountForRp flash rpIdHash ≠ 0 ∧ passkeyGetByRpIndex flash rpIdHash 0 ≠ none := by
  unfold firstOfRp
  split
  · exact iff_of_false (by simp) fun h => h.1 ‹_›
  · exact (and_iff_right ‹_›).symm

theorem selectCredential_confined :
    (selectCredential d n rpIdHash cdh allowList).Confined m n
      (BareList allowList → firstOfRp d.flash.mem rpIdHash ≠ none →
        ∀ s ∈ cdh, 32 ≤ s.2 → PayloadBelow n s.1 32) := by
  unfold selectCredential
  refine Confined.ite (fun hbare => ?_) fun hlisted => ?_
  · refine Confined.asked ?_ (bareList_iff.1 hbare)
    rw [firstOfRp_ne_none]
    cases passkeyGetByRpIndex d.flash.mem rpIdHash 0 with
    | none => exact confined_pure_of (by simp)
    | some i =>
        refine Confined.ite (fun hnone => ?_) fun hsome => ?_
        · exact confined_pure_of fun h => absurd hnone h.1
        · exact storedCdh_confined.map.asked ⟨hsome, by simp⟩
  · refine Confined.congr (confined_of_iff (iff_true_intro (findListed_below slots))).map ?_
    exact iff_of_true trivial fun hbare => absurd (bareList_iff.2 hbare) hlisted

theorem selectCredential_finds :
    (selectCredential d n rpIdHash cdh allowList).Returns m fun selection =>
      selection.1 ≠ none ↔ m.Selects d.flash.mem n rpIdHash allowList := by
  unfold selectCredential Mem.Selects
  refine Returns.ite (fun hbare => ?_) fun hlisted => ?_
  · have hmissing : BareList allowList := bareList_iff.1 hbare
    simp only [hmissing, true_and, not_true_eq_false, false_and, or_false]
    rw [firstOfRp_ne_none]
    cases passkeyGetByRpIndex d.flash.mem rpIdHash 0 with
    | none => exact Returns.pure (by simp)
    | some i =>
        refine Returns.ite (fun hnone => Returns.pure ?_) fun hsome =>
          Returns.bind fun _ => Returns.pure ?_
        · exact iff_of_false (by simp) fun h => h.1 hnone
        · exact iff_of_true (by simp) ⟨hsome, by simp⟩
  · have hthere : ¬ BareList allowList := mt bareList_iff.2 hlisted
    simp only [hthere, false_and, not_false_eq_true, true_and, false_or]
    refine Returns.bind_run fun found hfound => Returns.pure ?_
    rw [findListed_run, Option.some.injEq] at hfound
    rw [ne_eq, Option.map_eq_none_iff, ← hfound, List.find?_eq_none]
    simp [slots]

/-! ## The options -/

theorem uvRequested_confined (hptr : ptr ≤ n) (hn : n < 65536) :
    (uvRequested hasPinAuth ptr (searchLen n ptr)).Confined m n
      (hasPinAuth = false → m.LooksOption ptr n "uv") := by
  cases hasPinAuth with
  | true => exact confined_pure_of (by simp)
  | false => exact (hasOption_confined "uv" hptr hn).congr (by simp)

theorem uvRequested_finds : (uvRequested hasPinAuth ptr (searchLen n ptr)).Returns m fun uv =>
    uv = true ↔ m.AsksUv ptr n hasPinAuth := by
  cases hasPinAuth with
  | true => exact Returns.pure (by simp [Mem.AsksUv])
  | false =>
      intro uv hrun
      simpa [Mem.AsksUv] using hasOption_returns (searchLen_lt _ _) "uv" uv hrun

theorem assertionOptions_confined (hptr : ∀ v ∈ options, v.ptr ≤ n) (hn : n < 65536) :
    (assertionOptions pinSet hasPinAuth options n).Confined m n
      (∀ v ∈ options, (hasPinAuth = false → m.LooksOption v.ptr n "uv") ∧
        (¬ m.AsksUv v.ptr n hasPinAuth → m.LooksOption v.ptr n "up")) := by
  unfold assertionOptions
  cases options with
  | none => exact confined_pure_of (by simp)
  | some v =>
      simp only [Option.mem_some_iff, forall_eq'] at hptr ⊢
      refine (uvRequested_confined hptr hn).bind_test uvRequested_finds (fun _ hasks => ?_)
        fun _ hnot => ?_
      · exact confined_pure_of fun h => absurd hasks h
      · exact (hasOption_confined "up" hptr hn).map.asked hnot

/-- A touch is required unless the options say otherwise. -/
theorem assertionOptions_finds : (assertionOptions pinSet hasPinAuth options n).Returns m
    fun decision => match decision with
      | .error _ => ¬ ∀ v ∈ options, ¬ m.AsksUv v.ptr n hasPinAuth
      | .ok upRequired => (∀ v ∈ options, ¬ m.AsksUv v.ptr n hasPinAuth) ∧
          (upRequired = false ↔
            ∃ v ∈ options, FirstSays m v.ptr (searchLen n v.ptr) (ascii "up") 0xF4) := by
  unfold assertionOptions
  cases options with
  | none => exact Returns.pure (by simp)
  | some v =>
      simp only [Option.mem_some_iff, forall_eq', exists_eq_left']
      refine Returns.bind_of uvRequested_finds fun uv huv => Returns.ite (fun hasks => ?_)
        fun hnot => Returns.bind_of (hasOption_returns (searchLen_lt _ _) "up")
          fun preflight hup => ?_
      · exact Returns.pure (not_not.2 (huv.1 hasks))
      · exact Returns.pure ⟨mt huv.2 hnot, by rw [← hup]; simp⟩

theorem assertCredential_confined (hn : n < 65536) :
    (assertCredential env d n rpIdHash cdh i total verified hasPinAuth).Confined m n
      (m.LooksOptions env n cdh hasPinAuth) := by
  unfold assertCredential Mem.LooksOptions
  refine getCborMapValue_confined.bind getCborMapValue_finds fun hlooks => ?_
  refine (assertionOptions_confined (fun v hv => hlooks.ptr_le hv) hn).bind_run
    fun _ decision hdecision => ?_
  have hread := assertionOptions_finds decision hdecision
  unfold Mem.OptionsPass
  cases decision with
  | error status =>
      exact confined_pure_of fun h => absurd h.1 hread
  | ok upRequired =>
      obtain ⟨hnot, hup⟩ := hread
      refine Confined.ite (fun hrefused => ?_) fun hgoes => ?_
      · refine confined_pure_of fun h => ?_
        rcases h.2 with hconfirmed | hpreflight
        · exact absurd ((presence_status_eq_zero_iff _).2 hconfirmed) hrefused.2
        · rw [← hup, hrefused.1] at hpreflight
          cases hpreflight
      · refine signedCdh_confined.map.asked ⟨hnot, ?_⟩
        rw [← hup, ← presence_status_eq_zero_iff]
        cases upRequired with
        | true => exact .inl (not_not.1 fun h => hgoes ⟨rfl, h⟩)
        | false => exact .inr rfl

/-! ## The command -/

theorem getAssertion_confined (hn : n < 65536) :
    (getAssertion env d n).Confined m n (m.LooksGetAssertion env d n) := by
  unfold getAssertion Mem.LooksGetAssertion
  refine getCborMapValue_confined.bind getCborMapValue_finds fun _ => ?_
  refine getCborMapString_confined.bind getCborMapString_finds fun _ => ?_
  refine getCborMapValue_confined.bind getCborMapValue_finds fun _ => ?_
  refine rpIdHashOf_confined.bind rpIdHashOf_finds fun _ => ?_
  refine selectCredential_confined.bind_run fun _ selection hselection => ?_
  have hselects := selectCredential_finds selection hselection
  unfold assertSelected
  cases hfound : selection.1 with
  | none =>
      exact confined_pure_of fun h => absurd hfound (hselects.2 h)
  | some found =>
      refine Confined.asked ?_ (hselects.1 (by simp [hfound]))
      refine getCborMapString_confined.bind getCborMapString_finds fun _ => ?_
      cases m.stringAt 1 (n - 1) 0x06 with
      | none => exact assertCredential_confined hn
      | some s =>
          refine pinAuthValid_confined.bind_test pinAuthValid_accepts (fun _ haccepts => ?_)
            fun _ hrejects => ?_
          · exact (assertCredential_confined hn).asked haccepts
          · exact confined_unasked hrejects

end

end UnsoloKey
