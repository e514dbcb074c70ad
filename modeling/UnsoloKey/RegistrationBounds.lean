import UnsoloKey.CredentialLists
import UnsoloKey.Options
import UnsoloKey.RequestLookups
import UnsoloKey.TokenProtocol
import Mathlib.Tactic

/-!
# How far MakeCredential looks

MakeCredential looks at the heads which its lookups come to and then, at the places they
give it, at 16 bytes, at 32 bytes or at as many as were declared.  Which of these it comes
to depends on what it has found before.  The conditions below follow it, one for each of
its parts; each says that everything the part looks at lies below `n`.
-/

namespace UnsoloKey

open Rd

/-! ## Payloads -/

/-- The `k` bytes at `p` lie below `n`. -/
def PayloadBelow (n p k : ℕ) : Prop := k = 0 ∨ p + k ≤ n

/-- What the comparison with a one-byte value looks at, behind a key which matches. -/
def OptionBelow (m : Mem) (n p : ℕ) (_rest : ℕ) : Prop :=
  majorBits (m p) = 0x40 ∨ majorBits (m p) = 0x60 →
    if infoBits (m p) = 24 then p + 1 < n ∧ (m (p + 1) = 1 → p + 2 < n)
    else infoBits (m p) = 1 → p + 1 < n

/-- The search for an option in the request from `ptr` on. -/
def Mem.LooksOption (m : Mem) (ptr n : ℕ) (key : String) : Prop :=
  SearchFits m (ascii key) (OptionBelow m n) ptr (n - ptr)

/-- The lengths for which the pinUvAuthParam is compared. -/
def PinSession.Compares (s : PinSession) (len : ℕ) : Prop :=
  s.activePinProtocol = 2 ∧ len = 32 ∨ s.activePinProtocol = 1 ∧ len = 16

/-- The check of the pinUvAuthParam of `len` bytes at `p`. -/
def PinSession.LooksParam (s : PinSession) (cdh : Option (ℕ × ℕ)) (n p len : ℕ) : Prop :=
  ∀ q ∈ cdh, s.hasPinToken = true → 32 ≤ q.2 →
    PayloadBelow n q.1 32 ∧ (s.Compares len → PayloadBelow n p len)

def PinSession.Accepts (s : PinSession) (m : Mem) (cdh : Option (ℕ × ℕ)) (p len : ℕ) : Prop :=
  ∃ q ∈ cdh, s.hasPinToken = true ∧ 32 ≤ q.2 ∧ s.Compares len ∧
    m.slice p len = (hmacSha256 s.tokenKey (m.slice q.1 32)).val.take len

/-- `rpIdHash` for a relying party id found in the request. -/
def Mem.hashOf (m : Mem) (rpId : Option (ℕ × ℕ)) : Bytes 32 :=
  rpId.elim (Bytes.zero 32) fun s => rpHash (m.slice s.1 s.2)

section

variable {m : Mem} {n p len ptr : ℕ} {s : PinSession} {cdh rpId : Option (ℕ × ℕ)} {val : UInt8}

theorem payload_confined {k : ℕ} : (bytes p k).Confined m n (PayloadBelow n p k) :=
  confined_bytes

theorem optionIs_span {found : ℕ × ℕ} :
    (optionIs val (some found)).Meets m True (InSpan 0 n) (fun _ => True) ↔
      (found.2 = 1 → found.1 < n) := by
  obtain ⟨p, k⟩ := found
  match k with
  | 0 => exact iff_of_true trivial fun h => absurd h (by dsimp only; omega)
  | 1 =>
      rw [optionIs, meets_bind, meets_byte, forall_prop_of_true rfl]
      exact (and_iff_left trivial).trans (and_iff_right (Nat.zero_le p))
  | k + 2 => exact iff_of_true trivial fun h => absurd h (by dsimp only; omega)

theorem findCborValue_option {v : ℕ} (hend : ptr + len = n) (hmore : v < len)
    (hvalue : IsOptionValue (m (ptr + v))) {Q : Option (ℕ × ℕ) → Prop}
    (hQ : ∀ found : ℕ × ℕ, Q (some found) ↔ (found.2 = 1 → found.1 < n)) :
    (findCborValue ptr len v).Meets m True (InSpan 0 n) Q ↔
      OptionBelow m n (ptr + v) (len - v) := by
  have hspan : ∀ a, InSpan 0 n a ↔ a < n := fun a => and_iff_right (Nat.zero_le a)
  rw [findCborValue, if_neg (by omega), meets_bind, meets_byte, hspan,
    and_iff_right (by omega : ptr + v < n)]
  unfold OptionBelow
  by_cases hstring : majorBits (m (ptr + v)) = 0x40 ∨ majorBits (m (ptr + v)) = 0x60
  · rw [if_pos hstring, forall_prop_of_true hstring]
    by_cases hlong : infoBits (m (ptr + v)) = 24
    · have hone : (m (ptr + v + 1)).toNat = 1 ↔ m (ptr + v + 1) = 1 := UInt8.toNat_inj (b := 1)
      rw [if_pos hlong, if_pos hlong, meets_bind, meets_byte, meets_pure, hQ, hspan, hone]
    · rw [if_neg hlong, if_neg hlong, meets_pure, hQ]
  · rw [if_neg hstring, if_pos (hvalue.resolve_left hstring), meets_pure, hQ]
    exact iff_of_true (fun _ => by dsimp only; omega) fun h => absurd h hstring

theorem hasOption_confined (key : String) (hptr : ptr ≤ n) (hn : n < 65536) :
    (hasOption ptr (searchLen n ptr) key val).Confined m n (m.LooksOption ptr n key) := by
  have hend : ptr + (n - ptr) = n := by omega
  have hsearch : (findCborString ptr (n - ptr) (ascii key)).Meets m True
      (InSpan 0 (ptr + (n - ptr))) (fun found =>
        (optionIs val found).Meets m True (InSpan 0 n) fun _ => True) ↔
      SearchFits m (ascii key) (OptionBelow m n) ptr (n - ptr) := by
    refine findCborString_span trivial (fun v hmore hvalue Q hQ => ?_) (by omega)
      (Nat.zero_le ptr)
    rw [hend]
    exact findCborValue_option hend hmore hvalue fun found => (hQ found).trans optionIs_span
  rw [hend] at hsearch
  rw [hasOption_eq, searchLen_eq hptr hn]
  refine confined_of_iff (readsBelow_iff_meets.trans ?_)
  rw [meets_bind]
  exact hsearch

/-! ## The pinUvAuthParam -/

theorem pinAuthValid_confined :
    (pinAuthValid s cdh p len).Confined m n (s.LooksParam cdh n p len) := by
  unfold pinAuthValid PinSession.LooksParam
  cases cdh with
  | none => exact confined_pure_of (by simp)
  | some q =>
      obtain ⟨q, k⟩ := q
      simp only [Option.mem_some_iff, forall_eq']
      by_cases hready : s.hasPinToken = true ∧ k ≥ 32
      · rw [if_neg (not_not.2 hready), forall_prop_of_true hready.1,
          forall_prop_of_true hready.2]
        refine payload_confined.bind_run fun _ _ _ => ?_
        unfold PinSession.Compares
        by_cases htwo : s.activePinProtocol = 2 ∧ len = 32
        · rw [if_pos htwo, htwo.2, forall_prop_of_true (.inl ⟨htwo.1, rfl⟩)]
          exact payload_confined.map
        · rw [if_neg htwo]
          by_cases hone : s.activePinProtocol = 1 ∧ len = 16
          · rw [if_pos hone, hone.2, forall_prop_of_true (.inr ⟨hone.1, rfl⟩)]
            exact payload_confined.map
          · rw [if_neg hone]
            exact confined_unasked (not_or.2 ⟨htwo, hone⟩)
      · rw [if_pos hready]
        exact confined_pure_of fun htoken hlong => absurd ⟨htoken, hlong⟩ hready

theorem pinAuthValid_accepts :
    (pinAuthValid s cdh p len).Returns m fun b => b = true ↔ s.Accepts m cdh p len := by
  unfold pinAuthValid PinSession.Accepts
  cases cdh with
  | none => exact Returns.pure (by simp)
  | some q =>
      obtain ⟨q, k⟩ := q
      simp only [Option.mem_some_iff, exists_eq_left']
      refine Returns.ite (fun hnot => Returns.pure ?_) fun hready => ?_
      · exact iff_of_false Bool.false_ne_true fun h => hnot ⟨h.1, h.2.1⟩
      rw [not_not] at hready
      simp only [hready.1, true_and]
      rw [and_iff_right hready.2]
      refine Returns.bind_run fun cdhBytes hcdh => ?_
      obtain rfl := Option.some.inj ((run_bytes q 32 m).symm.trans hcdh)
      unfold PinSession.Compares
      refine Returns.ite (fun htwo => ?_) fun htwo => Returns.ite (fun hone => ?_) fun hone => ?_
      · obtain ⟨hproto, rfl⟩ := htwo
        refine Returns.bind_run fun param hparam => Returns.pure ?_
        obtain rfl := Option.some.inj ((run_bytes p 32 m).symm.trans hparam)
        simp [hproto, eq_comm, List.take_of_length_le]
      · obtain ⟨hproto, rfl⟩ := hone
        refine Returns.bind_run fun param hparam => Returns.pure ?_
        obtain rfl := Option.some.inj ((run_bytes p 16 m).symm.trans hparam)
        simp [hproto, eq_comm]
      · exact Returns.pure (iff_of_false Bool.false_ne_true fun h =>
          h.1.elim htwo hone)

/-! ## The relying party -/

theorem rpIdHashOf_confined :
    (rpIdHashOf rpId).Confined m n (∀ s ∈ rpId, PayloadBelow n s.1 s.2) := by
  unfold rpIdHashOf
  cases rpId with
  | none => exact confined_pure_of (by simp)
  | some s =>
      obtain ⟨p, len⟩ := s
      simp only [Option.mem_some_iff, forall_eq']
      refine Confined.ite (fun hzero => ?_) fun _ => payload_confined.map
      exact confined_pure_of (.inl hzero)

theorem rpIdHashOf_finds : (rpIdHashOf rpId).Returns m fun r => r = m.hashOf rpId := by
  intro r hr
  cases rpId with
  | none => exact (Option.some.inj hr).symm
  | some s =>
      obtain ⟨p, len⟩ := s
      have hlen : len = (m.slice p len).length := (Mem.slice_length m p len).symm
      have hhash : (rpIdHashOf (some (p, len))).run m = some (rpHash (m.slice p len)) := by
        conv_lhs => rw [hlen]
        exact rpIdHashOf_rpHash (by rw [Mem.Holds, Mem.slice_length])
      exact Option.some.inj (hr.symm.trans hhash)

end

/-! ## After the touch -/

/-- rp.id, as MakeCredential reads it. -/
noncomputable def Mem.rpIdAt (m : Mem) (env : Env) (n : ℕ) : Option (ℕ × ℕ) :=
  ((m.itemAt 1 (n - 1) 0x02).pointer env).bind fun s => m.textAt s.1 s.2 (ascii "id")

noncomputable def Mem.excludeListAt (m : Mem) (env : Env) (n : ℕ) : Option (ℕ × ℕ) :=
  (m.itemAt 1 (n - 1) 0x05).pointer env

/-- The 32 bytes at `p` are the id of a credential of the relying party. -/
def Mem.NamesCredential (m : Mem) (flash : Mem) (rpIdHash : Bytes 32) (p : ℕ) : Prop :=
  ExcludedId flash rpIdHash (Bytes.fill 0 32 (m.slice p 32))

/-- Some 32 bytes of the list are. -/
def Mem.Excludes (m : Mem) (flash : Mem) (rpIdHash : Bytes 32) (list : Option (ℕ × ℕ)) : Prop :=
  ∃ s ∈ list, 32 < s.2 ∧ ∃ j < s.2 - 31, m.NamesCredential flash rpIdHash (s.1 + j)

/-- The scan of the list, up to the first 32 bytes which are. -/
def Mem.LooksExcluded (m : Mem) (flash : Mem) (rpIdHash : Bytes 32) (list : Option (ℕ × ℕ))
    (n : ℕ) : Prop :=
  ∀ s ∈ list, 32 < s.2 → ∀ j < s.2 - 31,
    (∀ i < j, ¬ m.NamesCredential flash rpIdHash (s.1 + i)) → s.1 + j + 32 ≤ n

/-- user.id and the name, as MakeCredential reads them. -/
noncomputable def Mem.userOf (m : Mem) : Option (ℕ × ℕ) → Option (ℕ × ℕ) × Option (ℕ × ℕ)
  | none => (none, none)
  | some s => (m.textAt s.1 s.2 (ascii "id"),
      (m.textAt s.1 s.2 (ascii "name")).or (m.textAt s.1 s.2 (ascii "displayName")))

noncomputable def Mem.userAt (m : Mem) (env : Env) (n : ℕ) :
    Option (ℕ × ℕ) × Option (ℕ × ℕ) :=
  m.userOf ((m.itemAt 1 (n - 1) 0x03).pointer env)

def Mem.LooksUser (m : Mem) (user : Option (ℕ × ℕ)) (n : ℕ) : Prop :=
  ∀ s ∈ user, m.LooksText s.1 s.2 (ascii "id") n ∧ m.LooksText s.1 s.2 (ascii "name") n ∧
    (m.textAt s.1 s.2 (ascii "name") = none → m.LooksText s.1 s.2 (ascii "displayName") n)

/-- A slot whose user id is compared: it holds a credential of the relying party with a user
id of this length. -/
def ComparesUser (flash : Mem) (rpIdHash : Bytes 32) (userIdLen : ℕ) (i : Slot) : Prop :=
  (flash.slotKey i).magic = passkeyMagic ∧ (flash.slotKey i).rpIdHash = rpIdHash ∧
    (flash.slotKey i).userIdLen.toNat = userIdLen

/-- The bytes of the string, `bound` of them at most, lie below `n`; the length is that of
a `uint8_t`. -/
def StringKept (n : ℕ) (s : Option (ℕ × ℕ)) (bound : ℕ) : Prop :=
  ∀ q ∈ s, PayloadBelow n q.1 (min (u8 q.2) bound)

/-- The slot in which the credential is saved. -/
def Mem.slotFor (m : Mem) (flash : Mem) (rpIdHash : Bytes 32) (userId : Option (ℕ × ℕ)) :
    Option Slot :=
  saveSlot flash rpIdHash (m.slice (userId.getD (0, 0)).1 (u8 (userId.getD (0, 0)).2))

/-- `passkey_save`: the user id is compared as a whole, and what is saved is cut. -/
def Mem.LooksSaved (m : Mem) (flash : Mem) (rpIdHash : Bytes 32)
    (rpId userId userName : Option (ℕ × ℕ)) (n : ℕ) : Prop :=
  ((∃ i, ComparesUser flash rpIdHash (u8 (userId.getD (0, 0)).2) i) → StringKept n userId 255) ∧
    (m.slotFor flash rpIdHash userId ≠ none →
      StringKept n rpId 32 ∧ StringKept n userId 64 ∧ StringKept n userName 32)

/-- The part of MakeCredential after the touch. -/
def Mem.LooksRegistered (m : Mem) (env : Env) (flash : Mem) (n : ℕ) (cdh : Option (ℕ × ℕ)) :
    Prop :=
  let rpId := m.rpIdAt env n
  let user := m.userAt env n
  m.LooksItem 1 (n - 1) 0x02 n ∧
    (∀ s ∈ (m.itemAt 1 (n - 1) 0x02).pointer env, m.LooksText s.1 s.2 (ascii "id") n) ∧
    (∀ s ∈ rpId, PayloadBelow n s.1 s.2) ∧
    m.LooksItem 1 (n - 1) 0x05 n ∧
    m.LooksExcluded flash (m.hashOf rpId) (m.excludeListAt env n) n ∧
    (¬ m.Excludes flash (m.hashOf rpId) (m.excludeListAt env n) →
      m.LooksItem 1 (n - 1) 0x03 n ∧
      m.LooksUser ((m.itemAt 1 (n - 1) 0x03).pointer env) n ∧
      m.LooksSaved flash (m.hashOf rpId) rpId user.1 user.2 n ∧
      (m.slotFor flash (m.hashOf rpId) user.1 ≠ none → ∀ s ∈ cdh, PayloadBelow n s.1 32))

section

variable {m flash : Mem} {n p : ℕ} {env : Env} {d : Device} {rpIdHash : Bytes 32}
  {rpId userId userName cdh item list : Option (ℕ × ℕ)} {verified : Option (List UInt8)}

theorem rpIdOf_confined : (rpIdOf item).Confined m n
    (∀ s ∈ item, m.LooksText s.1 s.2 (ascii "id") n) := by
  cases item with
  | none => exact confined_pure_of (by simp)
  | some s => exact cborMapGetString_confined.congr (by simp)

theorem rpIdOf_finds : (rpIdOf item).Returns m
    fun r => r = item.bind fun s => m.textAt s.1 s.2 (ascii "id") := by
  cases item with
  | none => exact Returns.pure rfl
  | some s => exact cborMapGetString_finds

/-- A scan of one more position looks here, and goes on with the rest unless it hits here. -/
theorem scanBelow_succ {hit : ℕ → Prop} {left : ℕ} :
    (∀ j < left + 1, (∀ i < j, ¬ hit (p + i)) → p + j + 32 ≤ n) ↔
      PayloadBelow n p 32 ∧ (¬ hit p →
        ∀ j < left, (∀ i < j, ¬ hit (p + 1 + i)) → p + 1 + j + 32 ≤ n) := by
  constructor
  · intro hall
    refine ⟨.inr (hall 0 (by omega) fun i hi => absurd hi (by omega)),
      fun hmiss j hj hbefore => ?_⟩
    have hlater := hall (j + 1) (by omega) fun i hi => ?_
    · omega
    · cases i with
      | zero => exact hmiss
      | succ i =>
          rw [Nat.add_comm i 1, ← Nat.add_assoc]
          exact hbefore i (by omega)
  · rintro ⟨hhere, hrest⟩ j hj hbefore
    have hfirst : p + 32 ≤ n := hhere.resolve_left (by omega)
    cases j with
    | zero => exact hfirst
    | succ j =>
        have hlater := hrest (hbefore 0 (by omega)) j (by omega) fun i hi => by
          rw [Nat.add_assoc, Nat.add_comm 1]
          exact hbefore (i + 1) (by omega)
        omega

theorem excluded_confined (left p : ℕ) : (excluded flash rpIdHash left p).Confined m n
    (∀ j < left, (∀ i < j, ¬ m.NamesCredential flash rpIdHash (p + i)) → p + j + 32 ≤ n) := by
  induction left generalizing p with
  | zero => exact confined_pure_of (by simp)
  | succ left ih =>
      rw [excluded]
      refine (payload_confined.bind_run fun _ id hid => ?_).congr scanBelow_succ.symm
      obtain rfl := Option.some.inj ((run_bytes p 32 m).symm.trans hid)
      cases hfound : passkeyFindByCredId flash (Bytes.fill 0 32 (m.slice p 32)) with
      | none =>
          have hmiss : ¬ m.NamesCredential flash rpIdHash p := by
            rintro ⟨i, hi, -⟩
            rw [hfound] at hi
            cases hi
          exact (ih (p + 1)).asked hmiss
      | some i =>
          have hnames : m.NamesCredential flash rpIdHash p ↔
              (flash.slotKey i).rpIdHash = rpIdHash := by
            simp [Mem.NamesCredential, ExcludedId, hfound]
          refine Confined.ite (fun hrp => ?_) fun hrp => ?_
          · exact confined_pure_of fun h => absurd (hnames.2 hrp) h
          · exact (ih (p + 1)).asked (mt hnames.1 hrp)

theorem excludeListHit_confined : (excludeListHit flash rpIdHash list).Confined m n
    (m.LooksExcluded flash rpIdHash list n) := by
  unfold excludeListHit Mem.LooksExcluded
  cases list with
  | none => exact confined_pure_of (by simp)
  | some s =>
      obtain ⟨p, len⟩ := s
      simp only [Option.mem_some_iff, forall_eq']
      by_cases hlong : len > 32
      · rw [if_pos hlong, forall_prop_of_true hlong]
        exact excluded_confined (len - 31) p
      · rw [if_neg hlong]
        exact confined_unasked hlong

theorem excludeListHit_finds : (excludeListHit flash rpIdHash list).Returns m fun hit =>
    hit = true ↔ m.Excludes flash rpIdHash list := by
  unfold excludeListHit Mem.Excludes
  cases list with
  | none => exact Returns.pure (by simp)
  | some s =>
      obtain ⟨p, len⟩ := s
      simp only [Option.mem_some_iff, exists_eq_left']
      refine Returns.ite (fun hlong => ?_) fun hshort => Returns.pure
        (iff_of_false Bool.false_ne_true fun h => hshort h.1)
      intro hit hrun
      obtain ⟨hit', hrun', hiff⟩ := excluded_run flash rpIdHash (m := m) (len - 31) p
      obtain rfl := Option.some.inj (hrun.symm.trans hrun')
      exact hiff.trans (and_iff_right hlong).symm

theorem userStrings_confined : (userStrings item).Confined m n (m.LooksUser item n) := by
  unfold userStrings Mem.LooksUser
  cases item with
  | none => exact confined_pure_of (by simp)
  | some s =>
      simp only [Option.mem_some_iff, forall_eq']
      refine cborMapGetString_confined.bind_run fun _ userId _ =>
        cborMapGetString_confined.bind cborMapGetString_finds fun _ => ?_
      cases m.textAt s.1 s.2 (ascii "name") with
      | none => exact cborMapGetString_confined.map.congr (by simp)
      | some name => exact confined_pure_of (by simp)

theorem userStrings_finds : (userStrings item).Returns m fun user => user = m.userOf item := by
  unfold userStrings
  cases item with
  | none => exact Returns.pure rfl
  | some s =>
      refine Returns.bind_of cborMapGetString_finds fun userId hid =>
        Returns.bind_of cborMapGetString_finds fun name hname => ?_
      rw [Mem.userOf, ← hid, ← hname]
      cases name with
      | some name => exact Returns.pure rfl
      | none =>
          refine Returns.bind_of cborMapGetString_finds fun display hdisplay =>
            Returns.pure ?_
          rw [hdisplay]
          rfl

/-! ### Saving -/

theorem sameAccount_confined {userIdLen : UInt8} (i : Slot) :
    (sameAccount flash rpIdHash p userIdLen i).Confined m n
      (ComparesUser flash rpIdHash userIdLen.toNat i → PayloadBelow n p userIdLen.toNat) := by
  unfold sameAccount ComparesUser
  refine Confined.ite (fun h => ?_) fun hmagic => Confined.ite (fun h => ?_) fun hhash =>
    Confined.ite (fun h => ?_) fun hlen => ?_
  · exact confined_pure_of fun hc => absurd hc.1 h
  · exact confined_pure_of fun hc => absurd hc.2.1 h
  · exact confined_pure_of fun hc => absurd (UInt8.toNat_inj.1 hc.2.2) h
  · rw [not_not] at hmagic hhash hlen
    exact payload_confined.map.congr
      (imp_iff_right ⟨hmagic, hhash, congrArg UInt8.toNat hlen⟩).symm

theorem comparesUser_of_same {userIdLen : UInt8} {i : Slot}
    (h : (sameAccount flash rpIdHash p userIdLen i).run m = some true) :
    ComparesUser flash rpIdHash userIdLen.toNat i := by
  rw [sameAccount_run, Option.some.injEq, holdsUser, decide_eq_true_iff,
    Mem.slice_length] at h
  exact ⟨h.1, h.2.1, h.2.2.1⟩

/-- The search compares up to the first slot of the account; all comparisons look at the
same bytes. -/
theorem findSaveSlot_confined {userIdLen : UInt8} (rest : List Slot) (slot : Option Slot) :
    (findSaveSlot flash (sameAccount flash rpIdHash p userIdLen) rest slot).Confined m n
      ((∃ i ∈ rest, ComparesUser flash rpIdHash userIdLen.toNat i) →
        PayloadBelow n p userIdLen.toNat) := by
  induction rest generalizing slot with
  | nil => exact confined_pure_of (by simp)
  | cons i rest ih =>
      rw [findSaveSlot]
      simp only [List.mem_cons, exists_eq_or_imp, or_imp]
      refine Confined.ite (fun hempty => ?_) fun _ => ?_
      · have hmiss : ¬ ComparesUser flash rpIdHash userIdLen.toNat i := fun h =>
          passkeyMagic_ne_emptyMagic (h.1.symm.trans hempty)
        exact (ih _).congr (and_iff_right fun h => absurd h hmiss).symm
      · refine (sameAccount_confined i).bind_run fun hhere same hsame => ?_
        refine Confined.ite (fun hhit => ?_) fun _ => ih slot
        subst hhit
        exact confined_pure_of fun _ => hhere (comparesUser_of_same hsame)

theorem minByte_toNat (a bound : UInt8) :
    (minByte a bound).toNat = min a.toNat bound.toNat := by
  unfold minByte
  split_ifs with hlt
  · exact (min_eq_right (UInt8.lt_iff_toNat_lt.1 hlt).le).symm
  · exact (min_eq_left (Nat.le_of_not_lt fun h => hlt (UInt8.lt_iff_toNat_lt.2 h))).symm

theorem ofNat_toNat_u8 (k : ℕ) : (UInt8.ofNat k).toNat = u8 k := UInt8.toNat_ofNat'

theorem stringKept_iff {s : Option (ℕ × ℕ)} {bound : ℕ} : StringKept n s bound ↔
    PayloadBelow n (s.getD (0, 0)).1 (min (u8 (s.getD (0, 0)).2) bound) := by
  unfold StringKept
  cases s with
  | none => exact iff_of_true (by simp) (.inl (Nat.zero_min bound))
  | some q => simp

theorem saveCredential_finds :
    (saveCredential env flash rpIdHash rpId userId userName).Returns m fun saved =>
      saved.1 ≠ 0 ↔ m.slotFor flash rpIdHash userId = none := by
  intro saved hsaved
  rw [saveCredential, passkeySave_run, ofNat_toNat_u8, Option.some.injEq] at hsaved
  subst hsaved
  unfold Mem.slotFor
  cases saveSlot flash rpIdHash
      (m.slice (userId.getD (0, 0)).1 (u8 (userId.getD (0, 0)).2)) with
  | none => exact iff_of_true (by simp) rfl
  | some i => exact iff_of_false (by simp) (by simp)

theorem saveCredential_confined :
    (saveCredential env flash rpIdHash rpId userId userName).Confined m n
      (m.LooksSaved flash rpIdHash rpId userId userName n) := by
  have hwhole : StringKept n userId 255 ↔
      PayloadBelow n (userId.getD (0, 0)).1 (u8 (userId.getD (0, 0)).2) := by
    have hbyte : u8 (userId.getD (0, 0)).2 < 256 := Nat.mod_lt _ (by omega)
    rw [stringKept_iff, min_eq_left (by omega)]
  unfold saveCredential passkeySave Mem.LooksSaved
  rw [hwhole, stringKept_iff, stringKept_iff, stringKept_iff]
  have hsearch : (findSaveSlot flash (sameAccount flash rpIdHash (userId.getD (0, 0)).1
      (UInt8.ofNat (userId.getD (0, 0)).2)) slots none).Confined m n
      ((∃ i ∈ slots, ComparesUser flash rpIdHash
        (UInt8.ofNat (userId.getD (0, 0)).2).toNat i) →
        PayloadBelow n (userId.getD (0, 0)).1 (UInt8.ofNat (userId.getD (0, 0)).2).toNat) :=
    findSaveSlot_confined slots none
  rw [ofNat_toNat_u8] at hsearch
  have hall : (∃ i ∈ slots, ComparesUser flash rpIdHash (u8 (userId.getD (0, 0)).2) i) ↔
      ∃ i, ComparesUser flash rpIdHash (u8 (userId.getD (0, 0)).2) i :=
    exists_congr fun i => and_iff_right (List.mem_finRange i)
  rw [hall] at hsearch
  refine hsearch.bind_run fun _ slot hslot => ?_
  rw [findSaveSlot_run, ofNat_toNat_u8, Option.some.injEq] at hslot
  subst hslot
  unfold Mem.slotFor
  have h32 : (32 : UInt8).toNat = 32 := rfl
  have h64 : (64 : UInt8).toNat = 64 := rfl
  cases saveSlot flash rpIdHash
      (m.slice (userId.getD (0, 0)).1 (u8 (userId.getD (0, 0)).2)) with
  | none => exact confined_pure_of (by simp)
  | some i =>
      simp only [minByte_toNat, ofNat_toNat_u8, h32, h64]
      exact (payload_confined.bind_run fun _ _ _ => payload_confined.bind_run fun _ _ _ =>
        payload_confined.map).congr (by simp)

theorem attestedCdh_confined :
    (attestedCdh cdh).Confined m n (∀ s ∈ cdh, PayloadBelow n s.1 32) := by
  cases cdh with
  | none => exact confined_pure_of (by simp)
  | some s => exact payload_confined.congr (by simp)

theorem registerCredential_confined {verified : Option (List UInt8)} :
    (registerCredential env d n cdh verified).Confined m n
      (m.LooksRegistered env d.flash.mem n cdh) := by
  unfold registerCredential Mem.LooksRegistered
  refine getCborMapItem_confined.bind getCborMapItem_finds fun _ => ?_
  refine rpIdOf_confined.bind rpIdOf_finds fun _ => ?_
  refine rpIdHashOf_confined.bind rpIdHashOf_finds fun _ => ?_
  refine getCborMapItem_confined.bind getCborMapItem_finds fun _ => ?_
  refine excludeListHit_confined.bind_test excludeListHit_finds (fun _ hhit => ?_)
    fun _ hmiss => ?_
  · exact confined_pure_of fun h => absurd hhit h
  · refine Confined.asked ?_ hmiss
    refine getCborMapItem_confined.bind getCborMapItem_finds fun _ => ?_
    refine userStrings_confined.bind userStrings_finds fun _ => ?_
    refine saveCredential_confined.bind_run fun _ saved hsaved => ?_
    have hslot := saveCredential_finds saved hsaved
    refine Confined.ite (fun hfull => ?_) fun hroom => ?_
    · exact confined_pure_of fun h => absurd (hslot.1 hfull) h
    · exact attestedCdh_confined.map.asked (mt hslot.2 hroom)

end

/-! ## The command -/

/-- The options which end a MakeCredential without a pinUvAuthParam. -/
def Mem.RefusesOptions (m : Mem) (ptr n : ℕ) (pinSet : Bool) : Prop :=
  FirstSays m ptr (searchLen n ptr) (ascii "uv") 0xF5 ∨
    FirstSays m ptr (searchLen n ptr) (ascii "rk") 0xF5 ∧ pinSet = true

/-- From the touch wait on. -/
def Mem.LooksTouched (m : Mem) (env : Env) (flash : Mem) (n : ℕ) (cdh : Option (ℕ × ℕ)) :
    Prop :=
  env.presence = .confirmed → m.LooksRegistered env flash n cdh

def Mem.LooksMakeCredential (m : Mem) (env : Env) (d : Device) (n : ℕ) : Prop :=
  let cdh := m.stringAt 1 (n - 1) 0x01
  m.LooksValue 1 (n - 1) 0x01 n ∧ m.LooksValue 1 (n - 1) 0x08 n ∧
    match m.stringAt 1 (n - 1) 0x08 with
    | some s => s.2 ≠ 0 → m.LooksValue 1 (n - 1) 0x07 n ∧ d.pin.LooksParam cdh n s.1 s.2 ∧
        (d.pin.Accepts m cdh s.1 s.2 → m.LooksTouched env d.flash.mem n cdh)
    | none => m.LooksValue 1 (n - 1) 0x07 n ∧
        match m.valueAt 1 (n - 1) 0x07 with
        | none => m.LooksTouched env d.flash.mem n cdh
        | some v => m.LooksOption v.ptr n "uv" ∧ m.LooksOption v.ptr n "rk" ∧
            (¬ m.RefusesOptions v.ptr n (pinLoad d.flash.mem).isSome →
              m.LooksTouched env d.flash.mem n cdh)

section

variable {m : Mem} {n ptr : ℕ} {env : Env} {d : Device} {cdh : Option (ℕ × ℕ)}
  {verified : Option (List UInt8)} {pinSet : Bool}

theorem waitAndRegister_confined : (waitAndRegister env d n cdh verified).Confined m n
    (m.LooksTouched env d.flash.mem n cdh) := by
  unfold waitAndRegister Mem.LooksTouched
  refine Confined.ite (fun hrefused => ?_) fun hconfirmed => ?_
  · have hnot := mt (presence_status_eq_zero_iff _).2 hrefused
    exact confined_unasked hnot
  · rw [not_not, presence_status_eq_zero_iff] at hconfirmed
    exact (registerCredential_confined (d := d.waited env)).asked hconfirmed

theorem optionsRefused_confined (hptr : ptr ≤ n) (hn : n < 65536) :
    (optionsRefused pinSet ptr n).Confined m n
      (m.LooksOption ptr n "uv" ∧ m.LooksOption ptr n "rk") :=
  ((hasOption_confined "uv" hptr hn).bind_run fun _ _ _ =>
    (hasOption_confined "rk" hptr hn).bind_run fun _ _ _ =>
      Confined.ite (fun _ => confined_pure) fun _ =>
        Confined.ite (fun _ => confined_pure) fun _ => confined_pure).congr (by simp)

theorem optionsRefused_finds : (optionsRefused pinSet ptr n).Returns m fun refused =>
    refused ≠ none ↔ m.RefusesOptions ptr n pinSet := by
  unfold optionsRefused Mem.RefusesOptions
  refine Returns.bind_of (hasOption_returns (searchLen_lt _ _) "uv") fun uv huv =>
    Returns.bind_of (hasOption_returns (searchLen_lt _ _) "rk") fun rk hrk => ?_
  rw [← huv, ← hrk]
  refine Returns.ite (fun h => Returns.pure ?_) fun hnot =>
    Returns.ite (fun h => Returns.pure ?_) fun hnot' => Returns.pure ?_
  · exact iff_of_true (by simp) (.inl h)
  · exact iff_of_true (by simp) (.inr h)
  · exact iff_of_false (by simp) (not_or.2 ⟨hnot, hnot'⟩)

theorem makeCredential_confined (hn : n < 65536) :
    (makeCredential env d n).Confined m n (m.LooksMakeCredential env d n) := by
  unfold makeCredential Mem.LooksMakeCredential
  refine getCborMapString_confined.bind getCborMapString_finds fun _ =>
    getCborMapString_confined.bind getCborMapString_finds fun _ => ?_
  cases m.stringAt 1 (n - 1) 0x08 with
  | some s =>
      refine Confined.ite (fun hprobe => ?_) fun hparam => ?_
      · exact confined_pure_of fun h => absurd hprobe h
      refine Confined.asked ?_ hparam
      refine getCborMapValue_confined.bind_run fun _ _ _ =>
        pinAuthValid_confined.bind_test pinAuthValid_accepts (fun _ haccepts => ?_)
          fun _ hrejects => ?_
      · exact waitAndRegister_confined.asked haccepts
      · exact confined_unasked hrejects
  | none =>
      refine getCborMapValue_confined.bind getCborMapValue_finds fun hlooks => ?_
      cases hv : m.valueAt 1 (n - 1) 0x07 with
      | none => exact waitAndRegister_confined
      | some v =>
          refine Confined.congr ((optionsRefused_confined (hlooks.ptr_le hv) hn).bind_run
            fun _ refused hrefused => ?_) and_assoc
          have hrefuses := optionsRefused_finds refused hrefused
          cases refused with
          | some status =>
              exact confined_pure_of fun h => absurd (hrefuses.1 (by simp)) h
          | none =>
              exact waitAndRegister_confined.asked (mt hrefuses.2 (by simp))

end

end UnsoloKey
