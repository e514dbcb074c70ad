import UnsoloKey.PasskeyStore
import UnsoloKey.SlotTable
import Mathlib.Tactic

/-!
# The slot store refines a bounded map

An account is what one occupied slot says: the cut strings together with the
credential id and the private key.  The five slots stand for a finite map from
accounts' keys, the relying party hash and the user id, to accounts.  A call
of `passkey_save` or `passkey_delete_by_cred_id` is one step of that map, and
an erased flash stands for the empty map.
-/

namespace UnsoloKey

open Function SlotTable

/-! ## The map -/

structure Account where
  rpIdHash : Bytes 32
  userId : List UInt8
  credentialId : Bytes 32
  privateKey : Bytes 32
  userName : List UInt8
  rpId : List UInt8
  deriving DecidableEq

abbrev AccountKey := Bytes 32 × List UInt8

def Account.key (a : Account) : AccountKey := (a.rpIdHash, a.userId)

abbrev AccountMap := AccountKey → Option Account

/-- The arguments of one call of `passkey_save`, together with the memory its
pointers point into. -/
structure SaveCall where
  src : Mem
  rpIdHash : Bytes 32
  rpId : ℕ
  rpIdLen : UInt8
  userId : ℕ
  userIdLen : UInt8
  userName : ℕ
  userNameLen : UInt8
  credentialId : Bytes 32
  privateKey : Bytes 32

/-- What the call asks to be stored. -/
def SaveCall.account (c : SaveCall) : Account where
  rpIdHash := c.rpIdHash
  userId := c.src.slice c.userId c.userIdLen.toNat
  credentialId := c.credentialId
  privateKey := c.privateKey
  userName := (c.src.slice c.userName c.userNameLen.toNat).take 32
  rpId := (c.src.slice c.rpId c.rpIdLen.toNat).take 32

inductive StoreCall where
  | save (c : SaveCall)
  | delete (credentialId : Bytes 32)

/-- One call as a step of the map, with its result. -/
inductive MapStep (capacity : ℕ) :
    AccountMap → StoreCall → ℤ → AccountMap → Prop
  | replace {map : AccountMap} {c : SaveCall} {old : Account}
      (hkey : map c.account.key = some old) :
      MapStep capacity map (.save c) 0
        (update map c.account.key (some c.account))
  | add {map : AccountMap} {c : SaveCall}
      (hkey : map c.account.key = none)
      (hroom : {k | map k ≠ none}.ncard < capacity) :
      MapStep capacity map (.save c) 0
        (update map c.account.key (some c.account))
  | full {map : AccountMap} {c : SaveCall}
      (hkey : map c.account.key = none)
      (hfull : {k | map k ≠ none}.ncard = capacity) :
      MapStep capacity map (.save c) (-1) map
  | delete {map : AccountMap} {k : AccountKey} {a : Account}
      (hkey : map k = some a)
      (honly : ∀ k' a', map k' = some a' →
        a'.credentialId = a.credentialId → k' = k) :
      MapStep capacity map (.delete a.credentialId) 0 (update map k none)
  | absent {map : AccountMap} {credentialId : Bytes 32}
      (habsent : ∀ k a, map k = some a → a.credentialId ≠ credentialId) :
      MapStep capacity map (.delete credentialId) (-1) map

inductive MapRun (capacity : ℕ) :
    List StoreCall → List ℤ → AccountMap → Prop
  | start : MapRun capacity [] [] fun _ => none
  | step {calls : List StoreCall} {results : List ℤ} {map map' : AccountMap}
      {call : StoreCall} {r : ℤ} (hrun : MapRun capacity calls results map)
      (hstep : MapStep capacity map call r map') :
      MapRun capacity (calls ++ [call]) (results ++ [r]) map'

/-! ## The store -/

def StoreCall.exec (flash : Mem) : StoreCall → Option (ℤ × Mem)
  | .save c =>
      ((passkeySave flash c.rpIdHash c.rpId c.rpIdLen c.userId c.userIdLen
        c.userName c.userNameLen c.credentialId c.privateKey).run c.src).map
          fun result => (result.1, flash.after result.2)
  | .delete credentialId =>
      let result := passkeyDeleteByCredId flash credentialId
      some (result.1, flash.after result.2)

inductive StoreRun (flash₀ : Mem) : List StoreCall → List ℤ → Mem → Prop
  | start : StoreRun flash₀ [] [] flash₀
  | step {calls : List StoreCall} {results : List ℤ} {flash flash' : Mem}
      {call : StoreCall} {r : ℤ} (hrun : StoreRun flash₀ calls results flash)
      (hstep : call.exec flash = some (r, flash')) :
      StoreRun flash₀ (calls ++ [call]) (results ++ [r]) flash'

def ResidentKey.account (k : ResidentKey) : Account where
  rpIdHash := k.rpIdHash
  userId := k.userId.val.take k.userIdLen.toNat
  credentialId := k.credentialId
  privateKey := k.privateKey
  userName := k.userName.val.take k.userNameLen.toNat
  rpId := k.rpId.val.take k.rpIdLen.toNat

/-- The account in a slot, `none` for a slot which is not occupied. -/
def slotAccount (m : Mem) (i : Slot) : Option Account :=
  if (m.slotKey i).isOccupied then some (m.slotKey i).account else none

/-- Every slot is erased or holds a struct of `passkey_save`. -/
def SlotsWellFormed (m : Mem) : Prop :=
  ∀ i, (m.slotKey i).magic = emptyMagic ∨
    (m.slotKey i).magic = passkeyMagic ∧ (m.slotKey i).userIdLen ≤ 64

/-- The flash stands for the map, and every query agrees with it. -/
structure StoreAgrees (m : Mem) (map : AccountMap) : Prop where
  represents : Represents Account.key (slotAccount m) map
  bounded : {k | map k ≠ none}.ncard ≤ passkeyNumSlots
  countAll : passkeyCountAll m = {k | map k ≠ none}.ncard
  findByCredId_some : ∀ credentialId i,
    passkeyFindByCredId m credentialId = some i → ∃ a,
      slotAccount m i = some a ∧ map a.key = some a ∧
        a.credentialId = credentialId
  findByCredId_none : ∀ credentialId,
    passkeyFindByCredId m credentialId = none ↔
      ∀ k a, map k = some a → a.credentialId ≠ credentialId
  findByRp_some : ∀ rpIdHash i, passkeyFindByRp m rpIdHash = some i → ∃ a,
    slotAccount m i = some a ∧ map a.key = some a ∧ a.rpIdHash = rpIdHash
  findByRp_none : ∀ rpIdHash, passkeyFindByRp m rpIdHash = none ↔
    ∀ k a, map k = some a → a.rpIdHash ≠ rpIdHash

/-! ## Reading slots -/

theorem passkeyMagic_ne_emptyMagic : passkeyMagic ≠ emptyMagic := by decide

theorem isOccupied_iff {k : ResidentKey} :
    k.isOccupied = true ↔ k.magic = passkeyMagic := by
  simp [ResidentKey.isOccupied]

theorem slotAccount_eq_some_iff {m : Mem} {i : Slot} {a : Account} :
    slotAccount m i = some a ↔
      (m.slotKey i).magic = passkeyMagic ∧ (m.slotKey i).account = a := by
  unfold slotAccount
  split_ifs with hocc
  · simp [isOccupied_iff.1 hocc]
  · have hmagic : (m.slotKey i).magic ≠ passkeyMagic :=
      fun h => hocc (isOccupied_iff.2 h)
    simp [hmagic]

theorem slotAccount_isSome {m : Mem} {i : Slot} :
    (slotAccount m i).isSome = (m.slotKey i).isOccupied := by
  unfold slotAccount
  split_ifs with hocc <;> simp [hocc]

theorem slotAccount_eq_none_iff {m : Mem} (hwf : SlotsWellFormed m) {i : Slot} :
    slotAccount m i = none ↔ (m.slotKey i).magic = emptyMagic := by
  rw [← Option.not_isSome_iff_eq_none, slotAccount_isSome, isOccupied_iff]
  constructor
  · intro hne
    cases hwf i with
    | inl hempty => exact hempty
    | inr hocc => exact absurd hocc.1 hne
  · intro hempty hocc
    exact passkeyMagic_ne_emptyMagic (hocc.symm.trans hempty)

theorem find_slots_eq_some {p : Slot → Bool} {i : Slot}
    (h : slots.find? p = some i) : p i = true := List.find?_some h

theorem find_slots_eq_none {p : Slot → Bool} :
    slots.find? p = none ↔ ∀ i, p i = false := by
  simp [List.find?_eq_none, mem_slots]

section Queries

variable {m : Mem} {map : AccountMap}
  (h : Represents Account.key (slotAccount m) map)
include h

theorem query_some {q : Account → Prop} [DecidablePred q] {i : Slot}
    (hfind : slots.find? (fun i => (m.slotKey i).isOccupied ∧
      q (m.slotKey i).account) = some i) :
    ∃ a, slotAccount m i = some a ∧ map a.key = some a ∧ q a := by
  have hi := find_slots_eq_some hfind
  simp only [Bool.decide_and, Bool.and_eq_true, decide_eq_true_eq] at hi
  have hslot : slotAccount m i = some (m.slotKey i).account :=
    slotAccount_eq_some_iff.2 ⟨isOccupied_iff.1 hi.1, rfl⟩
  exact ⟨_, hslot, h.lookup hslot, hi.2⟩

theorem query_none {q : Account → Prop} [DecidablePred q] :
    slots.find? (fun i => (m.slotKey i).isOccupied ∧
      q (m.slotKey i).account) = none ↔ ∀ k a, map k = some a → ¬ q a := by
  rw [find_slots_eq_none]
  constructor
  · intro hnone k a hlookup hq
    rcases (h.lookup_iff k a).1 hlookup with ⟨i, hslot, -⟩
    rcases slotAccount_eq_some_iff.1 hslot with ⟨hmagic, hacc⟩
    have hi := hnone i
    simp [isOccupied_iff.2 hmagic, hacc, hq] at hi
  · intro habsent i
    by_cases hocc : (m.slotKey i).isOccupied
    · have hslot : slotAccount m i = some (m.slotKey i).account :=
        slotAccount_eq_some_iff.2 ⟨isOccupied_iff.1 hocc, rfl⟩
      simp [habsent _ _ (h.lookup hslot)]
    · simp [hocc]

theorem countAll_eq : passkeyCountAll m = {k | map k ≠ none}.ncard := by
  rw [h.ncard_eq]
  simp only [slotAccount_isSome]
  unfold passkeyCountAll slots
  rw [Finset.card_filter, Fin.sum_univ_def, List.countP_eq_length_filter]
  induction List.finRange passkeyNumSlots with
  | nil => rfl
  | cons i rest ih =>
      by_cases hocc : (m.slotKey i).isOccupied
      · simp [hocc, ih, Nat.add_comm]
      · simp [hocc, ih]

theorem storeAgrees : StoreAgrees m map where
  represents := h
  bounded := by simpa using h.ncard_le
  countAll := countAll_eq h
  findByCredId_some := fun credentialId i hfind =>
    query_some h (q := fun a => a.credentialId = credentialId) hfind
  findByCredId_none := fun credentialId =>
    query_none h (q := fun a => a.credentialId = credentialId)
  findByRp_some := fun rpIdHash i hfind =>
    query_some h (q := fun a => a.rpIdHash = rpIdHash) hfind
  findByRp_none := fun rpIdHash =>
    query_none h (q := fun a => a.rpIdHash = rpIdHash)

end Queries

/-! ## A call of passkey_save -/

theorem freshKey_account (c : SaveCall) (hfits : c.userIdLen.toNat ≤ 64)
    {rpId userId userName : List UInt8}
    (hrp : rpId = c.account.rpId) (hid : userId = c.account.userId)
    (hname : userName = c.account.userName) :
    (newKey c.rpIdHash rpId userId userName c.credentialId
      c.privateKey).account = c.account := by
  have hcut : ∀ {bs : List UInt8} {n : ℕ}, bs.length ≤ n → n ≤ 64 →
      (Bytes.fill 0xFF n bs).val.take (UInt8.ofNat bs.length).toNat = bs := by
    intro bs n hbs hn
    have hlen : (UInt8.ofNat bs.length).toNat = bs.length := by
      rw [UInt8.toNat_ofNat']
      omega
    rw [hlen]
    exact Bytes.fill_take hbs
  have hrpLen : rpId.length ≤ 32 := by simp [hrp, SaveCall.account]
  have hidLen : userId.length ≤ 64 := by simpa [hid, SaveCall.account]
  have hnameLen : userName.length ≤ 32 := by simp [hname, SaveCall.account]
  subst hrp hid hname
  simp only [ResidentKey.account, newKey]
  rw [hcut hrpLen (by omega), hcut hidLen (by omega), hcut hnameLen (by omega)]
  rfl

theorem slice_minByte (m : Mem) (p : ℕ) (n bound : UInt8) :
    m.slice p (minByte n bound).toNat = (m.slice p n.toNat).take bound.toNat := by
  unfold minByte
  split_ifs with hlt
  · have hle : bound.toNat ≤ n.toNat := (UInt8.lt_iff_toNat_lt.1 hlt).le
    rw [Mem.slice_take _ _ _ _ hle]
  · have hle : n.toNat ≤ bound.toNat :=
      Nat.le_of_not_lt fun h => hlt (UInt8.lt_iff_toNat_lt.2 h)
    rw [List.take_of_length_le (by simpa using hle)]

def holdsKey (m : Mem) (k : AccountKey) (i : Slot) : Bool :=
  (m.slotKey i).magic = passkeyMagic ∧ (m.slotKey i).account.key = k

theorem holdsKey_iff {m : Mem} {k : AccountKey} {i : Slot} :
    holdsKey m k i = true ↔ ∃ a, slotAccount m i = some a ∧ a.key = k := by
  simp [holdsKey, slotAccount_eq_some_iff]

theorem run_sameAccount {flash : Mem} (hwf : SlotsWellFormed flash)
    (c : SaveCall) (i : Slot) :
    (sameAccount flash c.rpIdHash c.userId c.userIdLen i).run c.src =
      some (holdsKey flash c.account.key i) := by
  unfold sameAccount holdsKey
  by_cases hmagic : (flash.slotKey i).magic = passkeyMagic
  · by_cases hhash : (flash.slotKey i).rpIdHash = c.rpIdHash
    · have hfits : (flash.slotKey i).userIdLen ≤ 64 := by
        cases hwf i with
        | inl hempty =>
            exact absurd (hmagic.symm.trans hempty) passkeyMagic_ne_emptyMagic
        | inr hocc => exact hocc.2
      have hfits : (flash.slotKey i).userIdLen.toNat ≤ 64 :=
        UInt8.le_iff_toNat_le.1 hfits
      have hstored : (flash.slotKey i).account.userId = flash.slice
          (slotAddr i + 37) (flash.slotKey i).userIdLen.toNat :=
        Mem.slice_take flash _ _ _ hfits
      by_cases hlen : (flash.slotKey i).userIdLen = c.userIdLen
      · simp [hmagic, hhash, hlen, Account.key, hstored, SaveCall.account]
        simp [ResidentKey.account, hhash]
      · have hne : (flash.slotKey i).account.userId ≠ c.account.userId := by
          intro heq
          have hlengths := congrArg List.length heq
          rw [hstored] at hlengths
          simp only [SaveCall.account, Mem.slice_length] at hlengths
          exact hlen (UInt8.toNat_inj.1 hlengths)
        simp [hmagic, hhash, hlen, Account.key, hne]
    · have hne : (flash.slotKey i).account.rpIdHash ≠ c.account.rpIdHash :=
        hhash
      simp [hmagic, hhash, Account.key, hne]
  · simp [hmagic]

theorem run_findSaveSlot {flash src : Mem} {same : Slot → Rd Bool}
    {hit : Slot → Bool} (hsame : ∀ i, (same i).run src = some (hit i))
    (hfree : ∀ i, (flash.slotKey i).magic = emptyMagic → hit i = false)
    (todo : List Slot) (slot : Option Slot) :
    (findSaveSlot flash same todo slot).run src =
      some ((todo.find? hit).or (slot.or (todo.find? fun i =>
        (flash.slotKey i).magic = emptyMagic))) := by
  induction todo generalizing slot with
  | nil => cases slot <;> rfl
  | cons i rest ih =>
      unfold findSaveSlot
      by_cases hempty : (flash.slotKey i).magic = emptyMagic
      · rw [Rd.run_ite, if_pos hempty, ih]
        cases slot <;> simp [hempty, hfree i hempty]
      · rw [Rd.run_ite, if_neg hempty, Rd.run_bind, hsame]
        cases hhit : hit i with
        | true => simp [hhit]
        | false => simp [hhit, hempty, ih]

/-- The page of the slot now holds the account of the call. -/
structure Stored (c : SaveCall) (i : Slot) (m m' : Mem) : Prop where
  accounts : slotAccount m' = update (slotAccount m) i (some c.account)
  wellFormed : SlotsWellFormed m → SlotsWellFormed m'

theorem stored_write (m : Mem) (c : SaveCall) (i : Slot) {k : ResidentKey}
    (hmagic : k.magic = passkeyMagic) (hfits : k.userIdLen ≤ 64)
    (hacc : k.account = c.account) :
    Stored c i m (m.after (writePageOps (slotAddr i) k.toBytes)) := by
  have hword : k.magic < 2 ^ 32 := by
    rw [hmagic]
    decide
  have hkey := fun j => slotKey_after_write m i j hword
  constructor
  · funext j
    by_cases hji : j = i
    · subst hji
      rw [update_self, slotAccount_eq_some_iff, hkey, if_pos rfl]
      exact ⟨hmagic, hacc⟩
    · rw [update_of_ne hji]
      simp only [slotAccount, hkey, if_neg hji]
  · intro hwf j
    by_cases hji : j = i
    · rw [hkey, if_pos hji]
      exact Or.inr ⟨hmagic, hfits⟩
    · rw [hkey, if_neg hji]
      exact hwf j

/-- What a call of `passkey_save` does: it writes the slot of the account if
there is one, else a free slot if there is one, else nothing. -/
theorem exec_save {m : Mem} (hwf : SlotsWellFormed m) (c : SaveCall)
    (hfits : c.userIdLen ≤ 64) :
    (∃ i m', StoreCall.exec m (.save c) = some (0, m') ∧ Stored c i m m' ∧
      (holdsKey m c.account.key i ∨
        slotAccount m i = none ∧ ∀ j, holdsKey m c.account.key j = false)) ∨
    (StoreCall.exec m (.save c) = some (-1, m) ∧
      (∀ j, holdsKey m c.account.key j = false) ∧
      ∀ j, slotAccount m j ≠ none) := by
  have hfits' : c.userIdLen.toNat ≤ 64 := UInt8.le_iff_toNat_le.1 hfits
  have hfree : ∀ i, (m.slotKey i).magic = emptyMagic →
      holdsKey m c.account.key i = false := by
    intro i hempty
    have hne : emptyMagic ≠ passkeyMagic := passkeyMagic_ne_emptyMagic.symm
    simp [holdsKey, hempty, hne]
  have hsearch := run_findSaveSlot (run_sameAccount hwf c) hfree slots none
  have hrpId : c.src.slice c.rpId (minByte c.rpIdLen 32).toNat =
      c.account.rpId := slice_minByte _ _ _ _
  have huserName : c.src.slice c.userName (minByte c.userNameLen 32).toNat =
      c.account.userName := slice_minByte _ _ _ _
  have huserId : c.src.slice c.userId (minByte c.userIdLen 64).toNat =
      c.account.userId := by
    rw [slice_minByte]
    exact List.take_of_length_le (by simpa using hfits')
  let k := newKey c.rpIdHash c.account.rpId c.account.userId c.account.userName
    c.credentialId c.privateKey
  have hlen : k.userIdLen ≤ 64 := by
    rw [UInt8.le_iff_toNat_le]
    simp only [k, newKey, SaveCall.account, Mem.slice_length]
    rw [UInt8.toNat_ofNat']
    have hmod : c.userIdLen.toNat % 2 ^ 8 ≤ c.userIdLen.toNat := Nat.mod_le _ _
    have hbound : (64 : UInt8).toNat = 64 := rfl
    omega
  have hwrite : ∀ i, Stored c i m
      (m.after (writePageOps (slotAddr i) k.toBytes)) := fun i =>
    stored_write m c i rfl hlen (freshKey_account c hfits' rfl rfl rfl)
  have hfound : ∀ i, (findSaveSlot m (sameAccount m c.rpIdHash c.userId
        c.userIdLen) slots none).run c.src = some (some i) →
      StoreCall.exec m (.save c) =
        some (0, m.after (writePageOps (slotAddr i) k.toBytes)) := by
    intro i hi
    simp [StoreCall.exec, passkeySave, hi, hrpId, huserId, huserName, k]
  cases hhit : slots.find? (holdsKey m c.account.key) with
  | some i =>
      rw [hhit] at hsearch
      exact Or.inl ⟨i, _, hfound i hsearch, hwrite i,
        Or.inl (find_slots_eq_some hhit)⟩
  | none =>
      have hnone := find_slots_eq_none.1 hhit
      rw [hhit] at hsearch
      cases hempty : slots.find? fun i =>
          decide ((m.slotKey i).magic = emptyMagic) with
      | some i =>
          rw [hempty] at hsearch
          have hi : (m.slotKey i).magic = emptyMagic := by
            simpa using find_slots_eq_some hempty
          exact Or.inl ⟨i, _, hfound i hsearch, hwrite i,
            Or.inr ⟨(slotAccount_eq_none_iff hwf).2 hi, hnone⟩⟩
      | none =>
          rw [hempty] at hsearch
          have hfull : StoreCall.exec m (.save c) = some (-1, m) := by
            simp [StoreCall.exec, passkeySave, hsearch]
          refine Or.inr ⟨hfull, hnone, ?_⟩
          intro j hj
          have hmagic := (slotAccount_eq_none_iff hwf).1 hj
          have hj := find_slots_eq_none.1 hempty j
          simp [hmagic] at hj

/-! ## A call of passkey_delete_by_cred_id -/

theorem slotAccount_after_erase {m : Mem} (hwf : SlotsWellFormed m) (i : Slot) :
    slotAccount (m.after (eraseSlotOps i)) = update (slotAccount m) i none ∧
      SlotsWellFormed (m.after (eraseSlotOps i)) := by
  have hmagic := slotKey_magic_after_erase m i
  have hwf' : SlotsWellFormed (m.after (eraseSlotOps i)) := by
    intro j
    by_cases hji : j = i
    · subst hji
      exact Or.inl hmagic
    · rw [slotKey_after_erase_of_ne m hji]
      exact hwf j
  refine ⟨?_, hwf'⟩
  funext j
  by_cases hji : j = i
  · subst hji
    rw [update_self]
    exact (slotAccount_eq_none_iff hwf').2 hmagic
  · rw [update_of_ne hji]
    simp only [slotAccount, slotKey_after_erase_of_ne m hji]

/-! ## Runs -/

def StoreCall.Fits : StoreCall → Prop
  | .save c => c.userIdLen ≤ 64
  | .delete _ => True

def savedIds (calls : List StoreCall) : List (Bytes 32) :=
  calls.filterMap fun
    | .save c => some c.credentialId
    | .delete _ => none

def DistinctIds (map : AccountMap) : Prop :=
  ∀ k k' a a', map k = some a → map k' = some a' →
    a.credentialId = a'.credentialId → k = k'

/-- The flash and the map a run has led to. -/
structure StoreInvariant (calls : List StoreCall) (m : Mem)
    (map : AccountMap) : Prop where
  wellFormed : SlotsWellFormed m
  represents : Represents Account.key (slotAccount m) map
  distinctIds : DistinctIds map
  saved : ∀ k a, map k = some a → a.credentialId ∈ savedIds calls

theorem mapStep_distinctIds {map map' : AccountMap} {call : StoreCall} {r : ℤ}
    {capacity : ℕ} {saved : List (Bytes 32)}
    (hstep : MapStep capacity map call r map') (hids : DistinctIds map)
    (hsaved : ∀ k a, map k = some a → a.credentialId ∈ saved)
    (hfresh : ∀ c, call = .save c → c.credentialId ∉ saved) :
    DistinctIds map' := by
  have hput : ∀ c : SaveCall, c.credentialId ∉ saved →
      DistinctIds (update map c.account.key (some c.account)) := by
    intro c hc k k' a a' hk hk' hid
    by_cases h : k = c.account.key <;> by_cases h' : k' = c.account.key
    · rw [h, h']
    · rw [h, update_self, Option.some.injEq] at hk
      rw [update_of_ne h'] at hk'
      have hmem := hsaved k' a' hk'
      rw [← hid, ← hk] at hmem
      exact absurd hmem hc
    · rw [h', update_self, Option.some.injEq] at hk'
      rw [update_of_ne h] at hk
      have hmem := hsaved k a hk
      rw [hid, ← hk'] at hmem
      exact absurd hmem hc
    · rw [update_of_ne h] at hk
      rw [update_of_ne h'] at hk'
      exact hids k k' a a' hk hk' hid
  cases hstep with
  | replace hkey => exact hput _ (hfresh _ rfl)
  | add hkey hroom => exact hput _ (hfresh _ rfl)
  | full hkey hfull => exact hids
  | @delete gone b hkey honly =>
      intro k k' a a' hk hk' hid
      by_cases h : k = gone
      · simp [h] at hk
      · by_cases h' : k' = gone
        · simp [h'] at hk'
        · rw [update_of_ne h] at hk
          rw [update_of_ne h'] at hk'
          exact hids k k' a a' hk hk' hid
  | absent habsent => exact hids

theorem mapStep_saved {map map' : AccountMap} {call : StoreCall} {r : ℤ}
    {capacity : ℕ} {calls : List StoreCall}
    (hstep : MapStep capacity map call r map')
    (hsaved : ∀ k a, map k = some a → a.credentialId ∈ savedIds calls) :
    ∀ k a, map' k = some a → a.credentialId ∈ savedIds (calls ++ [call]) := by
  have hkept : ∀ k a, map k = some a →
      a.credentialId ∈ savedIds (calls ++ [call]) := by
    intro k a hk
    rw [savedIds, List.filterMap_append]
    exact List.mem_append_left _ (hsaved k a hk)
  have hput : ∀ c : SaveCall, call = .save c → ∀ k a,
      update map c.account.key (some c.account) k = some a →
        a.credentialId ∈ savedIds (calls ++ [call]) := by
    intro c hc k a hk
    by_cases h : k = c.account.key
    · rw [h, update_self, Option.some.injEq] at hk
      subst hk
      simp [savedIds, hc, SaveCall.account]
    · rw [update_of_ne h] at hk
      exact hkept k a hk
  cases hstep with
  | replace hkey => exact hput _ rfl
  | add hkey hroom => exact hput _ rfl
  | full hkey hfull => exact hkept
  | @delete gone b hkey honly =>
      intro k a hk
      by_cases h : k = gone
      · simp [h] at hk
      · rw [update_of_ne h] at hk
        exact hkept k a hk
  | absent habsent => exact hkept

/-- One call carried out on the flash and on the map which stands for it. -/
structure CallStep (m : Mem) (map : AccountMap) (call : StoreCall) (r : ℤ) (m' : Mem)
    (map' : AccountMap) : Prop where
  exec : call.exec m = some (r, m')
  refused : r = -1 → m' = m
  step : MapStep passkeyNumSlots map call r map'
  wellFormed : SlotsWellFormed m'
  represents : Represents Account.key (slotAccount m') map'

theorem ne_key_of_not_holdsKey {m : Mem} {k : AccountKey}
    (hnone : ∀ j, holdsKey m k j = false) {j : Slot} {v : Account}
    (hslot : slotAccount m j = some v) : v.key ≠ k := by
  intro hkey
  have hholds := holdsKey_iff.2 ⟨v, hslot, hkey⟩
  rw [hnone j] at hholds
  cases hholds

theorem save_callStep {m : Mem} {map : AccountMap} (hwf : SlotsWellFormed m)
    (hrep : Represents Account.key (slotAccount m) map) (c : SaveCall)
    (hfits : c.userIdLen ≤ 64) : ∃ r m' map', CallStep m map (.save c) r m' map' := by
  have hlookup : (∀ j, holdsKey m c.account.key j = false) →
      map c.account.key = none := by
    intro hnone
    rw [hrep.lookup_eq_none_iff]
    exact fun i v hslot => ne_key_of_not_holdsKey hnone hslot
  rcases exec_save hwf c hfits with
    ⟨i, m', hexec, hstored, hholds | ⟨hempty, hnone⟩⟩ | ⟨hexec, hnone, hfull⟩
  · rcases holdsKey_iff.1 hholds with ⟨old, hslot, hkey⟩
    have hold := hrep.lookup hslot
    rw [hkey] at hold
    refine ⟨0, m', update map c.account.key (some c.account), hexec, by simp,
      .replace hold, hstored.wellFormed hwf, ?_⟩
    rw [hstored.accounts]
    apply hrep.put
    · intro v hv
      rw [hslot, Option.some.injEq] at hv
      rw [← hv, hkey]
    · intro j v hv hkey'
      exact hrep.one_slot j i v old hv hslot (hkey'.trans hkey.symm)
  · have hroom := hrep.ncard_lt_iff.2 ⟨i, hempty⟩
    rw [Fintype.card_fin] at hroom
    refine ⟨0, m', update map c.account.key (some c.account), hexec, by simp,
      .add (hlookup hnone) hroom, hstored.wellFormed hwf, ?_⟩
    rw [hstored.accounts]
    apply hrep.put
    · intro v hv
      rw [hempty] at hv
      cases hv
    · intro j v hv hkey
      exact absurd hkey (ne_key_of_not_holdsKey hnone hv)
  · have hcard : ¬ {k | map k ≠ none}.ncard < passkeyNumSlots := by
      intro hroom
      have hroom' := hrep.ncard_lt_iff.1 (by rwa [Fintype.card_fin])
      cases hroom' with
      | intro i hi => exact hfull i hi
    have hle := hrep.ncard_le
    rw [Fintype.card_fin] at hle
    exact ⟨-1, m, map, hexec, fun _ => rfl, .full (hlookup hnone) (by omega), hwf, hrep⟩

theorem delete_callStep {m : Mem} {map : AccountMap} (hwf : SlotsWellFormed m)
    (hrep : Represents Account.key (slotAccount m) map) (hids : DistinctIds map)
    (credentialId : Bytes 32) :
    ∃ r m' map', CallStep m map (.delete credentialId) r m' map' := by
  have hagrees := storeAgrees hrep
  cases hfind : passkeyFindByCredId m credentialId with
  | some i =>
      have herase := slotAccount_after_erase hwf i
      rcases hagrees.findByCredId_some _ _ hfind with ⟨a, hslot, hmem, rfl⟩
      refine ⟨0, m.after (eraseSlotOps i), update map a.key none, ?_, by simp, ?_,
        herase.2, ?_⟩
      · simp [StoreCall.exec, passkeyDeleteByCredId, hfind]
      · exact .delete hmem fun k' a' hk' hid => hids k' a.key a' a hk' hmem hid
      · rw [herase.1]
        exact hrep.clear hslot
  | none =>
      refine ⟨-1, m, map, ?_, fun _ => rfl, ?_, hwf, hrep⟩
      · simp [StoreCall.exec, passkeyDeleteByCredId, hfind]
      · exact .absent ((hagrees.findByCredId_none credentialId).1 hfind)

/-- One call is one step of the map, and a refused call leaves every byte
alone. -/
theorem StoreInvariant.exec {calls : List StoreCall} {m : Mem}
    {map : AccountMap} (h : StoreInvariant calls m map) {call : StoreCall}
    (hfits : call.Fits) (hfresh : (savedIds (calls ++ [call])).Nodup) :
    ∃ r m' map', call.exec m = some (r, m') ∧ (r = -1 → m' = m) ∧
      MapStep passkeyNumSlots map call r map' ∧
      StoreInvariant (calls ++ [call]) m' map' := by
  have hnew : ∀ c, call = .save c → c.credentialId ∉ savedIds calls := by
    rintro c rfl
    rw [savedIds, List.filterMap_append] at hfresh
    have hdisjoint := (List.nodup_append.1 hfresh).2.2
    intro hmem
    exact hdisjoint _ hmem _ (by simp) rfl
  have hone : ∃ r m' map', CallStep m map call r m' map' := by
    cases call with
    | save c => exact save_callStep h.wellFormed h.represents c hfits
    | delete credentialId =>
        exact delete_callStep h.wellFormed h.represents h.distinctIds credentialId
  rcases hone with ⟨r, m', map', hstep⟩
  exact ⟨r, m', map', hstep.exec, hstep.refused, hstep.step,
    ⟨hstep.wellFormed, hstep.represents,
      mapStep_distinctIds hstep.step h.distinctIds h.saved hnew,
      mapStep_saved hstep.step h.saved⟩⟩

theorem storeInvariant_erased {m : Mem}
    (herased : ∀ a, passkeyFlashStart ≤ a → a < passkeyFlashEnd →
      m a = 0xFF) : StoreInvariant [] m fun _ => none := by
  have hmagic : ∀ i, (m.slotKey i).magic = emptyMagic := by
    intro i
    have hend := slotAddr_lt i
    have hsize : passkeyPageSize = 256 := rfl
    have hstart : passkeyFlashStart ≤ slotAddr i := Nat.le_add_right _ _
    have hbyte : ∀ a < 4, m (slotAddr i + a) = 0xFF := fun a ha =>
      herased _ (by omega) (by omega)
    have h0 : m (slotAddr i) = 0xFF := hbyte 0 (by omega)
    simp only [Mem.slotKey, Mem.residentKey, Mem.le32, h0, hbyte 1 (by omega),
      hbyte 2 (by omega), hbyte 3 (by omega)]
    decide
  have hwf : SlotsWellFormed m := fun i => Or.inl (hmagic i)
  refine ⟨hwf, ?_, ?_, ?_⟩
  · exact Represents.empty fun i =>
      (slotAccount_eq_none_iff hwf).2 (hmagic i)
  · intro k k' a a' hk
    cases hk
  · intro k a hk
    cases hk

theorem StoreRun.refines {flash₀ flash : Mem} {calls : List StoreCall}
    {results : List ℤ} (hrun : StoreRun flash₀ calls results flash)
    (herased : ∀ a, passkeyFlashStart ≤ a → a < passkeyFlashEnd →
      flash₀ a = 0xFF) (hfits : ∀ call ∈ calls, call.Fits)
    (hids : (savedIds calls).Nodup) :
    ∃ map, MapRun passkeyNumSlots calls results map ∧
      StoreInvariant calls flash map := by
  induction hrun with
  | start => exact ⟨_, .start, storeInvariant_erased herased⟩
  | @step calls results flash flash' call r hrun hstep ih =>
      have hbefore : (savedIds calls).Nodup := by
        rw [savedIds, List.filterMap_append] at hids
        exact (List.nodup_append.1 hids).1
      have hfitsBefore : ∀ call ∈ calls, call.Fits := fun c hc =>
        hfits c (List.mem_append_left _ hc)
      rcases ih hfitsBefore hbefore with ⟨map, hmap, hinv⟩
      rcases hinv.exec (hfits call (by simp)) hids with
        ⟨r', m', map', hexec, -, hmapStep, hinv'⟩
      rw [hstep, Option.some.injEq, Prod.mk.injEq] at hexec
      rcases hexec with ⟨rfl, rfl⟩
      exact ⟨map', hmap.step hmapStep, hinv'⟩

/-- Every sequence of calls which starts from an erased flash goes through the
states of a bounded map, and so does whatever call comes next. -/
theorem passkeyStore_refines_map {flash₀ flash : Mem}
    {calls : List StoreCall} {results : List ℤ}
    (herased : ∀ a, passkeyFlashStart ≤ a → a < passkeyFlashEnd →
      flash₀ a = 0xFF) (hfits : ∀ call ∈ calls, call.Fits)
    (hids : (savedIds calls).Nodup)
    (hrun : StoreRun flash₀ calls results flash) :
    ∃ map, MapRun passkeyNumSlots calls results map ∧
      StoreAgrees flash map ∧
      ∀ call : StoreCall, call.Fits → (savedIds (calls ++ [call])).Nodup →
        ∃ r flash' map', call.exec flash = some (r, flash') ∧
          (r = -1 → flash' = flash) ∧
          MapStep passkeyNumSlots map call r map' ∧
          StoreAgrees flash' map' := by
  rcases hrun.refines herased hfits hids with ⟨map, hmap, hinv⟩
  refine ⟨map, hmap, storeAgrees hinv.represents, ?_⟩
  intro call hcall hfresh
  rcases hinv.exec hcall hfresh with
    ⟨r, flash', map', hexec, hsame, hstep, hinv'⟩
  exact ⟨r, flash', map', hexec, hsame, hstep, storeAgrees hinv'.represents⟩

/-- The calls one after the other: the results in order and the flash they
leave. -/
def execAll (flash : Mem) (calls : List StoreCall) : Option (List ℤ × Mem) :=
  calls.foldlM (fun (results, m) call =>
    (call.exec m).map fun (r, m') => (results ++ [r], m')) ([], flash)

theorem storeRun_of_execAll {flash₀ flash : Mem} {calls : List StoreCall}
    {results : List ℤ} (h : execAll flash₀ calls = some (results, flash)) :
    StoreRun flash₀ calls results flash := by
  induction calls using List.reverseRecOn generalizing results flash with
  | nil =>
      cases h
      exact .start
  | append_singleton calls call ih =>
      rw [execAll, List.foldlM_append] at h
      rcases Option.bind_eq_some_iff.1 h with ⟨⟨before, m⟩, hbefore, hlast⟩
      simp only [List.foldlM_cons, List.foldlM_nil, Option.bind_eq_bind,
        Option.pure_def, Option.bind_fun_some, Option.map_eq_some_iff] at hlast
      rcases hlast with ⟨⟨r, m'⟩, hexec, hpair⟩
      cases hpair
      exact .step (ih hbefore) hexec

/-- The account of one user at a site of two letters, under a chosen
credential id. -/
def sampleSave (user id : UInt8) : SaveCall where
  src := fun a => if a = 0 then user else 0x61
  rpIdHash := Bytes.fill 1 32 []
  rpId := 1
  rpIdLen := 2
  userId := 0
  userIdLen := 1
  userName := 0
  userNameLen := 1
  credentialId := Bytes.fill id 32 []
  privateKey := Bytes.fill 3 32 []

/-- Two accounts, the first saved anew under another id; its old id names
nothing any more, and the second account is deleted. -/
def sampleCalls : List StoreCall :=
  [.save (sampleSave 1 1), .save (sampleSave 2 2), .save (sampleSave 1 3),
    .delete (Bytes.fill 1 32 []), .delete (Bytes.fill 2 32 [])]

theorem sampleCalls_results :
    (execAll (fun _ => 0xFF) sampleCalls).map Prod.fst =
      some [0, 0, 0, -1, 0] := by
  decide +kernel

theorem passkeyStore_refines_map_replaced :
    ∃ flash map,
      MapRun passkeyNumSlots sampleCalls [0, 0, 0, -1, 0] map ∧
      StoreAgrees flash map := by
  rcases Option.map_eq_some_iff.1 sampleCalls_results with
    ⟨⟨results, flash⟩, hexec, hresults⟩
  cases hresults
  have hfits : ∀ call ∈ sampleCalls, call.Fits := by
    simp [sampleCalls, StoreCall.Fits, sampleSave]
  have hids : (savedIds sampleCalls).Nodup := by decide
  have hagrees := passkeyStore_refines_map (fun _ _ _ => rfl) hfits hids
    (storeRun_of_execAll hexec)
  rcases hagrees with ⟨map, hmap, hstore, -⟩
  exact ⟨flash, map, hmap, hstore⟩

/-! ## A sample store -/

def storedId : Bytes 32 := Bytes.fill 0xC1 32 []

def firstSlot : Slot := ⟨0, by decide⟩

def storedKey (rpIdHash : Bytes 32) : ResidentKey :=
  newKey rpIdHash [] [0x01] [] storedId (Bytes.fill 3 32 [])

/-- A flash with one credential in the first slot. -/
@[irreducible]
def oneCredential (rpIdHash : Bytes 32) : Mem :=
  Mem.after (fun _ => 0xFF)
    (writePageOps (slotAddr firstSlot) (storedKey rpIdHash).toBytes)

theorem oneCredential_slotKey (rpIdHash : Bytes 32) (j : Slot) :
    (oneCredential rpIdHash).slotKey j =
      if j = firstSlot then storedKey rpIdHash else Mem.slotKey (fun _ => 0xFF) j := by
  unfold oneCredential
  exact slotKey_after_write _ _ _ (show passkeyMagic < 2 ^ 32 by decide)

theorem erased_magic (j : Slot) :
    (Mem.slotKey (fun _ => 0xFF) j).magic = emptyMagic := by
  simp only [Mem.slotKey, Mem.residentKey, Mem.le32]
  decide

theorem oneCredential_occupied {rpIdHash : Bytes 32} {j : Slot}
    (h : ((oneCredential rpIdHash).slotKey j).magic = passkeyMagic) :
    j = firstSlot := by
  by_contra hj
  rw [oneCredential_slotKey, if_neg hj, erased_magic] at h
  exact passkeyMagic_ne_emptyMagic h.symm

end UnsoloKey
