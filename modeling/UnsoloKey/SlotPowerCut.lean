import UnsoloKey.SlotChanges
import Mathlib.Data.List.GetD
import Mathlib.Tactic

/-!
# Power cuts while a credential is saved

The magic number which makes a slot count as occupied lies in the first chunk of
its page, the credential id and the private key in the second and third.  A power
cut between these chunks leaves an occupied slot without a whole credential, and a
cut right after the erase leaves neither the old nor the new credential of a
replaced account.  At every other point of the sequence the store stays whole.
-/

namespace UnsoloKey

/-- The four fields which make up a credential, with the length of the user id. -/
def ResidentKey.credential (k : ResidentKey) :
    Bytes 32 × (UInt8 × Bytes 64) × Bytes 32 × Bytes 32 :=
  (k.rpIdHash, (k.userIdLen, k.userId), k.credentialId, k.privateKey)

namespace SaveCall

/-- The slot which the call writes, if there is one for it. -/
def slot (c : SaveCall) (flash : Mem) : Option Slot :=
  saveSlot flash c.rpIdHash (c.src.slice c.userId c.userIdLen.toNat)

/-- The struct which the call writes. -/
def written (c : SaveCall) : ResidentKey :=
  newKey c.rpIdHash ((c.src.slice c.rpId c.rpIdLen.toNat).take 32)
    ((c.src.slice c.userId c.userIdLen.toNat).take 64)
    ((c.src.slice c.userName c.userNameLen.toNat).take 32)
    c.credentialId c.privateKey

def ops (c : SaveCall) (flash : Mem) : List FlashOp :=
  (((passkeySave flash c.rpIdHash c.rpId c.rpIdLen c.userId c.userIdLen c.userName
    c.userNameLen c.credentialId c.privateKey).run c.src).map Prod.snd).getD []

theorem ops_of_none {c : SaveCall} {flash : Mem} (h : c.slot flash = none) :
    c.ops flash = [] := by
  unfold slot at h
  rw [ops, passkeySave_run, h]
  rfl

theorem ops_of_some {c : SaveCall} {flash : Mem} {i : Slot}
    (h : c.slot flash = some i) :
    c.ops flash = writePageOps (slotAddr i) c.written.toBytes := by
  unfold slot at h
  rw [ops, passkeySave_run, h]
  rfl

end SaveCall

/-! ## The page after a cut -/

section

variable {flash : Mem} {c : SaveCall} {i : Slot}

theorem slotBytes_after_take_of_ne (m : Mem) {i j : Slot} (hji : j ≠ i)
    (key : ResidentKey) (k : ℕ) :
    (m.after ((writePageOps (slotAddr i) key.toBytes).take k)).slotBytes j =
      m.slotBytes j := by
  refine (slice_eq_iff (by simp [Mem.slotBytes])).2 fun a ha => ?_
  have hkept : m.after ((writePageOps (slotAddr i) key.toBytes).take k)
      (slotAddr j + a) = m (slotAddr j + a) := by
    rcases k with _ | _ | k
    · rfl
    · rfl
    · rw [after_writePageOps_take, after_writeSteps_take m _ key.toBytes_length,
        if_neg (slotAddr_outside hji ha)]
  rw [hkept]
  simp [Mem.slotBytes, Mem.slice, List.getD, ha]

/-- Up to the end of the last chunk programmed the page is that of the whole
write. -/
theorem agree_after_take (m : Mem) (i : Slot) (key : ResidentKey) {k a : ℕ}
    (ha : a < 64 * k) (hpage : a < passkeyPageSize) :
    m.after ((writePageOps (slotAddr i) key.toBytes).take (k + 2)) (slotAddr i + a) =
      m.after (writePageOps (slotAddr i) key.toBytes) (slotAddr i + a) := by
  have hin : slotAddr i ≤ slotAddr i + a ∧
      slotAddr i + a < slotAddr i + passkeyPageSize := by omega
  rw [after_writePageOps_take, after_writeSteps_take m _ key.toBytes_length,
    after_writePageOps m _ key.toBytes_length, if_pos hin, if_pos (by omega),
    if_pos hin]

theorem erased_after_take (m : Mem) (i : Slot) (key : ResidentKey) {k a : ℕ}
    (ha : 64 * k ≤ a) (hpage : a < passkeyPageSize) :
    m.after ((writePageOps (slotAddr i) key.toBytes).take (k + 2)) (slotAddr i + a) =
      0xFF := by
  have hin : slotAddr i ≤ slotAddr i + a ∧
      slotAddr i + a < slotAddr i + passkeyPageSize := by omega
  rw [after_writePageOps_take, after_writeSteps_take m _ key.toBytes_length,
    if_pos hin, if_neg (by omega)]

theorem front_congr {m m' : Mem} {p : ℕ} (h : ∀ a < 37, m (p + a) = m' (p + a)) :
    (m.residentKey p).magic = (m'.residentKey p).magic ∧
      (m.residentKey p).rpIdHash = (m'.residentKey p).rpIdHash := by
  have h0 : m p = m' p := h 0 (by omega)
  refine ⟨?_, Mem.array_congr fun a ha => ?_⟩
  · simp only [Mem.residentKey, Mem.le32, h0, h 1 (by omega), h 2 (by omega),
      h 3 (by omega)]
  · simpa only [Nat.add_assoc] using h (4 + a) (by omega)

theorem credential_congr {m m' : Mem} {p : ℕ}
    (h : ∀ a < 165, m (p + a) = m' (p + a)) :
    (m.residentKey p).credential = (m'.residentKey p).credential := by
  have harray : ∀ q n, q + n ≤ 165 → m.array (p + q) n = m'.array (p + q) n := by
    intro q n hqn
    apply Mem.array_congr
    intro a ha
    simpa only [Nat.add_assoc] using h (q + a) (by omega)
  simp only [ResidentKey.credential, Mem.residentKey, h 36 (by omega),
    harray 4 32 (by omega), harray 37 64 (by omega), harray 101 32 (by omega),
    harray 133 32 (by omega)]

end

/-! ## What survives -/

/-- Every occupied slot holds a credential which was stored before, or the new
one. -/
def CredentialsWhole (flash : Mem) (c : SaveCall) (left : Mem) : Prop :=
  ∀ j, (left.slotKey j).magic = passkeyMagic →
    (flash.slotKey j).magic = passkeyMagic ∧
        (left.slotKey j).credential = (flash.slotKey j).credential ∨
      c.slot flash = some j ∧ (left.slotKey j).credential = c.written.credential

def OtherSlotsKept (flash : Mem) (c : SaveCall) (left : Mem) : Prop :=
  ∀ j, c.slot flash ≠ some j → left.slotBytes j = flash.slotBytes j

/-- A replaced account is still there, with its old or its new credential. -/
def AccountSurvives (flash : Mem) (c : SaveCall) (left : Mem) : Prop :=
  ∀ i, c.slot flash = some i → (flash.slotKey i).magic = passkeyMagic →
    (left.slotKey i).magic = passkeyMagic ∧
      ((left.slotKey i).credential = (flash.slotKey i).credential ∨
        (left.slotKey i).credential = c.written.credential)

/-- The slot counts as occupied but its private key is erased. -/
def CredentialTorn (m : Mem) (rpIdHash : Bytes 32) (i : Slot) : Prop :=
  (m.slotKey i).magic = passkeyMagic ∧ (m.slotKey i).rpIdHash = rpIdHash ∧
    (m.slotKey i).privateKey = Bytes.fill 0xFF 32 []

section

variable {flash : Mem} {c : SaveCall} {i : Slot}

theorem cut_others (k : ℕ) :
    OtherSlotsKept flash c (flash.after ((c.ops flash).take k)) := by
  intro j hj
  cases hslot : c.slot flash with
  | none => rw [SaveCall.ops_of_none hslot, List.take_nil, Mem.after_nil]
  | some i =>
      rw [SaveCall.ops_of_some hslot]
      refine slotBytes_after_take_of_ne flash (fun hji => hj ?_) c.written k
      rw [hslot, hji]

theorem cut_before_erase {k : ℕ} (hk : k ≤ 1) :
    flash.after ((c.ops flash).take k) = flash := by
  cases hslot : c.slot flash with
  | none => rw [SaveCall.ops_of_none hslot, List.take_nil, Mem.after_nil]
  | some i =>
      rw [SaveCall.ops_of_some hslot]
      rcases k with _ | _ | k
      · rfl
      · rfl
      · omega

theorem cut_after_erase (hslot : c.slot flash = some i) :
    ((flash.after ((c.ops flash).take 2)).slotKey i).magic = emptyMagic := by
  rw [SaveCall.ops_of_some hslot]
  exact slotKey_magic_after_erase flash i

theorem slotKey_after_ops (hslot : c.slot flash = some i) :
    (flash.after (c.ops flash)).slotKey i = c.written := by
  rw [SaveCall.ops_of_some hslot,
    slotKey_after_write flash i i (show passkeyMagic < 2 ^ 32 by decide), if_pos rfl]

theorem cut_front (hslot : c.slot flash = some i) {k : ℕ} (hk : 3 ≤ k) :
    ((flash.after ((c.ops flash).take k)).slotKey i).magic = passkeyMagic ∧
      ((flash.after ((c.ops flash).take k)).slotKey i).rpIdHash = c.rpIdHash := by
  obtain ⟨n, rfl⟩ : ∃ n, k = n + 2 := ⟨k - 2, by omega⟩
  have hsize : passkeyPageSize = 256 := rfl
  have hwhole := slotKey_after_ops hslot
  rw [SaveCall.ops_of_some hslot] at hwhole ⊢
  have hfront := front_congr fun a (ha : a < 37) =>
    agree_after_take flash i c.written (k := n) (by omega) (by omega)
  simp only [Mem.slotKey] at hwhole ⊢
  rw [hfront.1, hfront.2, hwhole]
  exact ⟨rfl, rfl⟩

theorem cut_torn (hslot : c.slot flash = some i) {k : ℕ} (hk : k = 3 ∨ k = 4) :
    CredentialTorn (flash.after ((c.ops flash).take k)) c.rpIdHash i := by
  obtain ⟨hmagic, hhash⟩ := cut_front hslot (k := k) (by omega)
  refine ⟨hmagic, hhash, Mem.Holds.array_eq (holds_of_getD fun a ha => ?_)⟩
  obtain ⟨n, rfl⟩ : ∃ n, k = n + 2 := ⟨k - 2, by omega⟩
  have hsize : passkeyPageSize = 256 := rfl
  have ha : a < 32 := by simpa using ha
  rw [SaveCall.ops_of_some hslot, Nat.add_assoc,
    erased_after_take flash i c.written (by omega) (by omega)]
  have hval : (Bytes.fill 0xFF 32 []).val = List.replicate 32 0xFF := rfl
  rw [hval, List.getD_replicate _ ha]

theorem cut_whole (hslot : c.slot flash = some i) {k : ℕ} (hk : 5 ≤ k) :
    ((flash.after ((c.ops flash).take k)).slotKey i).credential =
      c.written.credential := by
  obtain ⟨n, rfl⟩ : ∃ n, k = n + 2 := ⟨k - 2, by omega⟩
  have hsize : passkeyPageSize = 256 := rfl
  have hwhole := slotKey_after_ops hslot
  rw [SaveCall.ops_of_some hslot] at hwhole ⊢
  have hcredential := credential_congr fun a (ha : a < 165) =>
    agree_after_take flash i c.written (k := n) (by omega) (by omega)
  exact hcredential.trans (congrArg ResidentKey.credential hwhole)

theorem cut_credentials {k : ℕ} (h3 : k ≠ 3) (h4 : k ≠ 4) :
    CredentialsWhole flash c (flash.after ((c.ops flash).take k)) := by
  intro j hoccupied
  by_cases hj : c.slot flash = some j
  · by_cases hk : k ≤ 1
    · rw [cut_before_erase hk] at hoccupied ⊢
      exact .inl ⟨hoccupied, rfl⟩
    · by_cases h2 : k = 2
      · rw [h2, cut_after_erase hj] at hoccupied
        exact absurd hoccupied.symm passkeyMagic_ne_emptyMagic
      · exact .inr ⟨hj, cut_whole hj (by omega)⟩
  · rw [slotKey_of_slotBytes (cut_others k j hj)] at hoccupied ⊢
    exact .inl ⟨hoccupied, rfl⟩

theorem cut_account {k : ℕ} (h2 : k ≠ 2) (h3 : k ≠ 3) (h4 : k ≠ 4) :
    AccountSurvives flash c (flash.after ((c.ops flash).take k)) := by
  intro i hslot hoccupied
  by_cases hk : k ≤ 1
  · rw [cut_before_erase hk]
    exact ⟨hoccupied, .inl rfl⟩
  · exact ⟨(cut_front hslot (by omega)).1, .inr (cut_whole hslot (by omega))⟩

end

/-- The store after a power cut at any point of `passkey_save`: the erase is the
second step, and the four chunks follow it. -/
theorem passkeySave_powerCut (flash : Mem) (c : SaveCall) (k : ℕ) :
    OtherSlotsKept flash c (flash.after ((c.ops flash).take k)) ∧
    (k ≠ 3 → k ≠ 4 → CredentialsWhole flash c (flash.after ((c.ops flash).take k))) ∧
    (k ≠ 2 → k ≠ 3 → k ≠ 4 →
      AccountSurvives flash c (flash.after ((c.ops flash).take k))) ∧
    ∀ i, c.slot flash = some i →
      (k = 2 → ((flash.after ((c.ops flash).take k)).slotKey i).magic = emptyMagic) ∧
      (k = 3 ∨ k = 4 →
        CredentialTorn (flash.after ((c.ops flash).take k)) c.rpIdHash i) := by
  refine ⟨cut_others k, cut_credentials, cut_account, fun i hslot => ⟨?_, cut_torn hslot⟩⟩
  rintro rfl
  exact cut_after_erase hslot

theorem sampleSave_slot :
    (sampleSave 1 1).slot (fun _ => 0xFF) = some firstSlot := by
  decide

/-- After the first chunk the new slot is occupied, with no private key. -/
theorem passkeySave_not_atomic :
    ¬ ∀ (flash : Mem) (c : SaveCall) (k : ℕ),
      OtherSlotsKept flash c (flash.after ((c.ops flash).take k)) ∧
      CredentialsWhole flash c (flash.after ((c.ops flash).take k)) ∧
      AccountSurvives flash c (flash.after ((c.ops flash).take k)) := by
  intro hclaim
  have htorn := cut_torn sampleSave_slot (.inl rfl)
  obtain ⟨-, hwhole, -⟩ := hclaim (fun _ => 0xFF) (sampleSave 1 1) 3
  rcases hwhole firstSlot htorn.1 with ⟨hoccupied, -⟩ | ⟨-, hnew⟩
  · rw [erased_magic] at hoccupied
    exact passkeyMagic_ne_emptyMagic hoccupied.symm
  · have hkey : Bytes.fill 0xFF 32 [] = (sampleSave 1 1).written.privateKey := by
      rw [← htorn.2.2]
      exact congrArg (fun cred => cred.2.2.2) hnew
    exact absurd hkey (by decide)

end UnsoloKey
