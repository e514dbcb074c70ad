import UnsoloKey.Reader
import Mathlib.Tactic

/-!
# Flash pages

The flash of the key is a byte memory with two kinds of writing steps: a page
of 256 bytes is erased to `FF`, or a chunk of 64 bytes is programmed.  Every
routine of flash_passkey.c that changes flash is modelled by the list of steps
it issues, so that a loss of power is a prefix of that list.  The unlock and
lock sequences are steps too; they move the controller and the interrupt mask
and leave the bytes alone.
-/

namespace UnsoloKey

/-- A `uint8_t` array of fixed size. -/
abbrev Bytes (n : ℕ) := { bs : List UInt8 // bs.length = n }

@[simp] theorem Bytes.length_val {n : ℕ} (b : Bytes n) : b.val.length = n :=
  b.property

/-- The first bytes of an array of size `n` are `bs`, the others `pad`. -/
def Bytes.fill (pad : UInt8) (n : ℕ) (bs : List UInt8) : Bytes n :=
  ⟨(bs ++ List.replicate n pad).take n, by simp⟩

theorem Bytes.fill_val {pad : UInt8} {n : ℕ} {bs : List UInt8}
    (h : bs.length = n) : (Bytes.fill pad n bs).val = bs := by
  simp [Bytes.fill, ← h]

theorem Bytes.fill_take {pad : UInt8} {n : ℕ} {bs : List UInt8}
    (h : bs.length ≤ n) : (Bytes.fill pad n bs).val.take bs.length = bs := by
  simp [Bytes.fill, List.take_take, h]

def Mem.array (m : Mem) (p n : ℕ) : Bytes n :=
  ⟨m.slice p n, m.slice_length p n⟩

theorem Mem.Holds.array_eq {m : Mem} {p n : ℕ} {bs : Bytes n}
    (h : m.Holds p bs.val) : m.array p n = bs :=
  Subtype.ext (h.slice_eq bs.property.symm)

theorem Mem.array_congr {m m' : Mem} {p n : ℕ}
    (h : ∀ i < n, m (p + i) = m' (p + i)) : m.array p n = m'.array p n := by
  apply Subtype.ext
  apply List.ext_getElem (by simp [Mem.array])
  intro i hi hi'
  simpa only [Mem.array, Mem.getElem_slice] using
    h i (by simpa [Mem.array] using hi)

/-- A little-endian `uint32_t` in memory. -/
def Mem.le32 (m : Mem) (p : ℕ) : ℕ :=
  (m p).toNat + 256 * (m (p + 1)).toNat + 65536 * (m (p + 2)).toNat +
    16777216 * (m (p + 3)).toNat

def le32Bytes (n : ℕ) : List UInt8 :=
  [UInt8.ofNat n, UInt8.ofNat (n / 256), UInt8.ofNat (n / 65536),
    UInt8.ofNat (n / 16777216)]

theorem Mem.Holds.le32_eq {m : Mem} {p n : ℕ} (h : m.Holds p (le32Bytes n))
    (hn : n < 2 ^ 32) : m.le32 p = n := by
  simp only [le32Bytes, Mem.holds_cons, Mem.holds_nil, and_true] at h
  obtain ⟨h0, h1, h2, h3⟩ := h
  unfold Mem.le32
  rw [h0, h1, show p + 2 = p + 1 + 1 by omega, h2,
    show p + 3 = p + 1 + 1 + 1 by omega, h3]
  simp only [UInt8.toNat_ofNat']
  omega

/-! ## Steps -/

def passkeyPageSize : ℕ := 256

structure Flash where
  mem : Mem
  unlocked : Bool
  irqDisabled : Bool

inductive FlashOp where
  | unlock
  | lock
  | erasePage (addr : ℕ)
  | program64 (addr : ℕ) (data : List UInt8)

namespace FlashOp

def effect : FlashOp → Mem → Mem
  | .unlock, m => m
  | .lock, m => m
  | .erasePage addr, m => fun a =>
      if addr ≤ a ∧ a < addr + passkeyPageSize then 0xFF else m a
  | .program64 addr data, m => fun a =>
      if addr ≤ a ∧ a < addr + 64 then data.getD (a - addr) 0xFF else m a

def apply : FlashOp → Flash → Flash
  | .unlock, f => { f with unlocked := true, irqDisabled := true }
  | .lock, f => { f with unlocked := false, irqDisabled := false }
  | op, f => { f with mem := op.effect f.mem }

theorem apply_mem (op : FlashOp) (f : Flash) :
    (op.apply f).mem = op.effect f.mem := by
  cases op <;> rfl

end FlashOp

def Mem.after (m : Mem) (ops : List FlashOp) : Mem :=
  ops.foldl (fun m op => op.effect m) m

def Flash.run (f : Flash) (ops : List FlashOp) : Flash :=
  ops.foldl (fun f op => op.apply f) f

@[simp] theorem Mem.after_nil (m : Mem) : m.after [] = m := rfl

@[simp] theorem Mem.after_cons (m : Mem) (op : FlashOp) (ops : List FlashOp) :
    m.after (op :: ops) = (op.effect m).after ops := rfl

theorem Mem.after_append (m : Mem) (ops ops' : List FlashOp) :
    m.after (ops ++ ops') = (m.after ops).after ops' := by
  simp [Mem.after]

theorem Flash.run_mem (f : Flash) (ops : List FlashOp) :
    (f.run ops).mem = f.mem.after ops := by
  induction ops generalizing f with
  | nil => rfl
  | cons op ops ih =>
      change ((op.apply f).run ops).mem = _
      rw [ih, FlashOp.apply_mem, Mem.after_cons]

/-- The step changes no byte from `limit` on. -/
def FlashOp.Below (limit : ℕ) : FlashOp → Prop
  | .unlock => True
  | .lock => True
  | .erasePage addr => addr + passkeyPageSize ≤ limit
  | .program64 addr _ => addr + 64 ≤ limit

theorem Mem.after_below {ops : List FlashOp} {limit a : ℕ}
    (hops : ∀ op ∈ ops, op.Below limit) (ha : limit ≤ a) (m : Mem) :
    m.after ops a = m a := by
  induction ops generalizing m with
  | nil => rfl
  | cons op ops ih =>
      have hhead := hops op List.mem_cons_self
      rw [Mem.after_cons, ih fun op' h => hops op' (List.mem_cons_of_mem op h)]
      cases op with
      | unlock => rfl
      | lock => rfl
      | erasePage addr =>
          simp only [FlashOp.Below] at hhead
          exact if_neg (by omega)
      | program64 addr data =>
          simp only [FlashOp.Below] at hhead
          exact if_neg (by omega)

/-- The page size is a whole number of programming chunks. -/
def chunkOps (addr : ℕ) (page : List UInt8) (n : ℕ) : List FlashOp :=
  (List.range n).map fun i =>
    .program64 (addr + 64 * i) ((page.drop (64 * i)).take 64)

/-- The erase and program steps by which the struct `page` is written. -/
def writeSteps (addr : ℕ) (page : List UInt8) : List FlashOp :=
  .erasePage addr :: chunkOps addr page (page.length / 64)

/-- The whole sequence, between unlocking and locking the controller. -/
def writePageOps (addr : ℕ) (page : List UInt8) : List FlashOp :=
  .unlock :: (writeSteps addr page ++ [.lock])

theorem chunkOps_take (addr : ℕ) (page : List UInt8) (n k : ℕ) :
    (chunkOps addr page n).take k = chunkOps addr page (min k n) := by
  simp [chunkOps, ← List.map_take, List.take_range]

theorem after_chunkOps (m : Mem) (addr : ℕ) (page : List UInt8) (n a : ℕ) :
    m.after (chunkOps addr page n) a =
      if addr ≤ a ∧ a < addr + 64 * n then page.getD (a - addr) 0xFF
      else m a := by
  induction n with
  | zero =>
      have hempty : ¬ (addr ≤ a ∧ a < addr + 64 * 0) := by omega
      rw [if_neg hempty]
      rfl
  | succ n ih =>
      have hlast : chunkOps addr page (n + 1) = chunkOps addr page n ++
          [.program64 (addr + 64 * n) ((page.drop (64 * n)).take 64)] := by
        simp [chunkOps, List.range_succ]
      rw [hlast, Mem.after_append, Mem.after_cons, Mem.after_nil]
      simp only [FlashOp.effect]
      by_cases hchunk : addr + 64 * n ≤ a ∧ a < addr + 64 * n + 64
      · have hall : addr ≤ a ∧ a < addr + 64 * (n + 1) := by omega
        have hshort : a - (addr + 64 * n) < 64 := by omega
        have hsum : 64 * n + (a - (addr + 64 * n)) = a - addr := by omega
        rw [if_pos hchunk, if_pos hall]
        simp [List.getD, hshort, hsum]
      · have hiff : (addr ≤ a ∧ a < addr + 64 * (n + 1)) ↔
            (addr ≤ a ∧ a < addr + 64 * n) := by omega
        rw [if_neg hchunk, ih]
        simp only [hiff]

/-- The bytes after `k + 1` of the writing steps: the first `k` chunks are
programmed, the rest of the page is erased, nothing else has moved. -/
theorem after_writeSteps_take (m : Mem) (addr : ℕ) {page : List UInt8}
    (hpage : page.length = passkeyPageSize) (k a : ℕ) :
    m.after ((writeSteps addr page).take (k + 1)) a =
      if addr ≤ a ∧ a < addr + passkeyPageSize then
        if a < addr + 64 * k then page.getD (a - addr) 0xFF else 0xFF
      else m a := by
  have hchunks : page.length / 64 = 4 := by rw [hpage]; rfl
  rw [writeSteps, List.take_succ_cons, chunkOps_take, Mem.after_cons,
    after_chunkOps, hchunks]
  have hsize : passkeyPageSize = 256 := rfl
  simp only [FlashOp.effect]
  by_cases hin : addr ≤ a ∧ a < addr + passkeyPageSize
  · by_cases hdone : a < addr + 64 * k
    · have hmin : addr ≤ a ∧ a < addr + 64 * min k 4 := by omega
      simp [hin, hdone, hmin]
    · have hmin : ¬ (addr ≤ a ∧ a < addr + 64 * min k 4) := by omega
      rw [if_neg hmin, if_pos hin, if_pos hin, if_neg hdone]
  · have hmin : ¬ (addr ≤ a ∧ a < addr + 64 * min k 4) := by omega
    simp [hin, hmin]

theorem writeSteps_length (addr : ℕ) {page : List UInt8}
    (hpage : page.length = passkeyPageSize) :
    (writeSteps addr page).length = 5 := by
  simp [writeSteps, chunkOps, hpage, passkeyPageSize]

theorem writePageOps_below {addr limit : ℕ} {page : List UInt8}
    (hpage : page.length = passkeyPageSize)
    (hlimit : addr + passkeyPageSize ≤ limit) :
    ∀ op ∈ writePageOps addr page, op.Below limit := by
  have hsize : passkeyPageSize = 256 := rfl
  intro op hop
  simp only [writePageOps, writeSteps, chunkOps, List.mem_cons, List.mem_append,
    List.mem_map, List.mem_range, List.not_mem_nil, or_false] at hop
  rcases hop with rfl | (rfl | ⟨i, hi, rfl⟩) | rfl
  · trivial
  · exact hlimit
  · rw [hpage, hsize] at hi
    change addr + 64 * i + 64 ≤ limit
    omega
  · trivial

theorem after_writePageOps_take (m : Mem) (addr : ℕ) (page : List UInt8) (k : ℕ) :
    m.after ((writePageOps addr page).take (k + 1)) =
      m.after ((writeSteps addr page).take k) := by
  have hlock : ∀ (m : Mem) (j : ℕ), m.after ([FlashOp.lock].take j) = m := by
    intro m j
    cases j with
    | zero => rfl
    | succ j => rw [List.take_succ_cons, List.take_nil]; rfl
  rw [writePageOps, List.take_succ_cons, Mem.after_cons, List.take_append,
    Mem.after_append, hlock]
  rfl

theorem after_writePageOps_eq_steps (m : Mem) (addr : ℕ) (page : List UInt8) :
    m.after (writePageOps addr page) = m.after (writeSteps addr page) := by
  rw [writePageOps, Mem.after_cons, Mem.after_append]
  rfl

/-- A completed write leaves exactly the struct in the page. -/
theorem after_writePageOps (m : Mem) (addr : ℕ) {page : List UInt8}
    (hpage : page.length = passkeyPageSize) (a : ℕ) :
    m.after (writePageOps addr page) a =
      if addr ≤ a ∧ a < addr + passkeyPageSize then page.getD (a - addr) 0xFF
      else m a := by
  have hall : (writeSteps addr page).take (4 + 1) = writeSteps addr page :=
    List.take_of_length_le (writeSteps_length addr hpage).le
  have hwritten := after_writeSteps_take m addr hpage 4 a
  rw [hall] at hwritten
  rw [after_writePageOps_eq_steps, hwritten]
  have hsize : passkeyPageSize = 256 := rfl
  by_cases hin : addr ≤ a ∧ a < addr + passkeyPageSize
  · have hlast : a < addr + 64 * 4 := by omega
    rw [if_pos hin, if_pos hin, if_pos hlast]
  · simp [hin]

theorem holds_of_getD {m : Mem} {addr : ℕ} {bytes : List UInt8}
    (h : ∀ i < bytes.length, m (addr + i) = bytes.getD i 0xFF) :
    m.Holds addr bytes := by
  apply List.ext_getElem (by simp)
  intro i hi hi'
  rw [Mem.getElem_slice, h i hi']
  simp [List.getD, hi']

theorem holds_after_writePageOps (m : Mem) (addr : ℕ) {page : List UInt8}
    (hpage : page.length = passkeyPageSize) :
    (m.after (writePageOps addr page)).Holds addr page := by
  apply holds_of_getD
  intro i hi
  have hin : addr ≤ addr + i ∧ addr + i < addr + passkeyPageSize := by omega
  rw [after_writePageOps m addr hpage, if_pos hin, Nat.add_sub_cancel_left]

theorem slice_after_writePageOps (m : Mem) {addr p n : ℕ} {page : List UInt8}
    (hpage : page.length = passkeyPageSize)
    (hout : p + n ≤ addr ∨ addr + passkeyPageSize ≤ p) :
    (m.after (writePageOps addr page)).slice p n = m.slice p n := by
  apply List.ext_getElem (by simp)
  intro i hi hi'
  have hi : i < n := by simpa using hi'
  have hin : ¬ (addr ≤ p + i ∧ p + i < addr + passkeyPageSize) := by omega
  simp only [Mem.getElem_slice]
  rw [after_writePageOps m addr hpage, if_neg hin]

end UnsoloKey
