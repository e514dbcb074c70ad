import UnsoloKey.BigEndian
import Mathlib.Data.Nat.NthRoot.Defs
import Mathlib.Tactic

/-!
# SHA-256 and HMAC as the standards describe them

A message is padded to whole blocks, each block is expanded to 64 words, and the words
are worked into eight variables one after the other.  The constants are the first bits
of roots of primes.  Nothing here is incremental: the padded message is there at once.
-/

namespace UnsoloKey.Fips180

abbrev Word := BitVec 32

/-! ## Functions and constants -/

def ch (x y z : Word) : Word := (x &&& y) ^^^ (~~~x &&& z)

def maj (x y z : Word) : Word := (x &&& y) ^^^ (x &&& z) ^^^ (y &&& z)

def bigSigma0 (x : Word) : Word := x.rotateRight 2 ^^^ x.rotateRight 13 ^^^ x.rotateRight 22

def bigSigma1 (x : Word) : Word := x.rotateRight 6 ^^^ x.rotateRight 11 ^^^ x.rotateRight 25

def smallSigma0 (x : Word) : Word := x.rotateRight 7 ^^^ x.rotateRight 18 ^^^ (x >>> 3)

def smallSigma1 (x : Word) : Word := x.rotateRight 17 ^^^ x.rotateRight 19 ^^^ (x >>> 10)

def primesBelow (n : ℕ) : List ℕ :=
  (List.range n).filter fun p => 2 ≤ p ∧ ∀ d < p, 2 ≤ d → ¬ d ∣ p

theorem mem_primesBelow {n p : ℕ} : p ∈ primesBelow n ↔ p < n ∧ p.Prime := by
  simp only [primesBelow, List.mem_filter, List.mem_range, decide_eq_true_eq, Nat.prime_def_lt']
  exact and_congr_right fun _ => and_congr_right fun _ => forall_congr' fun _ => forall_comm

/-- The first 32 bits of the fractional part of the `k`-th root of `p`. -/
def rootFraction (k p : ℕ) : Word := BitVec.ofNat 32 (Nat.nthRoot k (p * 2 ^ (32 * k)))

/-- The cube roots of the first 64 primes. -/
def roundConstants : List Word := (primesBelow 312).map (rootFraction 3)

/-! ## One block -/

/-- The eight working variables, or the eight words of a hash value. -/
structure Working where
  a : Word
  b : Word
  c : Word
  d : Word
  e : Word
  f : Word
  g : Word
  h : Word
  deriving DecidableEq

namespace Working

def add (s t : Working) : Working :=
  ⟨s.a + t.a, s.b + t.b, s.c + t.c, s.d + t.d, s.e + t.e, s.f + t.f, s.g + t.g, s.h + t.h⟩

def words (s : Working) : List Word := [s.a, s.b, s.c, s.d, s.e, s.f, s.g, s.h]

/-- One of the 64 steps, with its constant and its word of the schedule. -/
def step (s : Working) (k w : Word) : Working :=
  let t1 := s.h + bigSigma1 s.e + ch s.e s.f s.g + k + w
  let t2 := bigSigma0 s.a + maj s.a s.b s.c
  ⟨t1 + t2, s.a, s.b, s.c, s.d + t1, s.e, s.f, s.g⟩

end Working

/-- The square roots of the first eight primes. -/
def initialHash : Working :=
  let root := fun p => rootFraction 2 p
  ⟨root 2, root 3, root 5, root 7, root 11, root 13, root 17, root 19⟩

/-- Word number `t` of the block. -/
def blockWord (block : List UInt8) (t : ℕ) : Word :=
  BitVec.ofNat 32 (beNat ((block.drop (4 * t)).take 4))

/-- The message schedule. -/
def scheduleWord (block : List UInt8) (t : ℕ) : Word :=
  if t < 16 then blockWord block t
  else smallSigma1 (scheduleWord block (t - 2)) + scheduleWord block (t - 7) +
    smallSigma0 (scheduleWord block (t - 15)) + scheduleWord block (t - 16)
termination_by t
decreasing_by all_goals omega

def compress (s : Working) (block : List UInt8) : Working :=
  s.add ((List.range 64).foldl
    (fun r t => r.step (roundConstants.getD t 0) (scheduleWord block t)) s)

/-! ## Messages -/

/-- Block number `i` of the message. -/
def block (message : List UInt8) (i : ℕ) : List UInt8 := (message.drop (64 * i)).take 64

/-- The whole blocks of the message, one after the other. -/
def hashBlocks (s : Working) (message : List UInt8) : Working :=
  (List.range (message.length / 64)).foldl (fun s i => compress s (block message i)) s

/-- How many zero bytes bring the message and the byte behind it to 56 modulo 64. -/
def zeroBytes (n : ℕ) : ℕ := (119 - n % 64) % 64

def pad (message : List UInt8) : List UInt8 :=
  message ++ 0x80 :: List.replicate (zeroBytes message.length) 0x00 ++
    beBytes 8 (8 * message.length)

def sha256 (message : List UInt8) : List UInt8 :=
  (hashBlocks initialHash (pad message)).words.flatMap fun w => beBytes 4 w.toNat

/-! ## HMAC -/

/-- The construction for a hash function with blocks of `blockLen` bytes. -/
def hmac (hash : List UInt8 → List UInt8) (blockLen : ℕ) (key text : List UInt8) :
    List UInt8 :=
  let key := if key.length > blockLen then hash key else key
  let key := key ++ List.replicate (blockLen - key.length) 0x00
  hash (key.map (· ^^^ 0x5C) ++ hash (key.map (· ^^^ 0x36) ++ text))

/-! ## Laws -/

/-- The number of zero bytes is the smallest that will do. -/
theorem zeroBytes_eq_iff {n z : ℕ} : zeroBytes n = z ↔ (n + 1 + z) % 64 = 56 ∧ z < 64 := by
  unfold zeroBytes
  omega

theorem initialHash_eq : initialHash.words = (primesBelow 20).map (rootFraction 2) := by
  have hprimes : primesBelow 20 = [2, 3, 5, 7, 11, 13, 17, 19] := by decide +kernel
  rw [hprimes]
  rfl

theorem scheduleWord_lt {block : List UInt8} {t : ℕ} (ht : t < 16) :
    scheduleWord block t = blockWord block t := by
  rw [scheduleWord, if_pos ht]

theorem scheduleWord_ge {block : List UInt8} {t : ℕ} (ht : 16 ≤ t) :
    scheduleWord block t = smallSigma1 (scheduleWord block (t - 2)) +
      scheduleWord block (t - 7) + smallSigma0 (scheduleWord block (t - 15)) +
      scheduleWord block (t - 16) := by
  rw [scheduleWord, if_neg (by omega)]

section

variable {s : Working} {xs ys : List UInt8}

theorem block_append {i : ℕ} (h : 64 * (i + 1) ≤ xs.length) : block (xs ++ ys) i = block xs i := by
  rw [block, block, List.drop_append_of_le_length (by omega),
    List.take_append_of_le_length (by rw [List.length_drop]; omega)]

theorem block_append_right {i : ℕ} (h : xs.length = 64 * i) :
    block (xs ++ ys) i = ys.take 64 := by
  rw [block, ← h, List.drop_left]

/-- Blocks behind whole blocks are hashed on top of them. -/
theorem hashBlocks_append (h : xs.length % 64 = 0) (hy : ys.length = 64) :
    hashBlocks s (xs ++ ys) = compress (hashBlocks s xs) ys := by
  have hcount : (xs ++ ys).length / 64 = xs.length / 64 + 1 := by
    rw [List.length_append, hy]
    omega
  have hlast : block (xs ++ ys) (xs.length / 64) = ys := by
    rw [block_append_right (by omega), List.take_of_length_le hy.le]
  rw [hashBlocks, hcount, List.range_succ, List.foldl_append, List.foldl_cons, List.foldl_nil,
    hlast, hashBlocks]
  refine congrArg (compress · ys) (List.foldl_ext _ _ _ fun s i hi => ?_)
  rw [block_append]
  have hlt := List.mem_range.1 hi
  omega

end

end UnsoloKey.Fips180
