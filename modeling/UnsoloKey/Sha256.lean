import UnsoloKey.Flash
import Mathlib.Tactic

/-!
# SHA-256 and HMAC

The streaming implementation of sha256.c.  Of its `data` buffer only the bytes
below `datalen` are ever read, so the model keeps those.  Feeding a message in
pieces is feeding it at once, which is what the callers rely on.
-/

namespace UnsoloKey

def rotRight (a b : UInt32) : UInt32 := (a >>> b) ||| (a <<< (32 - b))

def ch (x y z : UInt32) : UInt32 := (x &&& y) ^^^ (~~~x &&& z)
def maj (x y z : UInt32) : UInt32 := (x &&& y) ^^^ (x &&& z) ^^^ (y &&& z)
def ep0 (x : UInt32) : UInt32 := rotRight x 2 ^^^ rotRight x 13 ^^^ rotRight x 22
def ep1 (x : UInt32) : UInt32 := rotRight x 6 ^^^ rotRight x 11 ^^^ rotRight x 25
def sig0 (x : UInt32) : UInt32 := rotRight x 7 ^^^ rotRight x 18 ^^^ (x >>> 3)
def sig1 (x : UInt32) : UInt32 := rotRight x 17 ^^^ rotRight x 19 ^^^ (x >>> 10)

def sha256K : List UInt32 := [
  0x428a2f98, 0x71374491, 0xb5c0fbcf, 0xe9b5dba5, 0x3956c25b, 0x59f111f1,
  0x923f82a4, 0xab1c5ed5, 0xd807aa98, 0x12835b01, 0x243185be, 0x550c7dc3,
  0x72be5d74, 0x80deb1fe, 0x9bdc06a7, 0xc19bf174, 0xe49b69c1, 0xefbe4786,
  0x0fc19dc6, 0x240ca1cc, 0x2de92c6f, 0x4a7484aa, 0x5cb0a9dc, 0x76f988da,
  0x983e5152, 0xa831c66d, 0xb00327c8, 0xbf597fc7, 0xc6e00bf3, 0xd5a79147,
  0x06ca6351, 0x14292967, 0x27b70a85, 0x2e1b2138, 0x4d2c6dfc, 0x53380d13,
  0x650a7354, 0x766a0abb, 0x81c2c92e, 0x92722c85, 0xa2bfe8a1, 0xa81a664b,
  0xc24b8b70, 0xc76c51a3, 0xd192e819, 0xd6990624, 0xf40e3585, 0x106aa070,
  0x19a4c116, 0x1e376c08, 0x2748774c, 0x34b0bcb5, 0x391c0cb3, 0x4ed8aa4a,
  0x5b9cca4f, 0x682e6ff3, 0x748f82ee, 0x78a5636f, 0x84c87814, 0x8cc70208,
  0x90befffa, 0xa4506ceb, 0xbef9a3f7, 0xc67178f2]

/-- The eight words of `state`. -/
structure Sha256State where
  a : UInt32
  b : UInt32
  c : UInt32
  d : UInt32
  e : UInt32
  f : UInt32
  g : UInt32
  h : UInt32

structure Sha256Ctx where
  data : List UInt8
  bitlen : ℕ
  state : Sha256State

/-- A big-endian word of the block. -/
def blockWord (data : List UInt8) (j : ℕ) : UInt32 :=
  ((data.getD j 0).toUInt32 <<< 24) ||| ((data.getD (j + 1) 0).toUInt32 <<< 16) |||
    ((data.getD (j + 2) 0).toUInt32 <<< 8) ||| (data.getD (j + 3) 0).toUInt32

/-- The 64 words `m` of a block. -/
def schedule (data : List UInt8) : List UInt32 :=
  (List.range' 16 48).foldl
    (fun m i => m ++ [sig1 (m.getD (i - 2) 0) + m.getD (i - 7) 0 +
      sig0 (m.getD (i - 15) 0) + m.getD (i - 16) 0])
    ((List.range 16).map fun i => blockWord data (4 * i))

def sha256Round (s : Sha256State) (km : UInt32 × UInt32) : Sha256State :=
  let t1 := s.h + ep1 s.e + ch s.e s.f s.g + km.1 + km.2
  let t2 := ep0 s.a + maj s.a s.b s.c
  ⟨t1 + t2, s.a, s.b, s.c, s.d + t1, s.e, s.f, s.g⟩

def sha256Transform (s : Sha256State) (data : List UInt8) : Sha256State :=
  let r := (sha256K.zip (schedule data)).foldl sha256Round s
  ⟨s.a + r.a, s.b + r.b, s.c + r.c, s.d + r.d, s.e + r.e, s.f + r.f, s.g + r.g,
    s.h + r.h⟩

def sha256Init : Sha256Ctx where
  data := []
  bitlen := 0
  state := ⟨0x6a09e667, 0xbb67ae85, 0x3c6ef372, 0xa54ff53a, 0x510e527f,
    0x9b05688c, 0x1f83d9ab, 0x5be0cd19⟩

/-- One round of the loop of `sha256_update`. -/
def sha256Byte (ctx : Sha256Ctx) (b : UInt8) : Sha256Ctx :=
  if ctx.data.length + 1 = 64 then
    { data := []
      bitlen := (ctx.bitlen + 512) % 2 ^ 64
      state := sha256Transform ctx.state (ctx.data ++ [b]) }
  else { ctx with data := ctx.data ++ [b] }

def sha256Update (ctx : Sha256Ctx) (data : List UInt8) : Sha256Ctx :=
  data.foldl sha256Byte ctx

def be64Bytes (n : ℕ) : List UInt8 :=
  (List.range 8).map fun i => UInt8.ofNat (n / 256 ^ (7 - i))

def wordBytes (w : UInt32) : Bytes 4 :=
  ⟨[(w >>> 24).toUInt8, (w >>> 16).toUInt8, (w >>> 8).toUInt8, w.toUInt8], rfl⟩

def Sha256State.digest (s : Sha256State) : Bytes 32 :=
  ⟨(wordBytes s.a).val ++ (wordBytes s.b).val ++ (wordBytes s.c).val ++
    (wordBytes s.d).val ++ (wordBytes s.e).val ++ (wordBytes s.f).val ++
    (wordBytes s.g).val ++ (wordBytes s.h).val, by
      simp [(wordBytes _).property]⟩

def sha256Final (ctx : Sha256Ctx) : Bytes 32 :=
  let bitlen := (ctx.bitlen + ctx.data.length * 8) % 2 ^ 64
  if ctx.data.length < 56 then
    let block := ctx.data ++ 0x80 :: List.replicate (55 - ctx.data.length) 0
    (sha256Transform ctx.state (block ++ be64Bytes bitlen)).digest
  else
    let block := ctx.data ++ 0x80 :: List.replicate (63 - ctx.data.length) 0
    let state := sha256Transform ctx.state block
    (sha256Transform state (List.replicate 56 0 ++ be64Bytes bitlen)).digest

/-- The digest of a message fed at once. -/
def sha256 (data : List UInt8) : Bytes 32 :=
  sha256Final (sha256Update sha256Init data)

theorem sha256Update_append (ctx : Sha256Ctx) (xs ys : List UInt8) :
    sha256Update ctx (xs ++ ys) = sha256Update (sha256Update ctx xs) ys :=
  List.foldl_append

/-- The key block of HMAC, each byte combined with `pad`. -/
def hmacPad (key : List UInt8) (pad : UInt8) : List UInt8 :=
  (key ++ List.replicate (64 - key.length) 0).map fun b => b ^^^ pad

def hmacSha256 (key data : List UInt8) : Bytes 32 :=
  let key := if key.length > 64 then (sha256 key).val else key
  let inner := sha256Final
    (sha256Update (sha256Update sha256Init (hmacPad key 0x36)) data)
  sha256Final
    (sha256Update (sha256Update sha256Init (hmacPad key 0x5c)) inner.val)

set_option maxRecDepth 10000 in
example : (sha256 (List.replicate 3 0x61)).val.take 4 =
    [0x98, 0x34, 0x87, 0x6d] := by
  decide +kernel

end UnsoloKey
