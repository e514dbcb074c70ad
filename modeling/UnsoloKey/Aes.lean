import UnsoloKey.Flash
import Mathlib.Tactic

/-!
# AES-256 in CBC mode

The block cipher of aes.c.  A state is a block of sixteen bytes: the entry
`(*state)[i][j]` of the source is byte `4 * i + j`.  The two CBC routines of
pin.c call the cipher block by block, with the chaining value kept between the
calls.
-/

namespace UnsoloKey

namespace Aes

def nk : ℕ := 8
def nr : ℕ := 14
def blockLen : ℕ := 16

def sbox : List UInt8 := [
  0x63, 0x7c, 0x77, 0x7b, 0xf2, 0x6b, 0x6f, 0xc5, 0x30, 0x01, 0x67, 0x2b,
  0xfe, 0xd7, 0xab, 0x76, 0xca, 0x82, 0xc9, 0x7d, 0xfa, 0x59, 0x47, 0xf0,
  0xad, 0xd4, 0xa2, 0xaf, 0x9c, 0xa4, 0x72, 0xc0, 0xb7, 0xfd, 0x93, 0x26,
  0x36, 0x3f, 0xf7, 0xcc, 0x34, 0xa5, 0xe5, 0xf1, 0x71, 0xd8, 0x31, 0x15,
  0x04, 0xc7, 0x23, 0xc3, 0x18, 0x96, 0x05, 0x9a, 0x07, 0x12, 0x80, 0xe2,
  0xeb, 0x27, 0xb2, 0x75, 0x09, 0x83, 0x2c, 0x1a, 0x1b, 0x6e, 0x5a, 0xa0,
  0x52, 0x3b, 0xd6, 0xb3, 0x29, 0xe3, 0x2f, 0x84, 0x53, 0xd1, 0x00, 0xed,
  0x20, 0xfc, 0xb1, 0x5b, 0x6a, 0xcb, 0xbe, 0x39, 0x4a, 0x4c, 0x58, 0xcf,
  0xd0, 0xef, 0xaa, 0xfb, 0x43, 0x4d, 0x33, 0x85, 0x45, 0xf9, 0x02, 0x7f,
  0x50, 0x3c, 0x9f, 0xa8, 0x51, 0xa3, 0x40, 0x8f, 0x92, 0x9d, 0x38, 0xf5,
  0xbc, 0xb6, 0xda, 0x21, 0x10, 0xff, 0xf3, 0xd2, 0xcd, 0x0c, 0x13, 0xec,
  0x5f, 0x97, 0x44, 0x17, 0xc4, 0xa7, 0x7e, 0x3d, 0x64, 0x5d, 0x19, 0x73,
  0x60, 0x81, 0x4f, 0xdc, 0x22, 0x2a, 0x90, 0x88, 0x46, 0xee, 0xb8, 0x14,
  0xde, 0x5e, 0x0b, 0xdb, 0xe0, 0x32, 0x3a, 0x0a, 0x49, 0x06, 0x24, 0x5c,
  0xc2, 0xd3, 0xac, 0x62, 0x91, 0x95, 0xe4, 0x79, 0xe7, 0xc8, 0x37, 0x6d,
  0x8d, 0xd5, 0x4e, 0xa9, 0x6c, 0x56, 0xf4, 0xea, 0x65, 0x7a, 0xae, 0x08,
  0xba, 0x78, 0x25, 0x2e, 0x1c, 0xa6, 0xb4, 0xc6, 0xe8, 0xdd, 0x74, 0x1f,
  0x4b, 0xbd, 0x8b, 0x8a, 0x70, 0x3e, 0xb5, 0x66, 0x48, 0x03, 0xf6, 0x0e,
  0x61, 0x35, 0x57, 0xb9, 0x86, 0xc1, 0x1d, 0x9e, 0xe1, 0xf8, 0x98, 0x11,
  0x69, 0xd9, 0x8e, 0x94, 0x9b, 0x1e, 0x87, 0xe9, 0xce, 0x55, 0x28, 0xdf,
  0x8c, 0xa1, 0x89, 0x0d, 0xbf, 0xe6, 0x42, 0x68, 0x41, 0x99, 0x2d, 0x0f,
  0xb0, 0x54, 0xbb, 0x16]

def rsbox : List UInt8 := [
  0x52, 0x09, 0x6a, 0xd5, 0x30, 0x36, 0xa5, 0x38, 0xbf, 0x40, 0xa3, 0x9e,
  0x81, 0xf3, 0xd7, 0xfb, 0x7c, 0xe3, 0x39, 0x82, 0x9b, 0x2f, 0xff, 0x87,
  0x34, 0x8e, 0x43, 0x44, 0xc4, 0xde, 0xe9, 0xcb, 0x54, 0x7b, 0x94, 0x32,
  0xa6, 0xc2, 0x23, 0x3d, 0xee, 0x4c, 0x95, 0x0b, 0x42, 0xfa, 0xc3, 0x4e,
  0x08, 0x2e, 0xa1, 0x66, 0x28, 0xd9, 0x24, 0xb2, 0x76, 0x5b, 0xa2, 0x49,
  0x6d, 0x8b, 0xd1, 0x25, 0x72, 0xf8, 0xf6, 0x64, 0x86, 0x68, 0x98, 0x16,
  0xd4, 0xa4, 0x5c, 0xcc, 0x5d, 0x65, 0xb6, 0x92, 0x6c, 0x70, 0x48, 0x50,
  0xfd, 0xed, 0xb9, 0xda, 0x5e, 0x15, 0x46, 0x57, 0xa7, 0x8d, 0x9d, 0x84,
  0x90, 0xd8, 0xab, 0x00, 0x8c, 0xbc, 0xd3, 0x0a, 0xf7, 0xe4, 0x58, 0x05,
  0xb8, 0xb3, 0x45, 0x06, 0xd0, 0x2c, 0x1e, 0x8f, 0xca, 0x3f, 0x0f, 0x02,
  0xc1, 0xaf, 0xbd, 0x03, 0x01, 0x13, 0x8a, 0x6b, 0x3a, 0x91, 0x11, 0x41,
  0x4f, 0x67, 0xdc, 0xea, 0x97, 0xf2, 0xcf, 0xce, 0xf0, 0xb4, 0xe6, 0x73,
  0x96, 0xac, 0x74, 0x22, 0xe7, 0xad, 0x35, 0x85, 0xe2, 0xf9, 0x37, 0xe8,
  0x1c, 0x75, 0xdf, 0x6e, 0x47, 0xf1, 0x1a, 0x71, 0x1d, 0x29, 0xc5, 0x89,
  0x6f, 0xb7, 0x62, 0x0e, 0xaa, 0x18, 0xbe, 0x1b, 0xfc, 0x56, 0x3e, 0x4b,
  0xc6, 0xd2, 0x79, 0x20, 0x9a, 0xdb, 0xc0, 0xfe, 0x78, 0xcd, 0x5a, 0xf4,
  0x1f, 0xdd, 0xa8, 0x33, 0x88, 0x07, 0xc7, 0x31, 0xb1, 0x12, 0x10, 0x59,
  0x27, 0x80, 0xec, 0x5f, 0x60, 0x51, 0x7f, 0xa9, 0x19, 0xb5, 0x4a, 0x0d,
  0x2d, 0xe5, 0x7a, 0x9f, 0x93, 0xc9, 0x9c, 0xef, 0xa0, 0xe0, 0x3b, 0x4d,
  0xae, 0x2a, 0xf5, 0xb0, 0xc8, 0xeb, 0xbb, 0x3c, 0x83, 0x53, 0x99, 0x61,
  0x17, 0x2b, 0x04, 0x7e, 0xba, 0x77, 0xd6, 0x26, 0xe1, 0x69, 0x14, 0x63,
  0x55, 0x21, 0x0c, 0x7d]

def rcon : List UInt8 := [
  0x8d, 0x01, 0x02, 0x04, 0x08, 0x10, 0x20, 0x40, 0x80, 0x1b, 0x36]

abbrev Block := Bytes 16

def Block.byte (s : Block) (i : ℕ) : UInt8 := s.val.getD i 0

def Block.ofFn (f : ℕ → UInt8) : Block :=
  ⟨(List.range 16).map f, by simp⟩

def subByte (b : UInt8) : UInt8 := sbox.getD b.toNat 0
def invSubByte (b : UInt8) : UInt8 := rsbox.getD b.toNat 0

/-- One word of the key schedule from the word before it. -/
def scheduleWord (i : ℕ) (w : List UInt8) : List UInt8 :=
  if i % nk = 0 then
    match (w.rotate 1).map subByte with
    | [] => []
    | b :: rest => (b ^^^ rcon.getD (i / nk) 0) :: rest
  else if i % nk = 4 then w.map subByte
  else w

/-- `KeyExpansion`: the words after the key are found one by one. -/
def keyExpansion (key : Bytes 32) : List UInt8 :=
  (List.range' nk (4 * (nr + 1) - nk)).foldl (fun roundKey i =>
    let last := (roundKey.drop (4 * (i - 1))).take 4
    let old := (roundKey.drop (4 * (i - nk))).take 4
    roundKey ++ List.zipWith (· ^^^ ·) old (scheduleWord i last)) key.val

def addRoundKey (round : ℕ) (s : Block) (roundKey : List UInt8) : Block :=
  Block.ofFn fun i => s.byte i ^^^ roundKey.getD (16 * round + i) 0

def subBytes (s : Block) : Block := Block.ofFn fun i => subByte (s.byte i)

def invSubBytes (s : Block) : Block := Block.ofFn fun i => invSubByte (s.byte i)

/-- Row `j` moves by `j` columns. -/
def shiftRows (s : Block) : Block :=
  Block.ofFn fun i => s.byte (4 * ((i / 4 + i % 4) % 4) + i % 4)

def invShiftRows (s : Block) : Block :=
  Block.ofFn fun i => s.byte (4 * ((i / 4 + 4 - i % 4) % 4) + i % 4)

def xtime (x : UInt8) : UInt8 := (x <<< 1) ^^^ (((x >>> 7) &&& 1) * 0x1b)

def mixColumns (s : Block) : Block :=
  Block.ofFn fun i =>
    let col := fun j => s.byte (4 * (i / 4) + j % 4)
    let tmp := col 0 ^^^ col 1 ^^^ col 2 ^^^ col 3
    col (i % 4) ^^^ xtime (col (i % 4) ^^^ col (i % 4 + 1)) ^^^ tmp

def multiply (x y : UInt8) : UInt8 :=
  let bit := fun k : UInt8 => (y >>> k) &&& (1 : UInt8)
  (bit 0 * x) ^^^ (bit 1 * xtime x) ^^^ (bit 2 * xtime (xtime x)) ^^^
    (bit 3 * xtime (xtime (xtime x))) ^^^
    (bit 4 * xtime (xtime (xtime (xtime x))))

/-- The four products of a row are those of the row above, moved by one. -/
def invMixColumns (s : Block) : Block :=
  Block.ofFn fun i =>
    let col := fun j => s.byte (4 * (i / 4) + j % 4)
    multiply (col (i % 4)) 0x0e ^^^ multiply (col (i % 4 + 1)) 0x0b ^^^
      multiply (col (i % 4 + 2)) 0x0d ^^^ multiply (col (i % 4 + 3)) 0x09

def cipher (roundKey : List UInt8) (s : Block) : Block :=
  let inner := (List.range' 1 (nr - 1)).foldl (fun s round =>
    addRoundKey round (mixColumns (shiftRows (subBytes s))) roundKey)
    (addRoundKey 0 s roundKey)
  addRoundKey nr (shiftRows (subBytes inner)) roundKey

def invCipher (roundKey : List UInt8) (s : Block) : Block :=
  let inner := (List.range' 1 (nr - 1)).foldr (fun round s =>
    invMixColumns (addRoundKey round (invSubBytes (invShiftRows s)) roundKey))
    (addRoundKey nr s roundKey)
  addRoundKey 0 (invSubBytes (invShiftRows inner)) roundKey

def xorWithIv (s iv : Block) : Block :=
  Block.ofFn fun i => s.byte i ^^^ iv.byte i

/-- `AES_CBC_decrypt_buffer` on `n` blocks. -/
def cbcDecrypt (roundKey : List UInt8) : ℕ → Block → List UInt8 → List UInt8
  | 0, _, _ => []
  | n + 1, iv, data =>
      let block := Bytes.fill 0 16 (data.take 16)
      (xorWithIv (invCipher roundKey block) iv).val ++
        cbcDecrypt roundKey n block (data.drop 16)

/-- `AES_CBC_encrypt_buffer` on `n` blocks. -/
def cbcEncrypt (roundKey : List UInt8) : ℕ → Block → List UInt8 → List UInt8
  | 0, _, _ => []
  | n + 1, iv, data =>
      let block := cipher roundKey (xorWithIv (Bytes.fill 0 16 (data.take 16)) iv)
      block.val ++ cbcEncrypt roundKey n block (data.drop 16)

theorem cbcDecrypt_length (roundKey : List UInt8) (n : ℕ) (iv : Block)
    (data : List UInt8) : (cbcDecrypt roundKey n iv data).length = 16 * n := by
  induction n generalizing iv data with
  | zero => rfl
  | succ n ih =>
      rw [cbcDecrypt, List.length_append, ih, Bytes.length_val]
      omega

theorem cbcEncrypt_length (roundKey : List UInt8) (n : ℕ) (iv : Block)
    (data : List UInt8) : (cbcEncrypt roundKey n iv data).length = 16 * n := by
  induction n generalizing iv data with
  | zero => rfl
  | succ n ih =>
      rw [cbcEncrypt, List.length_append, ih, Bytes.length_val]
      omega

end Aes

/-- `aes_decrypt` of pin.c on `16 * n` bytes. -/
def aesDecrypt (key : Bytes 32) (iv : Aes.Block) (n : ℕ)
    (ciphertext : List UInt8) : Bytes (16 * n) :=
  ⟨Aes.cbcDecrypt (Aes.keyExpansion key) n iv ciphertext,
    Aes.cbcDecrypt_length _ n iv ciphertext⟩

/-- `aes_encrypt` of pin.c on `16 * n` bytes. -/
def aesEncrypt (key : Bytes 32) (iv : Aes.Block) (n : ℕ)
    (plaintext : List UInt8) : Bytes (16 * n) :=
  ⟨Aes.cbcEncrypt (Aes.keyExpansion key) n iv plaintext,
    Aes.cbcEncrypt_length _ n iv plaintext⟩

end UnsoloKey
