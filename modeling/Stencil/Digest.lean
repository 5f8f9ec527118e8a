import Stencil.Style.Hash

/-!
# Digests of texts

The 64-bit digest XXH3 with seed zero and its usual secret, over the bytes of a text.  Short inputs
are mixed in one step each; inputs above 240 bytes go through eight lanes in stripes of 64 bytes.
-/

namespace Stencil.Digest

/-- The secret that inputs are mixed with. -/
def secret : Array UInt8 := #[
  0xb8, 0xfe, 0x6c, 0x39, 0x23, 0xa4, 0x4b, 0xbe, 0x7c, 0x01, 0x81, 0x2c, 0xf7, 0x21, 0xad, 0x1c,
  0xde, 0xd4, 0x6d, 0xe9, 0x83, 0x90, 0x97, 0xdb, 0x72, 0x40, 0xa4, 0xa4, 0xb7, 0xb3, 0x67, 0x1f,
  0xcb, 0x79, 0xe6, 0x4e, 0xcc, 0xc0, 0xe5, 0x78, 0x82, 0x5a, 0xd0, 0x7d, 0xcc, 0xff, 0x72, 0x21,
  0xb8, 0x08, 0x46, 0x74, 0xf7, 0x43, 0x24, 0x8e, 0xe0, 0x35, 0x90, 0xe6, 0x81, 0x3a, 0x26, 0x4c,
  0x3c, 0x28, 0x52, 0xbb, 0x91, 0xc3, 0x00, 0xcb, 0x88, 0xd0, 0x65, 0x8b, 0x1b, 0x53, 0x2e, 0xa3,
  0x71, 0x64, 0x48, 0x97, 0xa2, 0x0d, 0xf9, 0x4e, 0x38, 0x19, 0xef, 0x46, 0xa9, 0xde, 0xac, 0xd8,
  0xa8, 0xfa, 0x76, 0x3f, 0xe3, 0x9c, 0x34, 0x3f, 0xf9, 0xdc, 0xbb, 0xc7, 0xc7, 0x0b, 0x4f, 0x1d,
  0x8a, 0x51, 0xe0, 0x4b, 0xcd, 0xb4, 0x59, 0x31, 0xc8, 0x9f, 0x7e, 0xc9, 0xd9, 0x78, 0x73, 0x64,
  0xea, 0xc5, 0xac, 0x83, 0x34, 0xd3, 0xeb, 0xc3, 0xc5, 0x81, 0xa0, 0xff, 0xfa, 0x13, 0x63, 0xeb,
  0x17, 0x0d, 0xdd, 0x51, 0xb7, 0xf0, 0xda, 0x49, 0xd3, 0x16, 0x55, 0x26, 0x29, 0xd4, 0x68, 0x9e,
  0x2b, 0x16, 0xbe, 0x58, 0x7d, 0x47, 0xa1, 0xfc, 0x8f, 0xf8, 0xb8, 0xd1, 0x7a, 0xd0, 0x31, 0xce,
  0x45, 0xcb, 0x3a, 0x8f, 0x95, 0x16, 0x04, 0x28, 0xaf, 0xd7, 0xfb, 0xca, 0xbb, 0x4b, 0x40, 0x7e]

/-- The primes of 32 bits. -/
def primeA1 : UInt64 := 0x9E3779B1

@[inherit_doc primeA1] def primeA2 : UInt64 := 0x85EBCA77

@[inherit_doc primeA1] def primeA3 : UInt64 := 0xC2B2AE3D

/-- The primes of 64 bits. -/
def primeB1 : UInt64 := 0x9E3779B185EBCA87

@[inherit_doc primeB1] def primeB2 : UInt64 := 0xC2B2AE3D27D4EB4F

@[inherit_doc primeB1] def primeB3 : UInt64 := 0x165667B19E3779F9

@[inherit_doc primeB1] def primeB4 : UInt64 := 0x85EBCA77C2B2AE63

@[inherit_doc primeB1] def primeB5 : UInt64 := 0x27D4EB2F165667C5

/-- The byte at a place, zero behind the end. -/
def byteAt (bytes : Array UInt8) (i : Nat) : UInt64 := (bytes.getD i 0).toUInt64

/-- The number that `count` bytes form, the lowest first. -/
def word (bytes : Array UInt8) (start count : Nat) : UInt64 :=
  (List.range count).foldr (fun i (n : UInt64) => n * 256 + byteAt bytes (start + i)) 0

/-- Eight bytes as a number. -/
def word64 (bytes : Array UInt8) (start : Nat) : UInt64 := word bytes start 8

/-- Four bytes as a number. -/
def word32 (bytes : Array UInt8) (start : Nat) : UInt64 := word bytes start 4

/-- The bits moved left in a circle. -/
def rotate (x : UInt64) (by_ : UInt64) : UInt64 := (x <<< by_) ||| (x >>> (64 - by_))

/-- The bytes in opposite order. -/
def swapBytes (x : UInt64) : UInt64 :=
  (List.range 8).foldl (fun (n : UInt64) (i : Nat) =>
    n * 256 + ((x >>> UInt64.ofNat (8 * i)) &&& 0xff)) 0

/-- The two halves of a product of 128 bits, joined. -/
def foldProduct (a b : UInt64) : UInt64 :=
  let p := a.toNat * b.toNat
  p.toUInt64 ^^^ (p >>> 64).toUInt64

/-- The last step for most inputs. -/
def avalanche (h : UInt64) : UInt64 :=
  let h := h ^^^ (h >>> 37)
  let h := h * 0x165667919E3779F9
  h ^^^ (h >>> 32)

/-- The last step for inputs below four bytes. -/
def avalancheShort (h : UInt64) : UInt64 :=
  let h := (h ^^^ (h >>> 33)) * primeB2
  let h := (h ^^^ (h >>> 29)) * primeB3
  h ^^^ (h >>> 32)

/-- Sixteen bytes mixed with sixteen bytes of the secret. -/
def mix (bytes : Array UInt8) (i key : Nat) : UInt64 :=
  foldProduct (word64 bytes i ^^^ word64 secret key)
    (word64 bytes (i + 8) ^^^ word64 secret (key + 8))

/-- The digest of one to three bytes. -/
def digest3 (bytes : Array UInt8) : UInt64 :=
  let size := bytes.size
  let combined := (byteAt bytes 0 <<< 16) ||| (byteAt bytes (size / 2) <<< 24) |||
    byteAt bytes (size - 1) ||| (size.toUInt64 <<< 8)
  avalancheShort (combined ^^^ (word32 secret 0 ^^^ word32 secret 4))

/-- The digest of four to eight bytes. -/
def digest8 (bytes : Array UInt8) : UInt64 :=
  let size := bytes.size
  let input := word32 bytes (size - 4) + (word32 bytes 0 <<< 32)
  let h := input ^^^ (word64 secret 8 ^^^ word64 secret 16)
  let h := h ^^^ rotate h 49 ^^^ rotate h 24
  let h := h * 0x9FB21C651E98DF25
  let h := h ^^^ ((h >>> 35) + size.toUInt64)
  let h := h * 0x9FB21C651E98DF25
  h ^^^ (h >>> 28)

/-- The digest of nine to sixteen bytes. -/
def digest16 (bytes : Array UInt8) : UInt64 :=
  let size := bytes.size
  let low := word64 bytes 0 ^^^ (word64 secret 24 ^^^ word64 secret 32)
  let high := word64 bytes (size - 8) ^^^ (word64 secret 40 ^^^ word64 secret 48)
  avalanche (size.toUInt64 + swapBytes low + high + foldProduct low high)

/-- The digest of 17 to 128 bytes: pieces from both ends, two for each 32 bytes begun. -/
def digest128 (bytes : Array UInt8) : UInt64 :=
  let size := bytes.size
  let pairs := (List.range ((size - 1) / 32 + 1)).map fun i =>
    mix bytes (16 * i) (32 * i) + mix bytes (size - 16 * (i + 1)) (32 * i + 16)
  avalanche (pairs.foldl (· + ·) (size.toUInt64 * primeB1))

/-- The digest of 129 to 240 bytes. -/
def digest240 (bytes : Array UInt8) : UInt64 :=
  let size := bytes.size
  let first := (List.range 8).map fun i => mix bytes (16 * i) (16 * i)
  let acc := avalanche (first.foldl (· + ·) (size.toUInt64 * primeB1))
  let others := (List.range (size / 16 - 8)).map fun i => mix bytes (16 * (i + 8)) (16 * i + 3)
  avalanche (others.foldl (· + ·) (acc + mix bytes (size - 16) 119))

/-- The eight lanes that long inputs go through, before any input. -/
def lanesAtStart : Array UInt64 :=
  #[primeA3, primeB1, primeB2, primeB3, primeB4, primeA2, primeB5, primeA1]

/-- The lanes after a stripe of 64 bytes. -/
def accumulate (lanes : Array UInt64) (bytes : Array UInt8) (i key : Nat) : Array UInt64 :=
  let value (n : Nat) : UInt64 := word64 bytes (i + 8 * n)
  let keyed (n : Nat) : UInt64 := value n ^^^ word64 secret (key + 8 * n)
  let other (n : Nat) := if n % 2 = 0 then n + 1 else n - 1
  (Array.range 8).map fun (n : Nat) =>
    let k : UInt64 := keyed n
    lanes.getD n 0 + value (other n) + (k &&& (0xffffffff : UInt64)) * (k >>> 32)

/-- The lanes after a block of sixteen stripes has been read. -/
def scramble (lanes : Array UInt64) : Array UInt64 :=
  (Array.range 8).map fun (n : Nat) =>
    let a := lanes.getD n 0
    (a ^^^ (a >>> 47) ^^^ word64 secret (128 + 8 * n)) * primeA1

/-- The lanes after some stripes of the block that starts at `i`. -/
def stripes (lanes : Array UInt64) (bytes : Array UInt8) (i count : Nat) : Array UInt64 :=
  (List.range count).foldl (fun ls n => accumulate ls bytes (i + 64 * n) (8 * n)) lanes

/-- The digest of more than 240 bytes. -/
def digestLong (bytes : Array UInt8) : UInt64 :=
  let size := bytes.size
  let blocks := (size - 1) / 1024
  let lanes := (List.range blocks).foldl
    (fun ls b => scramble (stripes ls bytes (1024 * b) 16)) lanesAtStart
  let lanes := stripes lanes bytes (1024 * blocks) ((size - 1 - 1024 * blocks) / 64)
  let lanes := accumulate lanes bytes (size - 64) 121
  let merged := (List.range 4).foldl (fun h i =>
    h + foldProduct (lanes.getD (2 * i) 0 ^^^ word64 secret (11 + 16 * i))
      (lanes.getD (2 * i + 1) 0 ^^^ word64 secret (19 + 16 * i))) (size.toUInt64 * primeB1)
  avalanche merged

/-- The digest of some bytes. -/
def digest (bytes : Array UInt8) : UInt64 :=
  let size := bytes.size
  if size = 0 then avalancheShort (word64 secret 56 ^^^ word64 secret 64)
  else if size ≤ 3 then digest3 bytes
  else if size ≤ 8 then digest8 bytes
  else if size ≤ 16 then digest16 bytes
  else if size ≤ 128 then digest128 bytes
  else if size ≤ 240 then digest240 bytes
  else digestLong bytes

/-- The digest of a text. -/
def xxh3 (text : String) : UInt64 := digest text.toUTF8.data

/-- The hash of a style by this digest. -/
def ofText (css : String) : String := Style.contentHash xxh3 css

end Stencil.Digest
