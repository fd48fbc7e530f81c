import SphSc.Lib.Exec
/-!
# `murmur3.c`

`MurmurHash3_x64_128` on little-endian machines. The data is a list of the
`len` bytes it reads; the two words it writes are a pair.
-/
open Exec

namespace SphSc.Ikv.Murmur3

abbrev Word64 := BitVec 64

def rotl64 (x : Word64) (r : Nat) : Word64 := (x <<< r) ||| (x >>> (64 - r))

/-- The bytes as one word, the first one lowest. -/
def word (bytes : List Byte) : Word64 :=
  bytes.foldr (fun b w => (w <<< 8) ^^^ b.setWidth 64) 0

/-- `getblock` on the 64-bit words of `data`. -/
def getblock (data : List Byte) (i : Nat) : Word64 := word ((data.drop (8 * i)).take 8)

def fmix64 (k : Word64) : Word64 :=
  let k := k ^^^ (k >>> 33)
  let k := k * 0xff51afd7ed558ccd
  let k := k ^^^ (k >>> 33)
  let k := k * 0xc4ceb9fe1a85ec53
  k ^^^ (k >>> 33)

def c1 : Word64 := 0x87c37b91114253d5
def c2 : Word64 := 0x4cf5ad432745937f

/-- What the body and the tail do to a word before it goes into `h1` and `h2`. -/
def mix1 (k1 : Word64) : Word64 := rotl64 (k1 * c1) 31 * c2
def mix2 (k2 : Word64) : Word64 := rotl64 (k2 * c2) 33 * c1

/-- The body of the loop over the blocks. -/
def round (data : List Byte) (h : Word64 × Word64) (i : Nat) : Word64 × Word64 :=
  let k1 := getblock data (i * 2 + 0)
  let k2 := getblock data (i * 2 + 1)
  let h1 := rotl64 (h.1 ^^^ mix1 k1) 27 + h.2
  let h1 := h1 * 5 + 0x52dce729
  let h2 := rotl64 (h.2 ^^^ mix2 k2) 31 + h1
  let h2 := h2 * 5 + 0x38495ab5
  (h1, h2)

/-- The `switch` on the number of bytes left, each case falling through to the next. -/
def tail (left : List Byte) (h : Word64 × Word64) : Word64 × Word64 :=
  let h2 := if 9 ≤ left.length then h.2 ^^^ mix2 (word (left.drop 8)) else h.2
  let h1 := if 1 ≤ left.length then h.1 ^^^ mix1 (word (left.take 8)) else h.1
  (h1, h2)

def murmurHash3 (data : List Byte) (seed : BitVec 32) : Word64 × Word64 :=
  let len : Word64 := BitVec.ofNat 64 data.length
  let nblocks := data.length / 16
  let h := (List.range nblocks).foldl (round data) (seed.setWidth 64, seed.setWidth 64)
  let (h1, h2) := tail (data.drop (nblocks * 16)) h
  let h1 := h1 ^^^ len
  let h2 := h2 ^^^ len
  let h1 := h1 + h2
  let h2 := h2 + h1
  let h1 := fmix64 h1
  let h2 := fmix64 h2
  let h1 := h1 + h2
  let h2 := h2 + h1
  (h1, h2)

end SphSc.Ikv.Murmur3
