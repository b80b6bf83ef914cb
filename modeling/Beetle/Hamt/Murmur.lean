import Beetle.Hamt.Utf8

/-!
# Murmur — the key hash of the HAMT

`hash_key` (hamt.rs:397-407) hashes a key's UTF-8 bytes with
`fastmurmur3::hash`, MurmurHash3 x64 128 with seed 0, and keeps `h1`, the
first 64-bit half, as 8 big-endian bytes. The crate is not part of the
repository; the hash below is the published algorithm, on `UInt64` with
its wrapping arithmetic. The source's own test vector (hamt.rs:419-421)
checks the model.

All recursion is structural, so the hash of a concrete key evaluates by
`decide`.
-/

namespace Beetle

namespace Murmur

def c1 : UInt64 := 0x87c37b91114253d5
def c2 : UInt64 := 0x4cf5ad432745937f

/-- `rotl64`. -/
def rotl (x : UInt64) (r : UInt64) : UInt64 := (x <<< r) ||| (x >>> (64 - r))

/-- `fmix64`, the finalisation mix. -/
def fmix (k : UInt64) : UInt64 :=
  let k := k ^^^ (k >>> 33)
  let k := k * 0xff51afd7ed558ccd
  let k := k ^^^ (k >>> 33)
  let k := k * 0xc4ceb9fe1a85ec53
  k ^^^ (k >>> 33)

/-- Up to eight bytes read as a little-endian word. -/
def wordLE : List UInt8 → UInt64
  | [] => 0
  | b :: bs => b.toUInt64 ||| (wordLE bs <<< 8)

/-- The scrambled lanes `k1` and `k2`. -/
def mixK1 (k : UInt64) : UInt64 := rotl (k * c1) 31 * c2
def mixK2 (k : UInt64) : UInt64 := rotl (k * c2) 33 * c1

/-- One 16-byte block. -/
def block (bs : List UInt8) (h : UInt64 × UInt64) : UInt64 × UInt64 :=
  let h1 := h.1 ^^^ mixK1 (wordLE (bs.take 8))
  let h1 := (rotl h1 27 + h.2) * 5 + 0x52dce729
  let h2 := h.2 ^^^ mixK2 (wordLE (bs.drop 8))
  let h2 := (rotl h2 31 + h1) * 5 + 0x38495ab5
  (h1, h2)

/-- The body: `n` whole blocks, then what is left. -/
def body : Nat → List UInt8 → UInt64 × UInt64 → UInt64 × UInt64 × List UInt8
  | 0, bs, h => (h.1, h.2, bs)
  | n + 1, bs, h => body n (bs.drop 16) (block (bs.take 16) h)

/-- The tail of fewer than 16 bytes: bytes 8.. into `h2`, bytes ..8 into
`h1`, each only when present. -/
def tail (bs : List UInt8) (h : UInt64 × UInt64) : UInt64 × UInt64 :=
  let h2 := if 8 < bs.length then h.2 ^^^ mixK2 (wordLE (bs.drop 8)) else h.2
  let h1 := if 0 < bs.length then h.1 ^^^ mixK1 (wordLE (bs.take 8)) else h.1
  (h1, h2)

/-- MurmurHash3 x64 128 with seed 0, as `(h1, h2)`. -/
def hash (data : List UInt8) : UInt64 × UInt64 :=
  let (h1, h2, rest) := body (data.length / 16) data (0, 0)
  let (h1, h2) := tail rest (h1, h2)
  let len := data.length.toUInt64
  let h1 := h1 ^^^ len
  let h2 := h2 ^^^ len
  let h1 := h1 + h2
  let h2 := h2 + h1
  let h1 := fmix h1
  let h2 := fmix h2
  let h1 := h1 + h2
  (h1, h2 + h1)

end Murmur

/-- A word as 8 big-endian bytes (`u64::to_be_bytes`). -/
def bytesBE (w : UInt64) : List UInt8 :=
  ([56, 48, 40, 32, 24, 16, 8, 0] : List UInt64).map fun s => (w >>> s).toUInt8

/-- `hash_key`: `h1` of the key's hash, big-endian. -/
def hashKey (key : String) : Bytes := bytesBE (Murmur.hash (utf8 key)).1

/-- `test_hash_key`. -/
example : hashKey "1.txt" = [7, 193, 130, 130, 92, 180, 71, 225] := by decide

end Beetle
