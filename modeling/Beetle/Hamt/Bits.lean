import Beetle.Hamt.Murmur
import Mathlib.Data.Nat.Bitwise
import Mathlib.Tactic.Ring

/-!
# Bits — the hashed key and the shard bitfield

`get_value` reads a hashed key `bit_width` bits at a time through
`HashBits::next`, tests the chunk in the shard's `Bitfield`, and turns it
into a pointer index with `index_for_bit_pos`: the number of set bits below
it (hamt.rs:238-242, 353-357). Neither `hash_bits.rs` nor `bitfield.rs` is
part of the repository, so both are modelled here; `onesBelow` is the
`set_bits_le(bp).and(bitfield).count_ones()` of hamt.rs itself.

The main fact, `onesBelow_lt_of_testBit`, is the bound behind every pointer
lookup: a set bit's index is below the number of set bits of the field.
-/

namespace Beetle

/-- Bytes read as a big-endian number (`u64::from_be_bytes` and the byte
order of a serialized bitfield). -/
def beNat (bs : Bytes) : Nat := bs.foldl (fun a b => a * 256 + b.toNat) 0

theorem foldl_beNat (a : Nat) (ys : Bytes) :
    ys.foldl (fun a b => a * 256 + b.toNat) a = a * 256 ^ ys.length + beNat ys := by
  induction ys generalizing a with
  | nil => simp [beNat]
  | cons y ys ih =>
    simp only [beNat, List.foldl_cons, List.length_cons] at ih ⊢
    rw [ih, ih (0 * 256 + y.toNat)]
    ring

theorem beNat_append (xs ys : Bytes) :
    beNat (xs ++ ys) = beNat xs * 256 ^ ys.length + beNat ys := by
  rw [beNat, List.foldl_append, foldl_beNat]
  rfl

theorem beNat_lt (bs : Bytes) : beNat bs < 256 ^ bs.length := by
  induction bs with
  | nil => simp [beNat]
  | cons b bs ih =>
    have hb : b.toNat < 256 := b.val.isLt
    have hcons : beNat (b :: bs) = b.toNat * 256 ^ bs.length + beNat bs := by
      simpa [beNat] using beNat_append [b] bs
    calc beNat (b :: bs) < (b.toNat + 1) * 256 ^ bs.length := by rw [hcons, Nat.succ_mul]; omega
      _ ≤ 256 * 256 ^ bs.length := Nat.mul_le_mul_right _ hb
      _ = 256 ^ (b :: bs).length := by rw [List.length_cons, pow_succ, Nat.mul_comm]

namespace Hamt

/-- How a HAMT operation fails: with an `anyhow` error, which `?` returns
to the caller, or with a panic, which aborts the task. -/
inductive Fault
  | err (msg : String)
  | panic (msg : String)
  deriving DecidableEq, Repr

/-! ## `HashBits` -/

/-- `HashBits<'_, HASH_BIT_LENGTH>`: a hashed key and how many of its bits
`next` has consumed.

Modelled from the spec: `hash_bits.rs` is not part of the repository and
the spec does not describe it. The model follows the port of go-hamt's
`hashBits` it is named after: `next(i)` rejects a width above 8 and a read
past the end of the hash, and returns the next `i` bits, most significant
first. -/
structure HashBits where
  hash : Bytes
  consumed : Nat
  deriving DecidableEq, Repr

namespace HashBits

/-- `HashBits::new`. -/
def new (hash : Bytes) : HashBits := ⟨hash, 0⟩

/-- The `i` bits of `hash` after the first `c`, as a number. -/
def bitsAt (hash : Bytes) (c i : Nat) : Nat := beNat hash / 2 ^ (hash.length * 8 - (c + i)) % 2 ^ i

/-- `next`. -/
def next (hb : HashBits) (i : Nat) : Except Fault (Nat × HashBits) :=
  if 8 < i then .error (.err "invalid hash bit length")
  else if hb.hash.length * 8 < hb.consumed + i then .error (.err "maximum depth reached")
  else .ok (bitsAt hb.hash hb.consumed i, ⟨hb.hash, hb.consumed + i⟩)

theorem next_eq_ok {hb : HashBits} {i idx : Nat} {hb' : HashBits} (h : hb.next i = .ok (idx, hb')) :
    i ≤ 8 ∧ hb.consumed + i ≤ hb.hash.length * 8 ∧ idx = bitsAt hb.hash hb.consumed i ∧
      hb' = ⟨hb.hash, hb.consumed + i⟩ := by
  unfold next at h
  split at h
  · cases h
  · split at h
    · cases h
    · cases h; exact ⟨by omega, by omega, rfl, rfl⟩

theorem bitsAt_lt (hash : Bytes) (c i : Nat) : bitsAt hash c i < 2 ^ i :=
  Nat.mod_lt _ (Nat.two_pow_pos i)

/-- A chunk `next` returns is below `2 ^ i`: a valid bit position of a
shard of that width. -/
theorem next_lt {hb : HashBits} {i idx : Nat} {hb' : HashBits} (h : hb.next i = .ok (idx, hb')) :
    idx < 2 ^ i := by
  obtain ⟨-, -, rfl, -⟩ := next_eq_ok h
  exact bitsAt_lt _ _ _

end HashBits

/-! ## `Bitfield` -/

/-- `Bitfield::from_slice`: at most 32 big-endian bytes, the 256 bits of a
shard of fanout up to 256. The bitfield is kept as the number those bytes
spell; `test_bit(i)` is `Nat.testBit`.

Modelled from the spec: `bitfield.rs` is not part of the repository and the
spec does not describe it. The model follows go-hamt's bitfield, which the
port copies: the bytes are big-endian and a longer slice is an error. -/
def Bitfield.fromSlice (data : Bytes) : Except Fault Nat :=
  if 32 < data.length then .error (.err "bitfield too large") else .ok (beNat data)

theorem Bitfield.fromSlice_lt {data : Bytes} {b : Nat} (h : Bitfield.fromSlice data = .ok b) :
    b < 2 ^ 256 := by
  unfold Bitfield.fromSlice at h
  split at h
  · cases h
  · cases h
    calc beNat data < 256 ^ data.length := beNat_lt data
      _ ≤ 256 ^ 32 := Nat.pow_le_pow_right (by omega) (by omega)
      _ = 2 ^ 256 := by decide

/-- The number of set bits of `b` below position `bp`: the
`set_bits_le(bp).and(&self.bitfield).count_ones()` of `index_for_bit_pos`,
whose mask has exactly the bits below `bp` set (the `assert_eq!` there). -/
def onesBelow (b : Nat) : Nat → Nat
  | 0 => 0
  | bp + 1 => onesBelow b bp + (b.testBit bp).toNat

theorem onesBelow_mono (b : Nat) {m n : Nat} (h : m ≤ n) : onesBelow b m ≤ onesBelow b n := by
  induction n with
  | zero => rw [Nat.le_zero.mp h]
  | succ n ih =>
    rcases Nat.lt_or_eq_of_le h with h | rfl
    · exact (ih (by omega)).trans (Nat.le_add_right _ _)
    · exact le_refl _

/-- A set bit's index is below the count of set bits up to any higher
position: the pointer `index_for_bit_pos` picks exists when the shard has
one pointer per set bit. -/
theorem onesBelow_lt_of_testBit {b bp n : Nat} (hb : b.testBit bp = true) (hn : bp < n) :
    onesBelow b bp < onesBelow b n :=
  calc onesBelow b bp < onesBelow b (bp + 1) := by simp [onesBelow, hb]
    _ ≤ onesBelow b n := onesBelow_mono b hn

/-- The set bits of `b` below `n`, in increasing order: the bit positions
that a shard's pointers stand for, one pointer each. -/
def setBits (b : Nat) : Nat → List Nat
  | 0 => []
  | n + 1 => setBits b n ++ if b.testBit n then [n] else []

theorem length_setBits (b n : Nat) : (setBits b n).length = onesBelow b n := by
  induction n with
  | zero => rfl
  | succ n ih => cases h : b.testBit n <;> simp [setBits, onesBelow, ih, h]

end Hamt

end Beetle
