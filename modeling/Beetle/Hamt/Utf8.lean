import Beetle.Basic
import Mathlib.Data.Nat.Bitwise

/-!
# Utf8 — byte offsets into link names

`get_value` and `children` cut a link name at byte `padding_len`
(hamt.rs:314, 328, 376). A Rust `str` cut at byte `p` is defined when `p`
is a character boundary: `0`, the length, or the offset of a byte that
does not continue a UTF-8 sequence (`str::is_char_boundary`). The model
cuts on characters instead, `dropBytes`, and `isCharBoundary_iff` shows the
two agree: the byte test of the Rust core holds exactly when the first `p`
bytes are whole characters.

The HAMT's names start with an index of ASCII characters, one byte each,
so cutting them after the index gives back the rest (`dropBytes_ascii`).
-/

namespace Beetle

/-- The UTF-8 bytes of a string (`str::as_bytes`), the list that
`String.toUTF8` packs. -/
def utf8 (s : String) : Bytes := s.data.flatMap String.utf8EncodeChar

namespace Hamt

/-- The byte test of `str::is_char_boundary` on the bytes `bs`: `i` is `0`,
the length, or the offset of a byte that is not a continuation byte
(`(b as i8) >= -0x40`). -/
def boundaryAt (bs : Bytes) (i : Nat) : Bool :=
  i == 0 || match bs[i]? with
    | none => i == bs.length
    | some b => b < 128 || 192 ≤ b

/-- `str::is_char_boundary`. -/
def isCharBoundary (s : String) (i : Nat) : Bool := boundaryAt (utf8 s) i

/-- The characters after the first `p` bytes of `cs`, when those bytes are
whole characters. -/
def dropBytes : List Char → Nat → Option (List Char)
  | cs, 0 => some cs
  | [], _ + 1 => none
  | c :: cs, p + 1 => if c.utf8Size ≤ p + 1 then dropBytes cs (p + 1 - c.utf8Size) else none

/-! ## Leading and continuation bytes -/

theorem utf8_cons (c : Char) (cs : List Char) :
    utf8 ⟨c :: cs⟩ = String.utf8EncodeChar c ++ utf8 ⟨cs⟩ := List.flatMap_cons _ _ _

theorem utf8_append (a b : List Char) : utf8 ⟨a ++ b⟩ = utf8 ⟨a⟩ ++ utf8 ⟨b⟩ :=
  List.flatMap_append _ _ _

private theorem or_192_ge (x : UInt8) : 192 ≤ x ||| 192 := by
  obtain ⟨x⟩ := x; revert x; decide

private theorem or_224_ge (x : UInt8) : 192 ≤ x ||| 224 := by
  obtain ⟨x⟩ := x; revert x; decide

private theorem or_240_ge (x : UInt8) : 192 ≤ x ||| 240 := by
  obtain ⟨x⟩ := x; revert x; decide

private theorem continuation (x : UInt8) : ¬ (x &&& 63 ||| 128 < 128 ∨ 192 ≤ x &&& 63 ||| 128) := by
  obtain ⟨x⟩ := x; revert x; decide

/-- The first byte of a character's encoding is a leading byte. -/
theorem leading_byte (c : Char) : ∀ b ∈ (String.utf8EncodeChar c).head?, b < 128 ∨ 192 ≤ b := by
  intro b hb
  simp only [String.utf8EncodeChar] at hb
  split at hb
  · simp only [List.head?_cons, Option.mem_def, Option.some.injEq] at hb
    subst hb
    left
    show c.val.toNat % 256 < 128
    have : c.val.toNat ≤ 127 := ‹c.val ≤ 127›
    omega
  · split at hb
    · simp only [List.head?_cons, Option.mem_def, Option.some.injEq] at hb
      exact .inr (hb ▸ or_192_ge _)
    · split at hb <;> simp only [List.head?_cons, Option.mem_def, Option.some.injEq] at hb
      · exact .inr (hb ▸ or_224_ge _)
      · exact .inr (hb ▸ or_240_ge _)

/-- Every later byte of a character's encoding is a continuation byte. -/
theorem continuation_byte (c : Char) {i : Nat} (hi : 0 < i) :
    ∀ b ∈ (String.utf8EncodeChar c)[i]?, ¬ (b < 128 ∨ 192 ≤ b) := by
  intro b hb
  obtain ⟨i, rfl⟩ : ∃ j, i = j + 1 := ⟨i - 1, by omega⟩
  simp only [String.utf8EncodeChar] at hb
  split at hb
  · simp at hb
  · split at hb
    · rcases i with _ | i <;> simp at hb
      exact hb ▸ continuation _
    · split at hb <;> rcases i with _ | _ | i <;> simp at hb <;>
        first | exact hb ▸ continuation _ | (rcases i with _ | i <;> simp at hb; exact hb ▸ continuation _)

theorem boundaryAt_shift (pre rest : Bytes) {i : Nat} (hi : pre.length < i) :
    boundaryAt (pre ++ rest) i = boundaryAt rest (i - pre.length) := by
  have h1 : (i == 0) = false := by simp only [beq_eq_false_iff_ne]; omega
  have h2 : (i - pre.length == 0) = false := by simp only [beq_eq_false_iff_ne]; omega
  simp only [boundaryAt, List.getElem?_append_right hi.le, List.length_append, h1, h2, Bool.false_or]
  cases rest[i - pre.length]? with
  | none => exact Bool.eq_iff_iff.mpr (by simp only [beq_iff_eq]; omega)
  | some b => rfl

/-- Inside a character's encoding the byte test fails. -/
theorem boundaryAt_inside (c : Char) (rest : Bytes) {i : Nat} (h0 : 0 < i) (hi : i < c.utf8Size) :
    boundaryAt (String.utf8EncodeChar c ++ rest) i = false := by
  have hlen := String.length_utf8EncodeChar c
  obtain ⟨b, hb⟩ : ∃ b, (String.utf8EncodeChar c)[i]? = some b :=
    ⟨_, List.getElem?_eq_getElem (by omega)⟩
  have := continuation_byte c h0 b hb
  simp only [boundaryAt, List.getElem?_append_left (show i < (String.utf8EncodeChar c).length by omega),
    hb, show (i == 0) = false by simp; omega, Bool.false_or]
  simpa using this

/-- Right after a character's encoding, at the start of the next one or at
the end, the byte test holds. -/
theorem boundaryAt_after (c : Char) (cs : List Char) :
    boundaryAt (String.utf8EncodeChar c ++ utf8 ⟨cs⟩) c.utf8Size = true := by
  have hlen := String.length_utf8EncodeChar c
  have hpos := Char.utf8Size_pos c
  simp only [boundaryAt, List.getElem?_append_right (show (String.utf8EncodeChar c).length ≤ c.utf8Size by omega),
    hlen, Nat.sub_self, show (c.utf8Size == 0) = false by simp; omega, Bool.false_or]
  cases cs with
  | nil => simp [utf8]
  | cons d ds =>
    rw [utf8_cons]
    cases h : String.utf8EncodeChar d with
    | nil => have := String.length_utf8EncodeChar d ▸ Char.utf8Size_pos d; simp [h] at this
    | cons b bs =>
      have := leading_byte d b (by simp [h])
      simpa using this

/-- **The byte test is the character boundary.** Within the bytes of a
string, `str::is_char_boundary` holds at `p` exactly when the first `p`
bytes are whole characters. -/
theorem isCharBoundary_iff (s : String) {p : Nat} (hp : p ≤ (utf8 s).length) :
    isCharBoundary s p = true ↔ (dropBytes s.data p).isSome := by
  obtain ⟨cs⟩ := s
  simp only [isCharBoundary]
  induction cs generalizing p with
  | nil =>
    have : p = 0 := by simpa [utf8] using hp
    subst this; simp [boundaryAt, dropBytes]
  | cons c cs ih =>
    rcases p with _ | q
    · simp [boundaryAt, dropBytes]
    have hlen := String.length_utf8EncodeChar c
    rw [utf8_cons] at hp ⊢
    rw [List.length_append, hlen] at hp
    simp only [dropBytes]
    rcases Nat.lt_trichotomy (q + 1) c.utf8Size with hlt | heq | hgt
    · rw [if_neg (by omega), boundaryAt_inside c _ (Nat.succ_pos q) hlt]
      simp
    · rw [if_pos heq.ge, heq, boundaryAt_after, Nat.sub_self]
      simp [dropBytes]
    · rw [if_pos hgt.le, boundaryAt_shift _ _ (by omega), hlen]
      exact ih (by omega)

/-- Cutting `p` bytes leaves the rest of the bytes. -/
theorem dropBytes_length {cs r : List Char} {p : Nat} (h : dropBytes cs p = some r) :
    (utf8 ⟨cs⟩).length = p + (utf8 ⟨r⟩).length := by
  induction cs generalizing p with
  | nil => cases p <;> simp_all [dropBytes]
  | cons c cs ih =>
    rcases p with _ | p
    · simp_all [dropBytes]
    simp only [dropBytes] at h
    split at h
    · rw [utf8_cons, List.length_append, String.length_utf8EncodeChar, ih h]
      omega
    · cases h

/-! ## ASCII prefixes -/

/-- Cutting off an ASCII prefix by its length in bytes. -/
theorem dropBytes_ascii (a k : List Char) (ha : ∀ c ∈ a, c.utf8Size = 1) :
    dropBytes (a ++ k) a.length = some k := by
  induction a with
  | nil => simp [dropBytes]
  | cons c a ih =>
    have hc := ha c (List.mem_cons_self _ _)
    simp only [List.cons_append, List.length_cons, dropBytes, hc, Nat.le_add_left, if_true,
      Nat.add_sub_cancel]
    exact ih fun d hd => ha d (List.mem_cons_of_mem _ hd)

theorem length_utf8_ascii (a : List Char) (ha : ∀ c ∈ a, c.utf8Size = 1) :
    (utf8 ⟨a⟩).length = a.length := by
  induction a with
  | nil => rfl
  | cons c a ih =>
    rw [utf8_cons, List.length_append, String.length_utf8EncodeChar, ha c (List.mem_cons_self _ _),
      ih fun d hd => ha d (List.mem_cons_of_mem _ hd), List.length_cons, Nat.add_comm]

theorem length_utf8_eq_zero (k : List Char) : (utf8 ⟨k⟩).length = 0 ↔ k = [] := by
  cases k with
  | nil => simp [utf8]
  | cons c k => simp [utf8_cons, String.length_utf8EncodeChar, (Char.utf8Size_pos c).ne']

end Hamt

end Beetle
