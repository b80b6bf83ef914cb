import Beetle.Hamt.Node

/-!
# WellFormed — the layout of a sharded directory

What a well-formed HAMT directory is, following go-unixfs's layout, which
the reader in hamt.rs reads: each shard of fanout `2 ^ w` reads `w` bits of
the key's hash; its pointers stand one per set bit, in bit order; a pointer
to a sub-shard is named by the slot's padded hex index alone, a pointer to
an entry by the padded index and the entry's name; and each entry sits in
the shard on the path its hash's successive `w`-bit chunks spell.

`shardWf` is that definition as a check that evaluates; the lemmas below
take it apart for the proofs of `Lookup`: the slot of the `j`-th pointer
(`onesBelow_getElem_setBits`), the index chunk `next` reads along a key's
path (`next_hashKey`), and the split of a name into its ASCII index and the
rest (`dropBytes_paddedName`).
-/

namespace Beetle

namespace Hamt

open Unixfs (Link)

/-! ## Slot indices and hash paths -/

/-- The upper-case hex digit of `d < 16`. -/
def hexDigit (d : Nat) : Char := if d < 10 then Char.ofNat (48 + d) else Char.ofNat (55 + d)

/-- The slot `i` as `len` upper-case hex digits, zero-padded: go-unixfs's
`%0*X` for a slot below `16 ^ len`. -/
def paddedIndex : Nat → Nat → List Char
  | 0, _ => []
  | len + 1, i => paddedIndex len (i / 16) ++ [hexDigit (i % 16)]

theorem length_paddedIndex (len i : Nat) : (paddedIndex len i).length = len := by
  induction len generalizing i with
  | zero => rfl
  | succ len ih => simp [paddedIndex, ih]

theorem hexDigit_utf8Size : ∀ d < 16, (hexDigit d).utf8Size = 1 := by decide

theorem paddedIndex_ascii (len i : Nat) : ∀ c ∈ paddedIndex len i, c.utf8Size = 1 := by
  induction len generalizing i with
  | zero => nofun
  | succ len ih =>
    intro c hc
    simp only [paddedIndex, List.mem_append, List.mem_singleton] at hc
    rcases hc with hc | rfl
    · exact ih _ c hc
    · exact hexDigit_utf8Size _ (Nat.mod_lt _ (by omega))

/-- The first `n` chunks of `w` bits of a key's hash, the slots of its
path from the root. -/
def hashPath (w : Nat) (key : String) (n : Nat) : List Nat :=
  (List.range n).map fun d => HashBits.bitsAt (hashKey key) (d * w) w

theorem hashPath_succ (w : Nat) (key : String) (n : Nat) :
    hashPath w key (n + 1) = hashPath w key n ++ [HashBits.bitsAt (hashKey key) (n * w) w] := by
  simp [hashPath, List.range_succ]

theorem hashPath_take (w : Nat) (key : String) {m n : Nat} (h : m ≤ n) :
    (hashPath w key n).take m = hashPath w key m := by
  rw [hashPath, ← List.map_take, List.take_range, Nat.min_eq_left h]
  rfl

theorem length_hashKey (key : String) : (hashKey key).length = 8 := rfl

/-- Along a key's path, `next` reads the chunk of the level. -/
theorem next_hashKey (key : String) {d w : Nat} (hw : w ≤ 8) (hd : (d + 1) * w ≤ 64) :
    (HashBits.mk (hashKey key) (d * w)).next w =
      .ok (HashBits.bitsAt (hashKey key) (d * w) w, ⟨hashKey key, d * w + w⟩) := by
  have h : ¬ (hashKey key).length * 8 < d * w + w := by
    rw [length_hashKey, ← Nat.add_one_mul]; omega
  simp only [HashBits.next, show ¬ 8 < w by omega, if_false, h]

/-- The path to a shard is the path to its parent and one more slot. -/
theorem hashPath_parent {w : Nat} {key : String} {path : List Nat} {i i' : Nat}
    (h : hashPath w key ((path ++ [i]).length + 1) = path ++ [i] ++ [i']) :
    hashPath w key (path.length + 1) = path ++ [i] := by
  rw [← hashPath_take w key (show path.length + 1 ≤ (path ++ [i]).length + 1 by simp), h,
    List.take_left' (by simp)]

/-! ## Set bits -/

theorem mem_setBits {b n i : Nat} : i ∈ setBits b n ↔ i < n ∧ b.testBit i = true := by
  induction n with
  | zero => simp [setBits]
  | succ n ih =>
    rw [setBits, List.mem_append, ih, Nat.lt_succ_iff_lt_or_eq, or_and_right]
    refine or_congr Iff.rfl ?_
    split
    · simp only [List.mem_singleton, iff_self_and]
      rintro rfl; assumption
    · simp only [List.not_mem_nil, false_iff, not_and]
      rintro rfl; assumption

/-- The `j`-th set bit has `j` set bits below it: `index_for_bit_pos`
finds the `j`-th pointer from it. -/
theorem onesBelow_getElem_setBits (b n j : Nat) (h : j < (setBits b n).length) :
    onesBelow b (setBits b n)[j] = j := by
  induction n with
  | zero => simp [setBits] at h
  | succ n ih =>
    by_cases hj : j < (setBits b n).length
    · simp only [setBits]
      rw [List.getElem_append_left hj]
      exact ih hj
    · have hn : b.testBit n = true := by
        cases hn : b.testBit n
        · simp only [setBits, hn] at h; simp at h; omega
        · rfl
      have hj' : j = (setBits b n).length := by simp only [setBits, hn] at h; simp at h; omega
      subst hj'
      simp [setBits, hn, length_setBits]

/-! ## The check -/

/-- The sub-shard the loader returns for a cid, if it returns a unixfs HAMT
shard. -/
def subShard? (loader : Loader) (cid : Cid) : Option Node :=
  match loader cid with
  | .ok (.unixfs (.hamtShard sub)) => some sub
  | _ => none

theorem subShard?_eq_some {loader : Loader} {cid : Cid} {sub : Node} :
    subShard? loader cid = some sub ↔ loader cid = .ok (.unixfs (.hamtShard sub)) := by
  unfold subShard?
  split <;> simp_all

/-- The shard `node`, reached along the slots `path`, is well formed for
fanout `2 ^ w`, its sub-shards within `fuel` levels: it is built as
`from_node` builds a shard of that fanout, its slot is within the hash, its
bits are slots, and its pointers, one per set bit in bit order, are each a
sub-shard named by the padded slot alone, or an entry named by the padded
slot and a name whose hash path leads to that slot. An entry's target is
not constrained: it may itself be a sharded directory. -/
def shardWf (loader : Loader) (w : Nat) : Nat → List Nat → Node → Bool
  | 0, _, _ => false
  | fuel + 1, path, node =>
    node.bitWidth == w && node.paddingLen == getPaddingLen (2 ^ w).toUInt32 &&
    decide ((path.length + 1) * w ≤ 64) && decide (node.bitfield < 2 ^ 2 ^ w) &&
    (setBits node.bitfield (2 ^ w)).length == node.pointers.length &&
    ((setBits node.bitfield (2 ^ w)).zip node.pointers).all fun (i, link) =>
      match link.name with
      | none => false
      | some name =>
        name.data.take node.paddingLen == paddedIndex node.paddingLen i &&
        if name.length == node.paddingLen then
          match subShard? loader link.cid with
          | some sub => shardWf loader w fuel (path ++ [i]) sub
          | none => false
        else hashPath w ⟨name.data.drop node.paddingLen⟩ (path.length + 1) == path ++ [i]

/-- A well-formed HAMT directory of fanout `2 ^ w`, `1 ≤ w ≤ 8`, rooted at
`root`. Sixty-five levels of fuel reach every shard: a shard's slot lies
within the 64 bits of the hash. -/
def WellFormed (loader : Loader) (root : Node) : Prop :=
  1 ≤ root.bitWidth ∧ root.bitWidth ≤ 8 ∧ shardWf loader root.bitWidth 65 [] root = true

instance (loader : Loader) (root : Node) : Decidable (WellFormed loader root) :=
  inferInstanceAs (Decidable (_ ∧ _ ∧ _))

/-- What `shardWf` asks of the pointer `link` in slot `i`. -/
def SlotWf (loader : Loader) (w fuel : Nat) (path : List Nat) (pad i : Nat) (link : Link) : Prop :=
  ∃ name, link.name = some name ∧ name.data.take pad = paddedIndex pad i ∧
    (name.length = pad → ∃ sub, subShard? loader link.cid = some sub ∧ shardWf loader w fuel (path ++ [i]) sub) ∧
    (name.length ≠ pad → hashPath w ⟨name.data.drop pad⟩ (path.length + 1) = path ++ [i])

/-- `shardWf` taken apart. -/
theorem shardWf_succ {loader : Loader} {w f : Nat} {path : List Nat} {node : Node}
    (h : shardWf loader w (f + 1) path node = true) :
    node.bitWidth = w ∧ (path.length + 1) * w ≤ 64 ∧
      (setBits node.bitfield (2 ^ w)).length = node.pointers.length ∧
      ∀ i link, (i, link) ∈ (setBits node.bitfield (2 ^ w)).zip node.pointers →
        SlotWf loader w f path node.paddingLen i link := by
  simp only [shardWf, Bool.and_eq_true, beq_iff_eq, decide_eq_true_eq, List.all_eq_true] at h
  obtain ⟨⟨⟨⟨⟨hw, -⟩, hd⟩, -⟩, hlen⟩, hall⟩ := h
  refine ⟨hw, hd, hlen, fun i link hmem => ?_⟩
  have hslot := hall (i, link) hmem
  cases hname : link.name with
  | none => simp [hname] at hslot
  | some name =>
    simp only [hname, Bool.and_eq_true, beq_iff_eq] at hslot
    obtain ⟨hpre, hrest⟩ := hslot
    refine ⟨name, hname, hpre, fun hl => ?_, fun hl => ?_⟩
    · rw [if_pos hl] at hrest
      cases hs : subShard? loader link.cid with
      | none => rw [hs] at hrest; cases hrest
      | some sub => rw [hs] at hrest; exact ⟨sub, rfl, hrest⟩
    · rwa [if_neg hl, beq_iff_eq] at hrest

/-- The pointer in slot `i`, and its position among the pointers. -/
theorem slot_of_mem {b w : Nat} {ps : List Link} {p : Link} (hlen : (setBits b (2 ^ w)).length = ps.length)
    (hp : p ∈ ps) :
    ∃ i j, (i, p) ∈ (setBits b (2 ^ w)).zip ps ∧ ps[j]? = some p ∧ onesBelow b i = j ∧
      i < 2 ^ w ∧ b.testBit i = true := by
  obtain ⟨j, hj, rfl⟩ := List.mem_iff_getElem.mp hp
  have hj' : j < (setBits b (2 ^ w)).length := hlen ▸ hj
  have hi := mem_setBits.mp (List.getElem_mem hj')
  refine ⟨_, j, ?_, List.getElem?_eq_getElem hj, onesBelow_getElem_setBits b _ j hj', hi⟩
  have hz : j < ((setBits b (2 ^ w)).zip ps).length := by simp [hj, hj']
  simpa [List.getElem_zip] using List.getElem_mem hz

/-- A name that starts with a padded index: its bytes past the index are
the rest of its characters. -/
theorem dropBytes_paddedName {name : String} {pad i : Nat} (h : name.data.take pad = paddedIndex pad i) :
    dropBytes name.data pad = some (name.data.drop pad) ∧
      (utf8 name).length = pad + (utf8 ⟨name.data.drop pad⟩).length := by
  have hsplit : name.data = paddedIndex pad i ++ name.data.drop pad := by
    rw [← h, List.take_append_drop]
  have hd := dropBytes_ascii _ (name.data.drop pad) (paddedIndex_ascii pad i)
  rw [length_paddedIndex, ← hsplit] at hd
  refine ⟨hd, ?_⟩
  obtain ⟨cs⟩ := name
  exact dropBytes_length hd

/-- A pointer of a well-formed shard: its slot `i`, its position `j`
among the pointers, and what `shardWf` asks of it. -/
theorem slot_of_wf {loader : Loader} {w f : Nat} {path : List Nat} {node : Node} {p : Link}
    (h : shardWf loader w (f + 1) path node = true) (hp : p ∈ node.pointers) :
    ∃ i j, node.pointers[j]? = some p ∧ onesBelow node.bitfield i = j ∧ node.bitfield.testBit i = true ∧
      SlotWf loader w f path node.paddingLen i p := by
  obtain ⟨-, -, hlen, hslots⟩ := shardWf_succ h
  obtain ⟨i, j, hz, hj, hij, -, hbit⟩ := slot_of_mem hlen hp
  exact ⟨i, j, hj, hij, hbit, hslots i p hz⟩

/-- A name that starts with the padded index is a sub-shard's name, the
index alone, exactly when it has no more bytes than the padding. -/
theorem short_iff_index {name : String} {pad i : Nat} (h : name.data.take pad = paddedIndex pad i) :
    (utf8 name).length ≤ pad ↔ name.length = pad := by
  obtain ⟨-, hbytes⟩ := dropBytes_paddedName h
  have htake : (name.data.take pad).length = pad := by rw [h, length_paddedIndex]
  have hsplit : name.length = pad + (name.data.drop pad).length := by
    show name.data.length = _
    rw [← List.take_append_drop pad name.data, List.length_append, htake, List.take_append_drop]
  rw [hbytes, hsplit]
  constructor
  · intro hle
    have : (utf8 ⟨name.data.drop pad⟩).length = 0 := by omega
    rw [(length_utf8_eq_zero _).mp this]; rfl
  · intro heq
    rw [List.length_eq_zero.mp (by omega : (name.data.drop pad).length = 0)]
    simp [utf8]

/-- What the pointer of slot `i` is in a well-formed shard: a sub-shard's,
named by the index alone and loading to a shard well formed one level down,
or an entry's, named by the index and a name that hashes along `path` to
slot `i`. -/
theorem slotWf_cases {loader : Loader} {w f : Nat} {path : List Nat} {pad i : Nat} {p : Link}
    (h : SlotWf loader w f path pad i p) :
    (∃ name sub, p.name = some name ∧ (utf8 name).length ≤ pad ∧ dropBytes name.data pad = some [] ∧
        loader p.cid = .ok (.unixfs (.hamtShard sub)) ∧ shardWf loader w f (path ++ [i]) sub = true) ∨
      ∃ name k, p.name = some name ∧ pad < (utf8 name).length ∧ dropBytes name.data pad = some k.data ∧
        hashPath w k (path.length + 1) = path ++ [i] := by
  obtain ⟨name, hname, hpre, hsub, hentry⟩ := h
  obtain ⟨hdrop, -⟩ := dropBytes_paddedName hpre
  by_cases hl : name.length = pad
  · obtain ⟨sub, hs, hwf⟩ := hsub hl
    refine .inl ⟨name, sub, hname, (short_iff_index hpre).mpr hl, ?_, subShard?_eq_some.mp hs, hwf⟩
    rw [hdrop, List.drop_eq_nil_iff.mpr (Nat.le_of_eq hl)]
  · exact .inr ⟨name, ⟨name.data.drop pad⟩, hname,
      Nat.lt_of_not_le fun hs => hl ((short_iff_index hpre).mp hs), hdrop, hentry hl⟩

/-- The chunk of a level is the last slot of the path to it. -/
theorem chunk_of_hashPath {w : Nat} {key : String} {path : List Nat} {i : Nat}
    (h : hashPath w key (path.length + 1) = path ++ [i]) :
    HashBits.bitsAt (hashKey key) (path.length * w) w = i := by
  rw [hashPath_succ] at h
  exact List.singleton_inj.mp (List.append_inj' h rfl).2

end Hamt

end Beetle
