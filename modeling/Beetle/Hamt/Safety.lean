import Beetle.Hamt.Lookup

/-!
# Safety — where the HAMT reader panics

Shards come from other peers, so `from_node`, `get_value` and `children`
see any bytes and any links. Four places panic on such input instead of
returning an error:

* `from_node` unwraps the node's data, which a node may lack;
* `get_child` indexes `pointers` with the count of set bits below the
  slot, which can exceed the pointers of a shard whose bitfield has more
  bits set than it has links;
* `get_value` slices a link's name at `padding_len`, which can be past the
  end of a shorter name or inside a character;
* `children` unwraps `from_utf8` of the name's bytes after `padding_len`,
  which fails when they start inside a character.

`hamt_reader_panics` shows each on a small shard. The rest of the module
shows these are the only ones: `fromNode_panic_iff` for `from_node`, and
for `get_value` and `children` the theorem `guarded_no_panic`, over every
loader, key and shard tree that has a pointer for each set bit and names
that can be cut after the padding.
-/

namespace Beetle

namespace Hamt

open Unixfs (Link)

/-- **Untrusted shards make the reader panic.** `from_node` panics on a
node without data; it accepts a shard with slot 0 set and no links, whose
lookup of `""` (slot 0 at every level) panics for every loader; it accepts
a shard whose one link is named `0`, shorter than the padding of 2, whose
lookup of `""` panics once the link loads; and it accepts a shard whose one
link is named `aé`, where byte 2 is inside `é`, whose enumeration panics
for every loader. -/
theorem hamt_reader_panics :
    Node.fromNode ⟨some Unixfs.murmur3, some 256, none, []⟩ =
      .error (.panic "called Option::unwrap() on a None value") ∧
    (∃ n, Node.fromNode ⟨some Unixfs.murmur3, some 256, some [1], []⟩ = .ok n ∧
      ∀ loader, n.get loader "" = .error (.panic "index out of bounds")) ∧
    (∃ n, Node.fromNode ⟨some Unixfs.murmur3, some 256, some [1], [.ok ⟨5, some "0", none⟩]⟩ = .ok n ∧
      n.get (fun _ => .ok (.unixfs .file)) "" = .error (.panic "byte index out of bounds")) ∧
    (∃ n, Node.fromNode ⟨some Unixfs.murmur3, some 256, some [1], [.ok ⟨5, some "aé", none⟩]⟩ = .ok n ∧
      ∀ loader fuel, n.children loader (fuel + 1) =
        some ⟨[], some (.panic "called Result::unwrap() on an Err value")⟩) :=
  ⟨by decide, ⟨⟨1, 8, 2, []⟩, by decide, fun _ => rfl⟩, ⟨_, rfl, by decide⟩,
    ⟨⟨1, 8, 2, [⟨5, some "aé", none⟩]⟩, by decide, fun _ _ => rfl⟩⟩

/-- An outcome that is not a panic. -/
def NoPanic {α : Type} (r : Except Fault α) : Prop := ∀ m, r ≠ .error (.panic m)

theorem NoPanic.ok {α : Type} (a : α) : NoPanic (.ok a : Except Fault α) := fun _ => nofun

theorem NoPanic.bind {α β : Type} {x : Except Fault α} {f : α → Except Fault β} (hx : NoPanic x)
    (hf : ∀ a, x = .ok a → NoPanic (f a)) : NoPanic (x >>= f) := by
  cases x with
  | error e => exact fun m h => hx m (by cases h; rfl)
  | ok a => exact hf a rfl

/-! ## `from_node` -/

theorem mapM_mapError_noPanic (links : List (Except String Link)) :
    NoPanic (links.mapM fun l => l.mapError Fault.err) := by
  induction links with
  | nil => exact NoPanic.ok _
  | cons l ls ih =>
    rw [List.mapM_cons]
    refine NoPanic.bind ?_ fun _ _ => NoPanic.bind ih fun _ _ => NoPanic.ok _
    cases l <;> exact fun _ => nofun

/-- `from_node` panics exactly on a node that passes its two checks and has
no data. -/
theorem fromNode_panic_iff (node : Unixfs.Node) :
    (∃ m, Node.fromNode node = .error (.panic m)) ↔
      node.hashType = some Unixfs.murmur3 ∧ 0 < node.fanout.getD defaultFanout ∧ node.data = none := by
  unfold Node.fromNode
  by_cases h1 : node.hashType = some Unixfs.murmur3
  · by_cases h2 : 0 < node.fanout.getD defaultFanout
    · simp only [h1, h2, ne_eq, not_true_eq_false, if_false, true_and]
      cases node.data with
      | none => simp
      | some data =>
        refine iff_of_false (fun ⟨m, h⟩ => NoPanic.bind ?_ (fun _ _ => NoPanic.bind
          (mapM_mapError_noPanic _) fun _ _ => NoPanic.ok _) m h) nofun
        unfold Bitfield.fromSlice
        split <;> exact fun _ => nofun
    · simp [h1, h2]
  · simp [h1]

/-! ## `get_value` and `children` -/

/-- The shard a loaded pointer stands for, which `get_value` or `children`
goes into. -/
def InnerNode.shard? : InnerNode → Option Node
  | .node n _ => some n
  | .leaf _ (.hamtShard n) => some n
  | .leaf _ _ => none

/-- A shard tree the reader cannot panic on, within `fuel` levels: each
shard has a pointer for every set bit of its slots, each name can be cut
after the padding, and every shard a pointer loads to is such a tree too. -/
def Guarded (loader : Loader) : Nat → Node → Prop
  | 0, _ => True
  | f + 1, node => onesBelow node.bitfield (2 ^ node.bitWidth) ≤ node.pointers.length ∧
      ∀ p ∈ node.pointers, (∀ name, p.name = some name → (dropBytes name.data node.paddingLen).isSome) ∧
        ∀ inner sub, InnerNode.loadFromLink loader p = .ok inner → inner.shard? = some sub →
          Guarded loader f sub

theorem nameAt_noPanic {paddingLen : Nat} {n : Option String}
    (h : ∀ name, n = some name → (dropBytes name.data paddingLen).isSome) :
    NoPanic (nameAt paddingLen n) := by
  cases n with
  | none => exact NoPanic.ok _
  | some name =>
    obtain ⟨r, hr⟩ := Option.isSome_iff_exists.mp (h name rfl)
    show NoPanic (sliceFrom name paddingLen)
    exact sliceFrom_of_dropBytes hr ▸ NoPanic.ok _

/-- In a guarded shard, the pointer of a set slot exists. -/
theorem getChild_guarded {node : Node} {hb hb' : HashBits} {idx : Nat}
    (hcount : onesBelow node.bitfield (2 ^ node.bitWidth) ≤ node.pointers.length)
    (hnext : hb.next node.bitWidth = .ok (idx, hb')) (hhas : node.has idx = true) :
    ∃ l, node.getChild (node.indexForBitPos idx) = .ok l ∧ l ∈ node.pointers := by
  have hlt := (onesBelow_lt_of_testBit hhas (HashBits.next_lt hnext)).trans_le hcount
  exact ⟨_, getChild_of_lt hlt, List.getElem_mem hlt⟩

theorem loadFromLink_noPanic {loader : Loader} {p : Link} :
    NoPanic (InnerNode.loadFromLink loader p) := fun _ h => by
  obtain ⟨_, h'⟩ := loadFromLink_error h; cases h'

/-- The hash bits fail with an error, never a panic. -/
theorem next_noPanic {hb : HashBits} {w : Nat} : NoPanic (hb.next w) := fun _ h => by
  unfold HashBits.next at h
  split at h
  · cases h
  · split at h <;> cases h

theorem getValue_noPanic (loader : Loader) (key : String) :
    ∀ f node hb, Guarded loader f node → NoPanic (node.getValue loader key f hb)
  | 0, _, _, _ => fun _ => nofun
  | f + 1, node, hb, ⟨hcount, hptr⟩ => by
    simp only [Node.getValue]
    refine NoPanic.bind next_noPanic fun ⟨idx, hb'⟩ hnext => ?_
    split
    · exact NoPanic.ok _
    rename_i hhas
    obtain ⟨child, hchild, hmem⟩ := getChild_guarded hcount hnext (by simpa using hhas)
    obtain ⟨hname, hsub⟩ := hptr child hmem
    rw [pure_bind, hchild, ok_bind]
    refine NoPanic.bind loadFromLink_noPanic fun inner hinner => ?_
    cases inner with
    | node n value =>
      refine NoPanic.bind (nameAt_noPanic hname) fun _ _ => ?_
      split
      · exact NoPanic.ok _
      · exact getValue_noPanic loader key f n _ (hsub _ n hinner rfl)
    | leaf link value =>
      obtain rfl := loadFromLink_leaf hinner
      exact NoPanic.bind (nameAt_noPanic hname) fun _ _ => NoPanic.ok _

/-- A stream that did not end in a panic. -/
def Yield.Safe (y : Yield) : Prop := ∀ m, y.stop ≠ some (.panic m)

theorem linksYield_safe (ls : List (Except String Link)) : (linksYield ls).Safe := by
  induction ls with
  | nil => exact fun _ => nofun
  | cons l ls ih =>
    cases l with
    | ok l => exact ih
    | error e => exact fun _ => nofun

theorem pointersChildren_safe (each : Link → Option Yield) :
    ∀ ps : List Link, (∀ p ∈ ps, ∀ y, each p = some y → y.Safe) →
      ∀ y, pointersChildren each ps = some y → y.Safe
  | [], _, y, h => by cases h; exact fun _ => nofun
  | p :: ps, hps, y, h => by
    simp only [pointersChildren, Option.bind_eq_some] at h
    obtain ⟨y₁, h₁, h⟩ := h
    have hy₁ := hps p (List.mem_cons_self _ _) y₁ h₁
    unfold Yield.andThen at h
    split at h
    · cases h; exact hy₁
    · obtain ⟨z, hz, rfl⟩ := Option.map_eq_some'.mp h
      exact pointersChildren_safe each ps (fun q hq => hps q (List.mem_cons_of_mem _ hq)) z hz

theorem children_safe (loader : Loader) :
    ∀ f node, Guarded loader f node → ∀ y, node.children loader f = some y → y.Safe
  | 0, _, _, _, h => by cases h
  | f + 1, node, ⟨_, hptr⟩, y, h => by
    refine pointersChildren_safe _ _ (fun p hp y hy => ?_) y h
    obtain ⟨hname, hsub⟩ := hptr p hp
    simp only [pointerChildren] at hy
    split at hy
    · cases hy; exact fun _ => nofun
    split at hy
    · obtain ⟨r, hr⟩ := Option.isSome_iff_exists.mp (hname _ ‹_›)
      rw [suffixFrom_of_dropBytes hr] at hy
      cases hy; exact fun _ => nofun
    split at hy
    · cases hy
      obtain ⟨_, rfl⟩ := loadFromLink_error ‹_›
      exact fun _ => nofun
    rename_i inner hinner
    cases inner with
    | node n _ => exact children_safe loader f n (hsub _ n hinner rfl) y hy
    | leaf _ value =>
      cases value with
      | directory links => cases hy; exact linksYield_safe links
      | hamtShard root => exact children_safe loader f root (hsub _ root hinner rfl) y hy
      | _ => cases hy; exact fun _ => nofun

/-- **Guarded shards never make the reader panic.** Whatever the loader
returns and whatever the key, `get_value` on a guarded shard tree returns
`Ok` or `Err`, and `children` ends without a panic. -/
theorem guarded_no_panic {loader : Loader} {f : Nat} {node : Node} (h : Guarded loader f node) :
    (∀ key hb, NoPanic (node.getValue loader key f hb)) ∧
      ∀ y, node.children loader f = some y → ∀ m, y.stop ≠ some (.panic m) :=
  ⟨fun key hb => getValue_noPanic loader key f node hb h, children_safe loader f node h⟩

set_option maxRecDepth 4000 in
/-- The sample directory `emptyKeyRoot` (a sub-shard in slot 0 holding one
entry) is guarded at every level `get` can reach. -/
theorem emptyKeyRoot_guarded : Guarded sampleLoader maxDepth emptyKeyRoot := by
  refine ⟨by decide, fun p hp => ?_⟩
  obtain rfl : p = ⟨1, some "00", none⟩ := by simpa [emptyKeyRoot] using hp
  refine ⟨fun name h => by cases h; rfl, fun inner sub hload hsub => ?_⟩
  rw [show InnerNode.loadFromLink sampleLoader ⟨1, some "00", none⟩ =
    .ok (.node emptyKeySub (.hamtShard emptyKeySub)) from rfl] at hload
  cases hload
  cases hsub
  refine ⟨by decide, fun p hp => ?_⟩
  obtain rfl : p = ⟨2, some "01k5085", none⟩ := by simpa [emptyKeySub] using hp
  refine ⟨fun name h => by cases h; rfl, fun inner sub hload hsub => ?_⟩
  rw [show InnerNode.loadFromLink sampleLoader ⟨2, some "01k5085", none⟩ =
    .ok (.leaf ⟨2, some "01k5085", none⟩ .file) from rfl] at hload
  cases hload
  cases hsub

theorem guarded_no_panic_emptyKeyRoot :
    Guarded sampleLoader maxDepth emptyKeyRoot ∧
      (∀ key hb, NoPanic (emptyKeyRoot.getValue sampleLoader key maxDepth hb)) ∧
      ∀ y, emptyKeyRoot.children sampleLoader maxDepth = some y → ∀ m, y.stop ≠ some (.panic m) :=
  ⟨emptyKeyRoot_guarded, guarded_no_panic emptyKeyRoot_guarded⟩

end Hamt

end Beetle
