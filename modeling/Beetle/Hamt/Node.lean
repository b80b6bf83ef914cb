import Beetle.Hamt.Bits

/-!
# Node — a HAMT shard, its lookup and its enumeration

A sharded unixfs directory is a tree of shards (hamt.rs). A shard `Node`
has a bitfield with one bit per slot, `bit_width` bits of the hashed key
per level, and one pointer per set bit, in bit order. A pointer is a
`unixfs::Link` whose name starts with the slot's hex index, `padding_len`
characters long; what follows is the entry's name, and a name of exactly
`padding_len` characters points to a sub-shard.

* `Node.getValue` is `Node::get_value` (hamt.rs:290-337): it reads the next
  chunk of the hashed key, loads the pointer of that slot, and either
  compares the entry's name or descends. Its recursion is structural in the
  levels left before `MAX_DEPTH`.
* `Node.children` is `Node::children` (hamt.rs:363-394) with
  `InnerNode::children` (hamt.rs:127-160): it yields the name of every
  pointer longer than the padding, and recurses through the loader into
  every other pointer. A loader can make that recursion endless, so the
  model carries fuel, and `none` is "not finished within the fuel".
* `Node.fromNode` is `Node::from_node` (hamt.rs:244-275).

The per-link `OnceCell` cache is left out: the loader is a function of the
cid, so a cached load and a fresh one agree.
-/

namespace Beetle

namespace Unixfs

/-- `unixfs::Link`. -/
structure Link where
  cid : Cid
  name : Option String
  tsize : Option Nat
  deriving DecidableEq, Repr

/-- `HamtHashFunction::Murmur3`, the multihash code of murmur3-x64-64. -/
def murmur3 : Nat := 0x22

/-- `unixfs::Node`, with what `Node::from_node` reads: the hash type and
fanout of its unixfs data, the data bytes, and its links as `PbLinks`
decodes them, each of which may fail. -/
structure Node where
  hashType : Option Nat
  fanout : Option UInt32
  data : Option Bytes
  links : List (Except String Link)

end Unixfs

open Unixfs (Link)

/-- Equality of outcomes, so that a lookup's result can be evaluated. -/
instance decEqExcept {ε α : Type} [DecidableEq ε] [DecidableEq α] : DecidableEq (Except ε α)
  | .ok a, .ok b => decidable_of_iff (a = b) ⟨congrArg _, Except.ok.inj⟩
  | .error a, .error b => decidable_of_iff (a = b) ⟨congrArg _, Except.error.inj⟩
  | .ok _, .error _ => isFalse Except.noConfusion
  | .error _, .ok _ => isFalse Except.noConfusion

namespace Hamt

@[simp] theorem ok_bind {ε α β : Type} (a : α) (f : α → Except ε β) : (Except.ok a >>= f) = f a := rfl

@[simp] theorem error_bind {ε α β : Type} (e : ε) (f : α → Except ε β) :
    (Except.error e >>= f) = Except.error e := rfl

theorem bind_eq_ok {ε α β : Type} {x : Except ε α} {f : α → Except ε β} {b : β} :
    x >>= f = .ok b ↔ ∃ a, x = .ok a ∧ f a = .ok b := by
  cases x <;> simp

/-- `HASH_BIT_LENGTH`, the bytes of a hashed key. -/
def hashBitLength : Nat := 8

/-- `MAX_DEPTH`. -/
def maxDepth : Nat := hashBitLength

/-- `DEFAULT_FANOUT`. -/
def defaultFanout : UInt32 := 256

/-- A shard (`Node`): its bitfield as a number, the bits of the hashed key
it reads, the length of the index prefix of its pointers' names, and its
pointers. -/
structure Node where
  bitfield : Nat
  bitWidth : Nat
  paddingLen : Nat
  pointers : List Link
  deriving DecidableEq, Repr

/-- `UnixfsNode`, with what lookup and enumeration read: a directory's
links, and a sharded directory's root shard (`HamtShard(_, hamt)`, where
`hamt.root` is the shard). The other kinds carry no data here. -/
inductive UnixfsNode
  | rawNode
  | file
  | directory (links : List (Except String Link))
  | raw
  | symlink
  | hamtShard (root : Node)
  deriving DecidableEq, Repr

/-- What `resolve_with_ctx` returns for a link's cid (`OutContent`): a
unixfs node; raw bytes, as `UnixfsNode::decode` reads them (which may
fail); or content of another type. -/
inductive OutContent
  | unixfs (value : UnixfsNode)
  | raw (decoded : Except String UnixfsNode)
  | other (typ : String)

/-- The content loader: `Resolver::resolve_with_ctx` on `Path::from_cid`,
any function of the cid, which may fail. -/
abbrev Loader := Cid → Except String OutContent

/-- `InnerNode`, what a pointer loads to: a shard, or anything else. -/
inductive InnerNode
  | node (node : Node) (value : UnixfsNode)
  | leaf (link : Link) (value : UnixfsNode)
  deriving DecidableEq, Repr

/-- `InnerNode::load_from_link`: a unixfs HAMT shard becomes a `Node`;
other unixfs content, and raw bytes whatever they decode to, a `Leaf`. -/
def InnerNode.loadFromLink (loader : Loader) (link : Link) : Except Fault InnerNode :=
  match loader link.cid with
  | .error e => .error (.err e)
  | .ok (.unixfs (.hamtShard root)) => .ok (.node root (.hamtShard root))
  | .ok (.unixfs value) => .ok (.leaf link value)
  | .ok (.raw (.ok value)) => .ok (.leaf link value)
  | .ok (.raw (.error e)) => .error (.err e)
  | .ok (.other typ) => .error (.err ("unexpected node: " ++ typ))

theorem loadFromLink_leaf {loader : Loader} {p l : Link} {v : UnixfsNode}
    (h : InnerNode.loadFromLink loader p = .ok (.leaf l v)) : l = p := by
  unfold InnerNode.loadFromLink at h
  split at h <;> cases h <;> rfl

theorem loadFromLink_node {loader : Loader} {p : Link} {n : Node} {v : UnixfsNode}
    (h : InnerNode.loadFromLink loader p = .ok (.node n v)) :
    loader p.cid = .ok (.unixfs (.hamtShard n)) ∧ v = .hamtShard n := by
  unfold InnerNode.loadFromLink at h
  split at h <;> cases h
  exact ⟨‹_›, rfl⟩

/-- Loading fails only with an error, never a panic. -/
theorem loadFromLink_error {loader : Loader} {p : Link} {f : Fault}
    (h : InnerNode.loadFromLink loader p = .error f) : ∃ m, f = .err m := by
  unfold InnerNode.loadFromLink at h
  split at h <;> cases h <;> exact ⟨_, rfl⟩

/-! ## Link names -/

/-- `&s[p..]`: the rest of `s` after its first `p` bytes; it panics when
`p` is past the end or inside a character (`isCharBoundary_iff`). -/
def sliceFrom (s : String) (p : Nat) : Except Fault String :=
  if (utf8 s).length < p then .error (.panic "byte index out of bounds")
  else match dropBytes s.data p with
    | some rest => .ok ⟨rest⟩
    | none => .error (.panic "byte index is not a char boundary")

theorem sliceFrom_of_dropBytes {s : String} {p : Nat} {r : List Char}
    (h : dropBytes s.data p = some r) : sliceFrom s p = .ok ⟨r⟩ := by
  obtain ⟨cs⟩ := s
  dsimp only at h
  have := dropBytes_length h
  simp only [sliceFrom, show ¬ (utf8 ⟨cs⟩).length < p by omega, if_false, h]

theorem dropBytes_of_sliceFrom {s r : String} {p : Nat} (h : sliceFrom s p = .ok r) :
    dropBytes s.data p = some r.data := by
  unfold sliceFrom at h
  split at h
  · cases h
  · split at h <;> cases h; assumption

/-- The name `get_value` compares:
`name.as_ref().map(|s| &s[padding_len..]).unwrap_or_default()`. -/
def nameAt (paddingLen : Nat) : Option String → Except Fault String
  | none => .ok ""
  | some s => sliceFrom s paddingLen

/-- The name `children` yields, with `name.len() > padding_len`:
`from_utf8(&n.as_bytes()[padding_len..]).unwrap()`. The byte range is in
bounds, and the bytes are valid UTF-8 exactly when they start at a character
boundary of `n`. -/
def suffixFrom (s : String) (p : Nat) : Except Fault String :=
  match dropBytes s.data p with
  | some rest => .ok ⟨rest⟩
  | none => .error (.panic "called Result::unwrap() on an Err value")

theorem suffixFrom_of_dropBytes {s : String} {p : Nat} {r : List Char}
    (h : dropBytes s.data p = some r) : suffixFrom s p = .ok ⟨r⟩ := by
  simp only [suffixFrom, h]

/-! ## Building a shard -/

/-- `log2`: `u32::BITS - x.leading_zeros() - 1`, with the significant bits
of `x` counted over its 32. -/
def bitLength : Nat → Nat → Nat
  | 0, _ => 0
  | n + 1, x => if x = 0 then 0 else bitLength n (x / 2) + 1

def log2 (x : UInt32) : Nat := bitLength 32 x.toNat - 1

/-- `get_padding_len`: the digits of `format!("{:X}", fanout - 1)`. -/
def getPaddingLen (fanout : UInt32) : Nat := (Nat.toDigits 16 (fanout - 1).toNat).length

/-- `Node::from_node`. `node.data().as_ref().unwrap()` panics on a node
without data. -/
def Node.fromNode (node : Unixfs.Node) : Except Fault Node :=
  if node.hashType ≠ some Unixfs.murmur3 then .error (.err "hamt: only murmur3 is supported") else
  let fanout := node.fanout.getD defaultFanout
  if ¬ 0 < fanout then .error (.err "fanout must be non zero") else
  match node.data with
  | none => .error (.panic "called Option::unwrap() on a None value")
  | some data => do
    let bitfield ← Bitfield.fromSlice data
    let pointers ← node.links.mapM fun l => l.mapError .err
    return { bitfield, pointers, bitWidth := log2 fanout, paddingLen := getPaddingLen fanout }

/-! ## Lookup -/

/-- `has`: the slot's bit is set. -/
def Node.has (node : Node) (idx : Nat) : Bool := node.bitfield.testBit idx

/-- `index_for_bit_pos`. -/
def Node.indexForBitPos (node : Node) (bp : Nat) : Nat := onesBelow node.bitfield bp

/-- `get_child`: `&self.pointers[i]`, which panics out of bounds. -/
def Node.getChild (node : Node) (i : Nat) : Except Fault Link :=
  match node.pointers[i]? with
  | some link => .ok link
  | none => .error (.panic "index out of bounds")

theorem getChild_of_lt {node : Node} {i : Nat} (h : i < node.pointers.length) :
    node.getChild i = .ok node.pointers[i] := by
  simp only [Node.getChild, List.getElem?_eq_getElem h]

theorem getChild_mem {node : Node} {i : Nat} {l : Link} (h : node.getChild i = .ok l) :
    node.pointers[i]? = some l := by
  unfold Node.getChild at h
  split at h <;> cases h
  assumption

/-- `get_value`, with `remaining = MAX_DEPTH - depth` levels left: the
`ensure!(depth < MAX_DEPTH)` fails when none is left. A pointer that loads
to a shard is compared by its name first, then descended into with the
same hash bits, whatever the shard is. -/
def Node.getValue (loader : Loader) (key : String) :
    Nat → Node → HashBits → Except Fault (Option (Link × UnixfsNode))
  | 0, _, _ => .error (.err "max depth reached")
  | remaining + 1, node, hb => do
    let (idx, hb) ← hb.next node.bitWidth
    if !node.has idx then return none
    let child ← node.getChild (node.indexForBitPos idx)
    match ← InnerNode.loadFromLink loader child with
    | .node n value =>
      let name ← nameAt node.paddingLen child.name
      if key = name then return some (child, value) else n.getValue loader key remaining hb
    | .leaf link value =>
      let name ← nameAt node.paddingLen link.name
      return if key = name then some (link, value) else none

section GetValue

variable {loader : Loader} {key : String} {f : Nat} {node : Node} {hb hb' : HashBits} {idx : Nat}
  {child : Link}

/-- A step of `get_value` that reaches a leaf named `key`. -/
theorem getValue_succ_of_leaf {v : UnixfsNode} (hnext : hb.next node.bitWidth = .ok (idx, hb'))
    (hhas : node.has idx = true) (hchild : node.getChild (node.indexForBitPos idx) = .ok child)
    (hload : InnerNode.loadFromLink loader child = .ok (.leaf child v))
    (hname : nameAt node.paddingLen child.name = .ok key) :
    node.getValue loader key (f + 1) hb = .ok (some (child, v)) := by
  simp only [Node.getValue, hnext, ok_bind, hhas, hchild, hload, hname, Bool.not_true,
    Bool.false_eq_true, if_false]
  rfl

/-- A step of `get_value` that stops at the pointer of a shard named `key`. -/
theorem getValue_succ_of_node_self {n : Node} {value : UnixfsNode}
    (hnext : hb.next node.bitWidth = .ok (idx, hb')) (hhas : node.has idx = true)
    (hchild : node.getChild (node.indexForBitPos idx) = .ok child)
    (hload : InnerNode.loadFromLink loader child = .ok (.node n value))
    (hname : nameAt node.paddingLen child.name = .ok key) :
    node.getValue loader key (f + 1) hb = .ok (some (child, value)) := by
  simp only [Node.getValue, hnext, ok_bind, hhas, hchild, hload, hname, Bool.not_true,
    Bool.false_eq_true, if_false, if_true]
  rfl

/-- A step of `get_value` that descends into a shard not named `key`. -/
theorem getValue_succ_of_node {n : Node} {value : UnixfsNode} {name : String}
    (hnext : hb.next node.bitWidth = .ok (idx, hb')) (hhas : node.has idx = true)
    (hchild : node.getChild (node.indexForBitPos idx) = .ok child)
    (hload : InnerNode.loadFromLink loader child = .ok (.node n value))
    (hname : nameAt node.paddingLen child.name = .ok name) (hne : key ≠ name) :
    node.getValue loader key (f + 1) hb = n.getValue loader key f hb' := by
  simp only [Node.getValue, hnext, ok_bind, hhas, hchild, hload, hname, Bool.not_true,
    Bool.false_eq_true, if_false, hne]
  rfl

/-- What a step of `get_value` that finds an entry went through: the set
slot of the next chunk, its pointer and the pointer's name after the
padding; then either the name is the key, or the pointer loaded to a shard
where the rest of the lookup found the entry. -/
theorem getValue_succ_eq_some {l : Link} {v : UnixfsNode}
    (h : node.getValue loader key (f + 1) hb = .ok (some (l, v))) :
    ∃ idx hb' child name, hb.next node.bitWidth = .ok (idx, hb') ∧ node.has idx = true ∧
      node.getChild (node.indexForBitPos idx) = .ok child ∧
      nameAt node.paddingLen child.name = .ok name ∧
      ((key = name ∧ l = child ∧
          ((∃ n, InnerNode.loadFromLink loader child = .ok (.node n v)) ∨
            InnerNode.loadFromLink loader child = .ok (.leaf child v))) ∨
        (key ≠ name ∧ ∃ n value, InnerNode.loadFromLink loader child = .ok (.node n value) ∧
          n.getValue loader key f hb' = .ok (some (l, v)))) := by
  simp only [Node.getValue, bind_eq_ok] at h
  obtain ⟨⟨idx, hb'⟩, hn, h⟩ := h
  split at h
  · cases h
  rename_i hhas
  replace hhas : node.has idx = true := by simpa using hhas
  simp only [pure_bind, bind_eq_ok] at h
  obtain ⟨child, hc, inner, hl, h⟩ := h
  refine ⟨idx, hb', child, ?_⟩
  cases inner with
  | node n value =>
    simp only [bind_eq_ok] at h
    obtain ⟨name, hm, h⟩ := h
    refine ⟨name, hn, hhas, hc, hm, ?_⟩
    split at h
    · cases h; exact .inl ⟨‹_›, rfl, .inl ⟨n, hl⟩⟩
    · exact .inr ⟨‹_›, n, value, hl, h⟩
  | leaf link value =>
    obtain rfl := loadFromLink_leaf hl
    simp only [bind_eq_ok] at h
    obtain ⟨name, hm, h⟩ := h
    split at h
    · cases h; exact ⟨name, hn, hhas, hc, hm, .inl ⟨‹_›, rfl, .inr hl⟩⟩
    · cases h

end GetValue

/-- `Node::get`, and `Hamt::get` on the root. -/
def Node.get (loader : Loader) (node : Node) (key : String) : Except Fault (Option (Link × UnixfsNode)) :=
  node.getValue loader key maxDepth (HashBits.new (hashKey key))

/-! ## Enumeration -/

/-- What a `try_stream!` produces when run to its end: the links it
yields, and how it stops — `none` when it runs out, `some f` when it yields
an `Err` (which ends it) or panics. -/
structure Yield where
  links : List Link
  stop : Option Fault
  deriving DecidableEq, Repr

/-- The links of a plain directory, `value.links()`, up to the first that
fails to decode. -/
def linksYield : List (Except String Link) → Yield
  | [] => ⟨[], none⟩
  | .ok l :: ls => ⟨l :: (linksYield ls).links, (linksYield ls).stop⟩
  | .error e :: _ => ⟨[], some (.err e)⟩

/-- Two streams one after the other: the second runs only when the first
ran out. -/
def Yield.andThen (y : Yield) (z : Unit → Option Yield) : Option Yield :=
  match y.stop with
  | some _ => some y
  | none => (z ()).map fun z => ⟨y.links ++ z.links, z.stop⟩

/-- `InnerNode::children`, given the enumeration of a shard. -/
def InnerNode.children (sub : Node → Option Yield) : InnerNode → Option Yield
  | .node n _ => sub n
  | .leaf _ (.directory links) => some (linksYield links)
  | .leaf _ (.hamtShard root) => sub root
  | .leaf _ _ => some ⟨[], none⟩

/-- One turn of `Node::children`'s loop: a pointer with a name longer
than the padding yields it without the index prefix; a pointer with a
shorter name is loaded and enumerated; a pointer without a name is
skipped. -/
def pointerChildren (loader : Loader) (sub : Node → Option Yield) (paddingLen : Nat)
    (pointer : Link) : Option Yield :=
  match pointer.name with
  | none => some ⟨[], none⟩
  | some name =>
    if paddingLen < (utf8 name).length then
      some (match suffixFrom name paddingLen with
        | .ok n => ⟨[{ pointer with name := some n }], none⟩
        | .error f => ⟨[], some f⟩)
    else
      match InnerNode.loadFromLink loader pointer with
      | .error f => some ⟨[], some f⟩
      | .ok child => child.children sub

/-- The loop over `pointers`. -/
def pointersChildren (each : Link → Option Yield) : List Link → Option Yield
  | [] => some ⟨[], none⟩
  | p :: ps => (each p).bind fun y => y.andThen fun _ => pointersChildren each ps

/-- `Node::children`, and `Hamt::children` on the root, within `fuel`
levels of shards. -/
def Node.children (loader : Loader) : Nat → Node → Option Yield
  | 0, _ => none
  | fuel + 1, node =>
    pointersChildren (pointerChildren loader (Node.children loader fuel) node.paddingLen) node.pointers

end Hamt

end Beetle
