import Beetle.Hamt.WellFormed

/-!
# Lookup — `get` against `children`

A HAMT directory describes one map from entry names to links, and both
`Hamt::get` and `Hamt::children` read it: lookup follows the key's hash,
enumeration walks every pointer. `Mem` is the map as enumeration sees it,
and the module compares the two readers on the directories `WellFormed`
describes.

* `children_of_tidy`: on a shard tree whose pointers are named and lead to
  shards or to names that can be cut after the padding, `children` runs to
  its end and yields exactly the entries of `Mem`.
* `mem_of_getValue`: what `get` finds for a non-empty key is an entry of
  `Mem`, when the entries load to leaves.
* `getValue_of_mem`: on a well-formed tree, `get` finds every entry of
  `Mem` by its name, within the levels the tree has.
* so the two agree for every non-empty key: `get_eq_find_listing`
  (`Directory`) states it as a lookup in the listing `children` yields.

Each hypothesis is needed (`lookup_disagrees_with_enumeration`):

* a sub-shard pointer's name minus its padding is the empty string, so
  `get("")` returns the pointer to a sub-shard;
* a pointer that loads to a HAMT shard is descended into whatever it is,
  so an entry that is itself a sharded directory is searched with the
  parent's remaining hash bits, and `get` returns an entry of the
  sub-directory;
* `MAX_DEPTH` is the length of the hashed key in bytes, the number of
  levels only when a level reads 8 bits: at fanout 2 an entry nine levels
  down is enumerated, and looking it up fails.
-/

namespace Beetle

namespace Hamt

open Unixfs (Link)

/-! ## The entries `children` yields -/

/-- The entries below `node` as `children` reaches them: a pointer named
by more than the padding holds the entry named by the rest; a pointer named
by the padding or less leads to a HAMT shard whose entries are entries of
`node`. -/
inductive Mem (loader : Loader) : Node → String → Link → Prop
  | entry {node : Node} {p : Link} {name k : String} :
      p ∈ node.pointers → p.name = some name → node.paddingLen < (utf8 name).length →
      dropBytes name.data node.paddingLen = some k.data → Mem loader node k p
  | shard {node sub : Node} {p l : Link} {name k : String} :
      p ∈ node.pointers → p.name = some name → (utf8 name).length ≤ node.paddingLen →
      loader p.cid = .ok (.unixfs (.hamtShard sub)) → Mem loader sub k l → Mem loader node k l

/-- Entries have non-empty names. -/
theorem Mem.ne_empty {loader : Loader} {node : Node} {k : String} {l : Link} (h : Mem loader node k l) :
    k ≠ "" := by
  induction h with
  | @entry node p name k _ _ hlong hdrop =>
    rintro rfl
    have : (utf8 name).length = node.paddingLen + 0 := dropBytes_length hdrop
    omega
  | shard _ _ _ _ _ ih => exact ih

/-- Every entry below `node` loads to something other than a HAMT shard. -/
def EntriesAreLeaves (loader : Loader) (node : Node) : Prop :=
  ∀ k p, Mem loader node k p → ∃ v, InnerNode.loadFromLink loader p = .ok (.leaf p v)

theorem EntriesAreLeaves.sub {loader : Loader} {node sub : Node} {p : Link} {name : String}
    (h : EntriesAreLeaves loader node) (hp : p ∈ node.pointers) (hname : p.name = some name)
    (hshort : (utf8 name).length ≤ node.paddingLen) (hsub : loader p.cid = .ok (.unixfs (.hamtShard sub))) :
    EntriesAreLeaves loader sub :=
  fun k q hq => h k q (.shard hp hname hshort hsub hq)

/-- What `children` needs to run through `node` within `fuel` levels:
every pointer is named; a name of at most `padding_len` bytes points to a
HAMT shard laid out the same way, and a longer one can be cut after the
padding. -/
def Tidy (loader : Loader) : Nat → Node → Prop
  | 0, _ => False
  | f + 1, node => ∀ p ∈ node.pointers, ∃ name, p.name = some name ∧
      ((utf8 name).length ≤ node.paddingLen →
        ∃ sub, loader p.cid = .ok (.unixfs (.hamtShard sub)) ∧ Tidy loader f sub) ∧
      (node.paddingLen < (utf8 name).length → (dropBytes name.data node.paddingLen).isSome)

theorem loadFromLink_of_shard {loader : Loader} {p : Link} {sub : Node}
    (h : loader p.cid = .ok (.unixfs (.hamtShard sub))) :
    InnerNode.loadFromLink loader p = .ok (.node sub (.hamtShard sub)) := by
  simp only [InnerNode.loadFromLink, h]

/-- The loop over the pointers runs to its end when each turn does, and
yields what the turns yield. -/
theorem pointersChildren_all (each : Link → Option Yield) (R : Link → Link → Prop) :
    ∀ ps : List Link, (∀ p ∈ ps, ∃ zs, each p = some ⟨zs, none⟩ ∧ ∀ l, l ∈ zs ↔ R p l) →
      ∃ ys, pointersChildren each ps = some ⟨ys, none⟩ ∧ ∀ l, l ∈ ys ↔ ∃ p ∈ ps, R p l
  | [], _ => ⟨[], rfl, by simp⟩
  | p :: ps, h => by
    obtain ⟨zs, hz, hzs⟩ := h p (List.mem_cons_self _ _)
    obtain ⟨ys, hy, hys⟩ := pointersChildren_all each R ps fun q hq => h q (List.mem_cons_of_mem _ hq)
    refine ⟨zs ++ ys, by simp [pointersChildren, hz, Yield.andThen, hy], fun l => ?_⟩
    simp [hzs, hys]

/-- **`children` yields the entries.** On a tidy shard tree, `children`
runs to its end and yields each entry once per pointer, named without its
index. -/
theorem children_of_tidy (loader : Loader) : ∀ f node, Tidy loader f node →
    ∃ ys, node.children loader f = some ⟨ys, none⟩ ∧
      ∀ l, l ∈ ys ↔ ∃ k p, Mem loader node k p ∧ l = { p with name := some k }
  | 0, _, h => h.elim
  | f + 1, node, h => by
    -- `R p l`: pointer `p` yields `l`, as an entry itself or through the shard it loads
    let R : Link → Link → Prop := fun p l => ∃ name, p.name = some name ∧
      ((node.paddingLen < (utf8 name).length ∧ ∃ k, dropBytes name.data node.paddingLen = some k ∧
          l = { p with name := some ⟨k⟩ }) ∨
        ((utf8 name).length ≤ node.paddingLen ∧ ∃ sub k q, loader p.cid = .ok (.unixfs (.hamtShard sub)) ∧
          Mem loader sub k q ∧ l = { q with name := some k }))
    obtain ⟨ys, hys, hmem⟩ := pointersChildren_all
      (pointerChildren loader (Node.children loader f) node.paddingLen) R node.pointers fun p hp => by
        obtain ⟨name, hname, hshort, hlong⟩ := h p hp
        by_cases hlen : node.paddingLen < (utf8 name).length
        · obtain ⟨r, hr⟩ := Option.isSome_iff_exists.mp (hlong hlen)
          exact ⟨[{ p with name := some ⟨r⟩ }],
            by simp [pointerChildren, hname, hlen, suffixFrom_of_dropBytes hr], by simp [R, hname, hlen, hr]⟩
        · obtain ⟨sub, hsub, htidy⟩ := hshort (by omega)
          obtain ⟨zs, hzs, hzmem⟩ := children_of_tidy loader f sub htidy
          refine ⟨zs, by simpa [pointerChildren, hname, hlen, loadFromLink_of_shard hsub] using hzs, ?_⟩
          simp [R, hname, hlen, Nat.le_of_not_lt hlen, hsub, hzmem]
    refine ⟨ys, hys, fun l => (hmem l).trans ⟨?_, ?_⟩⟩
    · rintro ⟨p, hp, name, hname, ⟨hlong, k, hk, rfl⟩ | ⟨hshort, sub, k, q, hsub, hq, rfl⟩⟩
      · exact ⟨⟨k⟩, p, .entry hp hname hlong hk, rfl⟩
      · exact ⟨k, q, .shard hp hname hshort hsub hq, rfl⟩
    · rintro ⟨k, q, hq, rfl⟩
      cases hq with
      | entry hp hname hlong hk => exact ⟨q, hp, _, hname, .inl ⟨hlong, _, hk, rfl⟩⟩
      | shard hp hname hshort hsub hq => exact ⟨_, hp, _, hname, .inr ⟨hshort, _, _, _, hsub, hq, rfl⟩⟩

/-! ## What `get` finds -/

/-- **`get` finds only entries.** On a tidy shard tree whose entries are
leaves, a non-empty key that `get_value` finds names an entry, and the
link it returns is that entry's pointer. -/
theorem mem_of_getValue (loader : Loader) {key : String} (hkey : key ≠ "") :
    ∀ f node hb l v, Tidy loader f node → EntriesAreLeaves loader node →
      node.getValue loader key f hb = .ok (some (l, v)) → Mem loader node key l
  | 0, _, _, _, _, h, _, _ => h.elim
  | f + 1, node, hb, l, v, htidy, hleaf, h => by
    obtain ⟨idx, hb', child, name, -, -, hchild, hname, hfound⟩ := getValue_succ_eq_some h
    have hmem : child ∈ node.pointers := List.mem_iff_getElem?.mpr ⟨_, getChild_mem hchild⟩
    obtain ⟨nm, hnm, hshort, -⟩ := htidy child hmem
    rw [hnm] at hname
    have hdrop := dropBytes_of_sliceFrom hname
    rcases hfound with ⟨rfl, rfl, -⟩ | ⟨hne, n, value, hload, hrest⟩
    · have hlen : (utf8 nm).length = node.paddingLen + (utf8 key).length := dropBytes_length hdrop
      have hpos : 0 < (utf8 key).length := by
        obtain ⟨cs⟩ := key
        exact Nat.pos_of_ne_zero fun h0 => hkey (by rw [(length_utf8_eq_zero cs).mp h0])
      exact .entry hmem hnm (by omega) hdrop
    · by_cases hlong : node.paddingLen < (utf8 nm).length
      · obtain ⟨v', hv'⟩ := hleaf name child (.entry hmem hnm hlong hdrop)
        rw [hv'] at hload; cases hload
      · obtain ⟨sub, hsub, hsubtidy⟩ := hshort (by omega)
        obtain ⟨hn, -⟩ := loadFromLink_node hload
        rw [hsub] at hn; cases hn
        exact .shard hmem hnm (by omega) hsub
          (mem_of_getValue loader hkey f n hb' l v hsubtidy
            (hleaf.sub hmem hnm (by omega) hsub) hrest)

/-! ## Well-formed directories -/

/-- A well-formed shard tree is tidy. -/
theorem tidy_of_wf (loader : Loader) (w : Nat) :
    ∀ f path node, shardWf loader w f path node = true → Tidy loader f node
  | 0, _, _, h => by simp [shardWf] at h
  | f + 1, path, node, h => fun p hp => by
    obtain ⟨i, -, -, -, -, name, hname, hpre, hsub, -⟩ := slot_of_wf h hp
    obtain ⟨hdrop, -⟩ := dropBytes_paddedName hpre
    refine ⟨name, hname, fun hshort => ?_, fun _ => by rw [hdrop]; rfl⟩
    obtain ⟨sub, hs, hwf⟩ := hsub ((short_iff_index hpre).mp hshort)
    exact ⟨sub, subShard?_eq_some.mp hs, tidy_of_wf loader w f _ sub hwf⟩

/-- The slot of an entry's pointer in a well-formed shard at `path`, where
the entry's name hashes. -/
theorem entry_slot {loader : Loader} {w f : Nat} {path : List Nat} {node : Node} {p : Link}
    {name k : String} (h : shardWf loader w (f + 1) path node = true) (hp : p ∈ node.pointers)
    (hname : p.name = some name) (hlong : node.paddingLen < (utf8 name).length)
    (hdrop : dropBytes name.data node.paddingLen = some k.data) :
    ∃ i j, node.pointers[j]? = some p ∧ onesBelow node.bitfield i = j ∧ node.bitfield.testBit i = true ∧
      hashPath w k (path.length + 1) = path ++ [i] := by
  obtain ⟨i, j, hj, hij, hbit, name', hname', hpre, -, hentry⟩ := slot_of_wf h hp
  rw [hname] at hname'; cases hname'
  have hk : name.data.drop node.paddingLen = k.data :=
    Option.some.inj ((dropBytes_paddedName hpre).1.symm.trans hdrop)
  have hpath := hentry fun hl => by have := (short_iff_index hpre).mpr hl; omega
  rw [hk] at hpath
  exact ⟨i, j, hj, hij, hbit, hpath⟩

/-- The slot of a sub-shard's pointer in a well-formed shard at `path`: the
pointer's name past the padding is empty, and the sub-shard is well formed
one level down. -/
theorem shard_slot {loader : Loader} {w f : Nat} {path : List Nat} {node sub : Node} {p : Link}
    {name : String} (h : shardWf loader w (f + 1) path node = true) (hp : p ∈ node.pointers)
    (hname : p.name = some name) (hshort : (utf8 name).length ≤ node.paddingLen)
    (hsub : loader p.cid = .ok (.unixfs (.hamtShard sub))) :
    ∃ i j, node.pointers[j]? = some p ∧ onesBelow node.bitfield i = j ∧ node.bitfield.testBit i = true ∧
      nameAt node.paddingLen p.name = .ok "" ∧ shardWf loader w f (path ++ [i]) sub = true := by
  obtain ⟨i, j, hj, hij, hbit, name', hname', hpre, hsub', -⟩ := slot_of_wf h hp
  rw [hname] at hname'; cases hname'
  have hl := (short_iff_index hpre).mp hshort
  obtain ⟨sub', hs, hwf⟩ := hsub' hl
  rw [subShard?_eq_some, hsub] at hs; cases hs
  have hempty : name.data.drop node.paddingLen = [] := List.drop_eq_nil_iff.mpr hl.le
  refine ⟨i, j, hj, hij, hbit, ?_, hwf⟩
  rw [hname]; exact sliceFrom_of_dropBytes (by rw [(dropBytes_paddedName hpre).1, hempty])

/-- An entry below a well-formed shard at `path` hashes along `path`. -/
theorem hashPath_of_mem {loader : Loader} {w : Nat} {k : String} {l : Link} {node : Node}
    (hmem : Mem loader node k l) :
    ∀ {f path}, shardWf loader w f path node = true → ∃ i, hashPath w k (path.length + 1) = path ++ [i] := by
  induction hmem with
  | entry hp hname hlong hdrop =>
    rintro (_ | f) path h
    · cases h
    obtain ⟨i, -, -, -, -, hpath⟩ := entry_slot h hp hname hlong hdrop
    exact ⟨i, hpath⟩
  | shard hp hname hshort hsub _ ih =>
    rintro (_ | f) path h
    · cases h
    obtain ⟨i, -, -, -, -, -, hwf⟩ := shard_slot h hp hname hshort hsub
    obtain ⟨i', hi'⟩ := ih hwf
    exact ⟨i, hashPath_parent hi'⟩

/-- Along a key whose path reaches slot `i` of a shard, `get_value` reads
that slot and takes its pointer. -/
theorem slot_step {w : Nat} (hw : w ≤ 8) {k : String} {path : List Nat} {node : Node} {i j : Nat}
    {p : Link} (hbw : node.bitWidth = w) (hd : (path.length + 1) * w ≤ 64)
    (hj : node.pointers[j]? = some p) (hij : onesBelow node.bitfield i = j)
    (hpath : hashPath w k (path.length + 1) = path ++ [i]) :
    (HashBits.mk (hashKey k) (path.length * w)).next node.bitWidth =
        .ok (i, ⟨hashKey k, path.length * w + w⟩) ∧
      node.getChild (node.indexForBitPos i) = .ok p := by
  refine ⟨by rw [hbw, next_hashKey k hw hd, chunk_of_hashPath hpath], ?_⟩
  simp only [Node.getChild, Node.indexForBitPos, hij, hj]

/-- **`get` finds every entry.** On a well-formed shard tree at `path`
whose entries are leaves, `get_value` on the hash bits of an entry's name
past `path` returns that entry's pointer. -/
theorem getValue_of_mem {loader : Loader} {w : Nat} (hw : w ≤ 8) {k : String} {l : Link} {node : Node}
    (hmem : Mem loader node k l) :
    ∀ {f path}, shardWf loader w f path node = true → EntriesAreLeaves loader node →
      ∃ v, node.getValue loader k f ⟨hashKey k, path.length * w⟩ = .ok (some (l, v)) := by
  induction hmem with
  | @entry node p name k hp hname hlong hdrop =>
    rintro (_ | f) path h hleaf
    · cases h
    obtain ⟨hbw, hd, -, -⟩ := shardWf_succ h
    obtain ⟨i, j, hj, hij, hbit, hpath⟩ := entry_slot h hp hname hlong hdrop
    obtain ⟨v, hv⟩ := hleaf k p (.entry hp hname hlong hdrop)
    obtain ⟨hnext, hchild⟩ := slot_step hw hbw hd hj hij hpath
    exact ⟨v, getValue_succ_of_leaf hnext hbit hchild hv (by rw [hname]; exact sliceFrom_of_dropBytes hdrop)⟩
  | shard hp hname hshort hsub hmem' ih =>
    rintro (_ | f) path h hleaf
    · cases h
    obtain ⟨hbw, hd, -, -⟩ := shardWf_succ h
    obtain ⟨i, j, hj, hij, hbit, hempty, hwf⟩ := shard_slot h hp hname hshort hsub
    obtain ⟨i', hi'⟩ := hashPath_of_mem hmem' hwf
    obtain ⟨hnext, hchild⟩ := slot_step hw hbw hd hj hij (hashPath_parent hi')
    obtain ⟨v, hv⟩ := ih hwf (hleaf.sub hp hname hshort hsub)
    refine ⟨v, ?_⟩
    rw [getValue_succ_of_node hnext hbit hchild (loadFromLink_of_shard hsub) hempty hmem'.ne_empty]
    simpa [Nat.succ_mul] using hv

/-! ## Three well-formed directories where lookup and enumeration differ -/

/-- Fanout 256: the key `k5085` hashes to slots `0, 1, …`; the root holds
a sub-shard in slot 0, which holds `k5085` in slot 1. -/
def emptyKeySub : Node := ⟨2, 8, 2, [⟨2, some "01k5085", none⟩]⟩

def emptyKeyRoot : Node := ⟨1, 8, 2, [⟨1, some "00", none⟩]⟩

/-- Fanout 256: the root holds the entry `d1` in slot 9, itself a sharded
directory holding `f1517` in slot 9. Both names hash to slot 9 first, and
`f1517` to slot 9 again second. -/
def nestedDir : Node := ⟨2 ^ 9, 8, 2, [⟨4, some "09f1517", none⟩]⟩

def nestedRoot : Node := ⟨2 ^ 9, 8, 2, [⟨3, some "09d1", none⟩]⟩

/-- The slots of `k0` and `k329` at fanout 2 for the first eight levels:
their hashes share the first byte `0x4E`. -/
def deepSlots : List Nat := [0, 1, 0, 0, 1, 1, 1, 0]

/-- Fanout 2: levels 0 to 7 each hold one sub-shard in the slot of
`deepSlots`; level 8 holds `k0` in slot 0 and `k329` in slot 1. -/
def deepShard (d : Nat) : Node :=
  if d < 8 then ⟨2 ^ deepSlots.getD d 0, 1, 1, [⟨11 + d, some (toString (deepSlots.getD d 0)), none⟩]⟩
  else ⟨3, 1, 1, [⟨20, some "0k0", none⟩, ⟨21, some "1k329", none⟩]⟩

/-- The blocks of the three directories; every other cid is a file. -/
def sampleLoader : Loader := fun c =>
  if c = 1 then .ok (.unixfs (.hamtShard emptyKeySub))
  else if c = 3 then .ok (.unixfs (.hamtShard nestedDir))
  else if 11 ≤ c ∧ c ≤ 18 then .ok (.unixfs (.hamtShard (deepShard (c - 10))))
  else .ok (.unixfs .file)

set_option maxRecDepth 4000 in
/-- **Lookup and enumeration describe different maps.** On three
well-formed directories: `get("")` returns the sub-shard pointer `00`,
which `children` never yields; `get("f1517")` returns an entry of the
sharded sub-directory `d1`, while `children` yields `d1` alone; and
`get("k0")` fails at `MAX_DEPTH` while `children` yields `k0`. -/
theorem lookup_disagrees_with_enumeration :
    (WellFormed sampleLoader emptyKeyRoot ∧
      emptyKeyRoot.get sampleLoader "" = .ok (some (⟨1, some "00", none⟩, .hamtShard emptyKeySub)) ∧
      emptyKeyRoot.children sampleLoader 65 = some ⟨[⟨2, some "k5085", none⟩], none⟩) ∧
    (WellFormed sampleLoader nestedRoot ∧ WellFormed sampleLoader nestedDir ∧
      nestedRoot.get sampleLoader "f1517" = .ok (some (⟨4, some "09f1517", none⟩, .file)) ∧
      nestedRoot.children sampleLoader 65 = some ⟨[⟨3, some "d1", none⟩], none⟩) ∧
    (WellFormed sampleLoader (deepShard 0) ∧
      (deepShard 0).get sampleLoader "k0" = .error (.err "max depth reached") ∧
      (deepShard 0).children sampleLoader 65 =
        some ⟨[⟨20, some "k0", none⟩, ⟨21, some "k329", none⟩], none⟩) := by
  decide

end Hamt

end Beetle
