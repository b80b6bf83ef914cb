import Beetle.Hamt.Lookup
import Mathlib.Data.List.Nodup

/-!
# Directory — `get` as a lookup in the listing

A sharded directory stands for a map from entry names to links, and
`Hamt::children` lists that map. On a well-formed directory it runs to its
end and lists the names in strictly increasing order of their hash
(`children_in_hash_order`): a shard's pointers are in slot order, and an
entry lies in the slot its name's hash picks at each level. So no name is
listed twice, and `Hamt::get` is a lookup in that list:

* `getValue_ok_of_wf`: `get_value` never fails on such a tree within
  `MAX_DEPTH` levels, for any key;
* `get_eq_find_listing`: when the entries are not themselves HAMT shards,
  `get` returns, for every non-empty key, the entry `find?` picks from the
  listing by name (the same cid and size), together with the content the
  loader has for it, and `None` when the listing has no entry of that name.

The hypotheses are those of `Lookup`, where `lookup_disagrees_with_enumeration`
shows each one is needed.
-/

namespace Beetle

namespace Hamt

open Unixfs (Link)

/-! ## The slot of a set bit -/

/-- The slots of the set bits, in increasing order: the order of a shard's
pointers. -/
theorem setBits_sorted (b n : Nat) : (setBits b n).Pairwise (· < ·) := by
  induction n with
  | zero => exact List.Pairwise.nil
  | succ n ih =>
    rw [setBits]
    refine List.pairwise_append.mpr ⟨ih, ?_, fun i hi j hj => ?_⟩
    · split <;> simp
    · have hj : j = n := by split at hj <;> simp_all
      exact hj ▸ (mem_setBits.mp hi).1

/-- A set bit below `n` is the `onesBelow`-th of the set bits below `n`. -/
theorem getElem_setBits_onesBelow {b n i : Nat} (hi : i < n) (hb : b.testBit i = true) :
    ∃ h : onesBelow b i < (setBits b n).length, (setBits b n)[onesBelow b i] = i := by
  obtain ⟨j, hj, hget⟩ := List.mem_iff_getElem.mp (mem_setBits.mpr ⟨hi, hb⟩)
  have hij : onesBelow b i = j := hget ▸ onesBelow_getElem_setBits b n j hj
  subst hij
  exact ⟨hj, hget⟩

/-- In a well-formed shard, the pointer `get_child` takes for a set slot
exists, and `shardWf` asks of it what it asks of that slot. -/
theorem slot_pointer {loader : Loader} {w f : Nat} {path : List Nat} {node : Node} {i : Nat}
    (h : shardWf loader w (f + 1) path node = true) (hi : i < 2 ^ w) (hhas : node.has i = true) :
    ∃ p, node.getChild (node.indexForBitPos i) = .ok p ∧ p ∈ node.pointers ∧
      SlotWf loader w f path node.paddingLen i p := by
  obtain ⟨-, -, hlen, hslots⟩ := shardWf_succ h
  obtain ⟨hj, hget⟩ := getElem_setBits_onesBelow hi hhas
  have hj' : onesBelow node.bitfield i < node.pointers.length := hlen ▸ hj
  refine ⟨_, getChild_of_lt hj', List.getElem_mem hj', hslots _ _ ?_⟩
  have hz : onesBelow node.bitfield i < ((setBits node.bitfield (2 ^ w)).zip node.pointers).length := by
    simp [hj, hj']
  simpa [List.getElem_zip, hget] using List.getElem_mem hz

/-! ## `get_value` never fails -/

/-- **`get_value` never fails on a well-formed tree.** Along any key, every
level reads a chunk within the hash, finds the pointer of a set slot, loads
it, and cuts its name after the padding; it descends only into sub-shards,
which are well formed one level down. -/
theorem getValue_ok_of_wf {loader : Loader} {w : Nat} (hw : w ≤ 8) (key : String) :
    ∀ f path node, shardWf loader w f path node = true → EntriesAreLeaves loader node →
      ∃ r, node.getValue loader key f ⟨hashKey key, path.length * w⟩ = .ok r
  | 0, _, _, h, _ => by cases h
  | f + 1, path, node, h, hleaf => by
    obtain ⟨hbw, hd, -, -⟩ := shardWf_succ h
    have hnext : (HashBits.mk (hashKey key) (path.length * w)).next node.bitWidth =
        .ok (HashBits.bitsAt (hashKey key) (path.length * w) w, ⟨hashKey key, path.length * w + w⟩) := by
      rw [hbw]; exact next_hashKey key hw hd
    by_cases hhas : node.has (HashBits.bitsAt (hashKey key) (path.length * w) w) = true
    swap
    · exact ⟨none, by simp [Node.getValue, hnext, hhas]; rfl⟩
    obtain ⟨p, hchild, hp, hslot⟩ := slot_pointer h (HashBits.bitsAt_lt _ _ _) hhas
    rcases slotWf_cases hslot with ⟨name, sub, hname, hshort, hdrop, hs, hwf⟩ |
      ⟨name, k, hname, hlong, hdrop, -⟩
    · -- a sub-shard: its name past the padding is empty
      have hempty : nameAt node.paddingLen p.name = .ok "" := by
        rw [hname]; exact sliceFrom_of_dropBytes hdrop
      by_cases hk : key = ""
      · subst hk
        exact ⟨_, getValue_succ_of_node_self hnext hhas hchild (loadFromLink_of_shard hs) hempty⟩
      · rw [getValue_succ_of_node hnext hhas hchild (loadFromLink_of_shard hs) hempty hk]
        obtain ⟨r, hr⟩ := getValue_ok_of_wf hw key f _ sub hwf (hleaf.sub hp hname hshort hs)
        exact ⟨r, by simpa [Nat.succ_mul] using hr⟩
    · -- an entry: it loads to a leaf
      obtain ⟨v, hv⟩ := hleaf k p (.entry hp hname hlong hdrop)
      have hkey : nameAt node.paddingLen p.name = .ok k := by
        rw [hname]; exact sliceFrom_of_dropBytes hdrop
      exact ⟨_, by simp only [Node.getValue, hnext, ok_bind, hhas, Bool.not_true, Bool.false_eq_true,
        if_false, pure_bind, hchild, hv, hkey]; rfl⟩

/-- What `get_value` returns comes with its loaded content: the pointer
loaded to a shard or to a leaf holding that value. -/
theorem load_of_getValue {loader : Loader} {key : String} {l : Link} {v : UnixfsNode} :
    ∀ (f : Nat) (node : Node) (hb : HashBits), node.getValue loader key f hb = .ok (some (l, v)) →
      (∃ n, InnerNode.loadFromLink loader l = .ok (.node n v)) ∨
        InnerNode.loadFromLink loader l = .ok (.leaf l v)
  | 0, _, _, h => by cases h
  | f + 1, _, _, h => by
    obtain ⟨_, hb', child, _, -, -, -, -, hfound⟩ := getValue_succ_eq_some h
    rcases hfound with ⟨-, rfl, hload⟩ | ⟨-, n, value, -, hrest⟩
    · exact hload
    · exact load_of_getValue f n hb' hrest

/-! ## `children` lists the entries in hash order -/

/-- The top bits of a hash down to a level: those down to the level above,
then the level's chunk. -/
theorem hash_div_succ (key : String) {n w : Nat} (h : (n + 1) * w ≤ 64) :
    beNat (hashKey key) / 2 ^ (64 - (n + 1) * w) =
      beNat (hashKey key) / 2 ^ (64 - n * w) * 2 ^ w + HashBits.bitsAt (hashKey key) (n * w) w := by
  have he : 64 - n * w = 64 - (n + 1) * w + w := by rw [Nat.succ_mul] at h ⊢; omega
  have hc : (hashKey key).length * 8 - (n * w + w) = 64 - (n + 1) * w := by
    rw [length_hashKey, Nat.add_one_mul n w]
  rw [he, pow_add, ← Nat.div_div_eq_div_mul, HashBits.bitsAt, hc]
  exact (Nat.div_add_mod' _ _).symm

/-- Keys whose hash paths agree on `n` levels agree on the top `n * w`
bits of their hash. -/
theorem div_eq_of_hashPath {w : Nat} {a b : String} : ∀ {n : Nat}, n * w ≤ 64 →
    hashPath w a n = hashPath w b n →
      beNat (hashKey a) / 2 ^ (64 - n * w) = beNat (hashKey b) / 2 ^ (64 - n * w)
  | 0, _, _ => by
    have hlt : ∀ k, beNat (hashKey k) < 2 ^ 64 := fun k => by
      simpa only [length_hashKey, show (256 : Nat) ^ 8 = 2 ^ 64 by norm_num] using beNat_lt (hashKey k)
    simp only [Nat.zero_mul, Nat.sub_zero, Nat.div_eq_of_lt (hlt a), Nat.div_eq_of_lt (hlt b)]
  | n + 1, hn, h => by
    rw [hashPath_succ, hashPath_succ] at h
    obtain ⟨hp, hc⟩ := List.append_inj h (by simp [hashPath])
    rw [hash_div_succ a hn, hash_div_succ b hn,
      div_eq_of_hashPath (Nat.le_trans (Nat.mul_le_mul_right w (Nat.le_succ n)) hn) hp,
      List.singleton_inj.mp hc]

/-- The path to a level is a prefix of the path one level down. -/
theorem hashPath_init {w : Nat} {key : String} {path : List Nat} {i : Nat}
    (h : hashPath w key (path.length + 1) = path ++ [i]) : hashPath w key path.length = path := by
  rw [← hashPath_take w key (Nat.le_succ _), h, List.take_left' rfl]

/-- Keys whose hash paths part at a level, in slots `i < j`, have their
hashes in that order. -/
theorem hash_lt_of_slots {w : Nat} {a b : String} {path : List Nat} {i j : Nat}
    (hd : (path.length + 1) * w ≤ 64) (ha : hashPath w a (path.length + 1) = path ++ [i])
    (hb : hashPath w b (path.length + 1) = path ++ [j]) (hij : i < j) :
    beNat (hashKey a) < beNat (hashKey b) := by
  have htop := div_eq_of_hashPath (Nat.le_trans (Nat.mul_le_mul_right w (Nat.le_succ _)) hd)
    ((hashPath_init ha).trans (hashPath_init hb).symm)
  have hlt : beNat (hashKey a) / 2 ^ (64 - (path.length + 1) * w) <
      beNat (hashKey b) / 2 ^ (64 - (path.length + 1) * w) := by
    rw [hash_div_succ a hd, hash_div_succ b hd, htop, chunk_of_hashPath ha, chunk_of_hashPath hb]
    omega
  exact Nat.lt_of_not_le fun hle => Nat.not_lt.mpr (Nat.div_le_div_right hle) hlt

/-- The loop over the pointers lists its names in the order `lt` when each
turn does and the names of turns in earlier slots come first: `R i k` says
the name `k` lies in slot `i`. -/
theorem pointersChildren_sorted (each : Link → Option Yield) (R : Nat → String → Prop)
    (lt : String → String → Prop) (hR : ∀ i j k k', i < j → R i k → R j k' → lt k k') :
    ∀ (S : List Nat) (ps : List Link), S.Pairwise (· < ·) → S.length = ps.length →
      (∀ i p, (i, p) ∈ S.zip ps → ∃ (zs : List Link) (keys : List String), each p = some ⟨zs, none⟩ ∧
        zs.map (·.name) = keys.map some ∧ keys.Pairwise lt ∧ ∀ k ∈ keys, R i k) →
      ∃ (ys : List Link) (keys : List String), pointersChildren each ps = some ⟨ys, none⟩ ∧
        ys.map (·.name) = keys.map some ∧ keys.Pairwise lt ∧ ∀ k ∈ keys, ∃ i ∈ S, R i k
  | [], [], _, _, _ => ⟨[], [], rfl, rfl, List.Pairwise.nil, nofun⟩
  | [], _ :: _, _, hlen, _ => by cases hlen
  | _ :: _, [], _, hlen, _ => by cases hlen
  | i :: S, p :: ps, hS, hlen, h => by
    obtain ⟨hi, hS⟩ := List.pairwise_cons.mp hS
    obtain ⟨zs, ks, hz, hzk, hks, hkR⟩ := h i p (List.mem_cons_self _ _)
    obtain ⟨ys, ks', hy, hyk, hks', hkR'⟩ := pointersChildren_sorted each R lt hR S ps hS
      (Nat.succ.inj hlen) fun j q hq => h j q (List.mem_cons_of_mem _ hq)
    refine ⟨zs ++ ys, ks ++ ks', by simp [pointersChildren, hz, Yield.andThen, hy], by simp [hzk, hyk],
      List.pairwise_append.mpr ⟨hks, hks', fun k hk k' hk' => ?_⟩, fun k hk => ?_⟩
    · obtain ⟨j, hj, hjk⟩ := hkR' k' hk'
      exact hR i j k k' (hi j hj) (hkR k hk) hjk
    · rcases List.mem_append.mp hk with hk | hk
      · exact ⟨i, List.mem_cons_self _ _, hkR k hk⟩
      · obtain ⟨j, hj, hjk⟩ := hkR' k hk
        exact ⟨j, List.mem_cons_of_mem _ hj, hjk⟩

/-- On a well-formed tree at `path`, `children` runs to its end and lists
names, in increasing order of their hash, each hashing along `path`. -/
theorem children_sorted_of_wf {loader : Loader} {w : Nat} :
    ∀ f path node, shardWf loader w f path node = true →
      ∃ (ys : List Link) (keys : List String), node.children loader f = some ⟨ys, none⟩ ∧
        ys.map (·.name) = keys.map some ∧ keys.Pairwise (fun a b => beNat (hashKey a) < beNat (hashKey b)) ∧
        ∀ k ∈ keys, ∃ i, hashPath w k (path.length + 1) = path ++ [i]
  | 0, _, _, h => by cases h
  | f + 1, path, node, h => by
    obtain ⟨-, hd, hlen, hslots⟩ := shardWf_succ h
    obtain ⟨ys, keys, hys, hk, hs, hR⟩ := pointersChildren_sorted
      (pointerChildren loader (Node.children loader f) node.paddingLen)
      (fun i k => hashPath w k (path.length + 1) = path ++ [i]) _
      (fun i j k k' hij hi hj => hash_lt_of_slots hd hi hj hij)
      _ _ (setBits_sorted _ _) hlen fun i p hip => by
        rcases slotWf_cases (hslots i p hip) with ⟨name, sub, hname, hshort, -, hs, hwf⟩ |
          ⟨name, k, hname, hlong, hdrop, hpath⟩
        · obtain ⟨zs, ks, hzs, hzk, hks, hkR⟩ := children_sorted_of_wf f _ sub hwf
          refine ⟨zs, ks, ?_, hzk, hks, fun k hk => ?_⟩
          · simpa only [pointerChildren, hname, if_neg (Nat.not_lt.mpr hshort),
              loadFromLink_of_shard hs, InnerNode.children] using hzs
          · obtain ⟨i', hi'⟩ := hkR k hk
            exact hashPath_parent hi'
        · exact ⟨[{ p with name := some k }], [k], by simp [pointerChildren, hname, hlong,
            suffixFrom_of_dropBytes hdrop], rfl, List.pairwise_singleton _ _, fun k' hk' => by
              rw [List.mem_singleton.mp hk']; exact hpath⟩
    refine ⟨ys, keys, hys, hk, hs, fun k hk' => ?_⟩
    obtain ⟨i, -, hi⟩ := hR k hk'
    exact ⟨i, hi⟩

/-- **`children` lists the entries in hash order.** On a well-formed
directory of any fanout, within as many levels as the fuel covers,
`children` runs to its end, every link it yields is named, and the names
come in strictly increasing order of their 64-bit hash, whatever order the
entries were inserted in. -/
theorem children_in_hash_order {loader : Loader} {w f : Nat} {root : Node}
    (hwf : shardWf loader w f [] root = true) :
    ∃ (ys : List Link) (keys : List String), root.children loader f = some ⟨ys, none⟩ ∧
      ys.map (·.name) = keys.map some ∧ (keys.map fun k => beNat (hashKey k)).Pairwise (· < ·) := by
  obtain ⟨ys, keys, hys, hk, hs, -⟩ := children_sorted_of_wf f [] root hwf
  exact ⟨ys, keys, hys, hk, List.pairwise_map.mpr hs⟩

/-- Three files of a directory of fanout 256, in the slots their hashes
pick: `c.txt` in slot `0x54`, `a.txt` in `0x59` and `b.txt` in `0x85`. -/
def filesRoot : Node :=
  ⟨2 ^ 0x54 + 2 ^ 0x59 + 2 ^ 0x85, 8, 2,
    [⟨1, some "54c.txt", none⟩, ⟨2, some "59a.txt", none⟩, ⟨3, some "85b.txt", none⟩]⟩

set_option maxRecDepth 4000 in
theorem children_in_hash_order_filesRoot :
    shardWf sampleLoader 8 maxDepth [] filesRoot = true ∧
    ∃ (ys : List Link) (keys : List String), filesRoot.children sampleLoader maxDepth = some ⟨ys, none⟩ ∧
      ys.map (·.name) = keys.map some ∧ (keys.map fun k => beNat (hashKey k)).Pairwise (· < ·) :=
  ⟨by decide, children_in_hash_order (by decide : shardWf sampleLoader 8 maxDepth [] filesRoot = true)⟩

example : filesRoot.children sampleLoader maxDepth =
    some ⟨[⟨1, some "c.txt", none⟩, ⟨2, some "a.txt", none⟩, ⟨3, some "b.txt", none⟩], none⟩ := by
  decide

/-- `children` names no entry twice: names in strictly increasing order of
their hash are distinct. -/
theorem children_nodup_of_wf {loader : Loader} {w f : Nat} {path : List Nat} {node : Node}
    (h : shardWf loader w f path node = true) :
    ∃ ys, node.children loader f = some ⟨ys, none⟩ ∧ (ys.map (·.name)).Nodup := by
  obtain ⟨ys, keys, hys, hk, hs, -⟩ := children_sorted_of_wf f path node h
  refine ⟨ys, hys, ?_⟩
  rw [hk]
  exact List.Nodup.map (Option.some_injective _) (hs.imp fun hlt he => by subst he; exact Nat.lt_irrefl _ hlt)

/-- In a listing that names nothing twice, `find?` by name picks the
entry of that name. -/
theorem find?_name_of_nodup {ys : List Link} (h : (ys.map (·.name)).Nodup) {l : Link} (hl : l ∈ ys) :
    ys.find? (·.name == l.name) = some l := by
  cases hx : ys.find? (·.name == l.name) with
  | none => exact absurd ((List.find?_eq_none.mp hx) _ hl) (by simp)
  | some x =>
    rw [List.inj_on_of_nodup_map h (List.mem_of_find?_eq_some hx) hl (by simpa using List.find?_some hx)]

/-! ## The refinement -/

/-- **`get` is a lookup in the listing.** On a well-formed directory of at
most `MAX_DEPTH` levels whose entries are not HAMT shards, `children` runs
to its end and names no entry twice, and for every non-empty key `get`
succeeds: it returns the entry `find?` picks by that name from the listing,
with the same cid and size and the content the loader has for it, and
`None` exactly when the listing has no entry of that name. -/
theorem get_eq_find_listing {loader : Loader} {root : Node} (hw : root.bitWidth ≤ 8)
    (hwf : shardWf loader root.bitWidth maxDepth [] root = true) (hleaf : EntriesAreLeaves loader root) :
    ∃ ys, root.children loader maxDepth = some ⟨ys, none⟩ ∧ (ys.map (·.name)).Nodup ∧
      ∀ key, key ≠ "" → ∃ r, root.get loader key = .ok r ∧
        r.map (fun e => (e.1.cid, e.1.tsize)) =
          (ys.find? (·.name == some key)).map (fun l => (l.cid, l.tsize)) ∧
        ∀ l v, r = some (l, v) → InnerNode.loadFromLink loader l = .ok (.leaf l v) := by
  have htidy := tidy_of_wf loader _ _ _ _ hwf
  obtain ⟨ys, hys, hnodup⟩ := children_nodup_of_wf hwf
  obtain ⟨ys', hys', hmem⟩ := children_of_tidy loader _ root htidy
  rw [hys] at hys'
  cases hys'
  refine ⟨ys, hys, hnodup, fun key hkey => ?_⟩
  obtain ⟨r, hr⟩ := getValue_ok_of_wf hw key maxDepth [] root hwf hleaf
  have hget : root.get loader key = .ok r := by simpa [Node.get, HashBits.new] using hr
  cases r with
  | none =>
    refine ⟨none, hget, ?_, fun _ _ => nofun⟩
    rw [Option.map_none', eq_comm, Option.map_eq_none', List.find?_eq_none]
    intro x hx hname
    obtain ⟨k, p, hp, rfl⟩ := (hmem x).mp hx
    obtain rfl : k = key := by simpa using hname
    obtain ⟨v, hv⟩ := getValue_of_mem hw hp hwf hleaf
    rw [hr] at hv
    cases hv
  | some e =>
    obtain ⟨l, v⟩ := e
    have hm := mem_of_getValue loader hkey _ root _ l v htidy hleaf hr
    have hl := (hmem _).mpr ⟨key, l, hm, rfl⟩
    refine ⟨_, hget, ?_, fun l' v' h => ?_⟩
    · simp [find?_name_of_nodup hnodup hl]
    · cases h
      obtain ⟨v₀, h₀⟩ := hleaf key l hm
      rcases load_of_getValue _ _ _ hr with ⟨n, hn⟩ | hload
      · rw [h₀] at hn; cases hn
      · exact hload

/-- The entry of the sample directory `emptyKeyRoot` loads to a file. -/
theorem emptyKeyRoot_leaves : EntriesAreLeaves sampleLoader emptyKeyRoot := by
  intro k p hm
  cases hm with
  | entry hp hname hlong _ =>
    obtain rfl : p = ⟨1, some "00", none⟩ := by simpa [emptyKeyRoot] using hp
    cases hname
    exact absurd hlong (by decide)
  | @shard _ sub q _ _ _ hq hname _ hsub hsubmem =>
    obtain rfl : q = ⟨1, some "00", none⟩ := by simpa [emptyKeyRoot] using hq
    obtain rfl : emptyKeySub = sub := by simpa [sampleLoader] using hsub
    cases hsubmem with
    | entry hp' _ _ _ =>
      obtain rfl : p = ⟨2, some "01k5085", none⟩ := by simpa [emptyKeySub] using hp'
      exact ⟨.file, rfl⟩
    | @shard _ _ q' _ _ _ hq' hname' hshort' _ _ =>
      obtain rfl : q' = ⟨2, some "01k5085", none⟩ := by simpa [emptyKeySub] using hq'
      cases hname'
      exact absurd hshort' (by decide)

set_option maxRecDepth 4000 in
theorem get_eq_find_listing_emptyKeyRoot :
    (emptyKeyRoot.bitWidth ≤ 8 ∧ shardWf sampleLoader emptyKeyRoot.bitWidth maxDepth [] emptyKeyRoot = true ∧
      EntriesAreLeaves sampleLoader emptyKeyRoot) ∧
    ∃ ys, emptyKeyRoot.children sampleLoader maxDepth = some ⟨ys, none⟩ ∧ (ys.map (·.name)).Nodup ∧
      ∀ key, key ≠ "" → ∃ r, emptyKeyRoot.get sampleLoader key = .ok r ∧
        r.map (fun e => (e.1.cid, e.1.tsize)) =
          (ys.find? (·.name == some key)).map (fun l => (l.cid, l.tsize)) ∧
        ∀ l v, r = some (l, v) → InnerNode.loadFromLink sampleLoader l = .ok (.leaf l v) :=
  ⟨⟨by decide, by decide, emptyKeyRoot_leaves⟩,
    get_eq_find_listing (by decide) (by decide) emptyKeyRoot_leaves⟩

end Hamt

end Beetle
