import Mathlib.Data.List.Infix
import Mathlib.Data.List.Nodup

/-!
# Lru — the bounded caches of the engine

`Bitswap` keeps both `known_peers` and `ledgers` in a `caches::RawLRU`
(behaviour.rs:120-122): a map of fixed capacity whose entries are ordered
from most to least recently used. The engine relies on five operations:

* `get_mut` (`with_ledger`) — look a key up and move it to the front;
* `put` (`add_peer`, `with_ledger`) — update an existing key and move it
  to the front, or insert a new key at the front, evicting the least
  recently used entry when the cache is full;
* `remove` (`inject_dial_failure`);
* `values_mut` / `iter_mut` (`cancel_block`, `inject_event`, `poll`) —
  visit every entry in order without touching the order;
* `iter` (`find_providers`) — read the entries in order.

The crate allocates one node per inserted key; `put` on a present key
reuses it. The model gives every entry the allocation stamp of its node,
drawn from the counter `next`, so that "the same ledger object" is a
statement about stamps: an entry evicted and inserted again gets a new
stamp. Nothing in the engine reads a stamp.
-/

namespace Beetle

/-- A `caches::RawLRU` of capacity `cap`. `entries` lists
`(key, stamp, value)` from most to least recently used. The fields after
`next` are the cache's own invariants: one entry per key, at most `cap`
entries, every stamp already allocated. -/
structure Lru (κ : Type) (ν : Type) where
  cap : Nat
  entries : List (κ × Nat × ν)
  next : Nat
  keys_nodup : (entries.map (·.1)).Nodup
  length_le : entries.length ≤ cap
  stamp_lt : ∀ e ∈ entries, e.2.1 < next

/-! ## List facts behind the operations -/

section ListFacts

variable {κ β : Type} [DecidableEq κ] {l : List (κ × β)}

theorem lookup_eq_some_of_mem (hl : (l.map (·.1)).Nodup) {k : κ} {x : β}
    (h : (k, x) ∈ l) : l.lookup k = some x := by
  induction l with
  | nil => cases h
  | cons e l ih =>
    obtain ⟨k', x'⟩ := e
    simp only [List.map_cons, List.nodup_cons, List.mem_map] at hl
    rcases List.mem_cons.mp h with h | h
    · cases h; simp
    · have hne : (k == k') = false := by
        simpa using fun he : k = k' => hl.1 ⟨(k, x), h, he⟩
      simp [List.lookup_cons, hne, ih hl.2 h]

theorem mem_of_lookup_eq_some {k : κ} {x : β} (h : l.lookup k = some x) :
    (k, x) ∈ l := by
  obtain ⟨l₁, l₂, rfl, -⟩ := List.lookup_eq_some_iff.mp h
  simp

theorem lookup_eq_some_iff_mem (hl : (l.map (·.1)).Nodup) {k : κ} {x : β} :
    l.lookup k = some x ↔ (k, x) ∈ l :=
  ⟨mem_of_lookup_eq_some, lookup_eq_some_of_mem hl⟩

theorem lookup_filter_ne (k k' : κ) :
    (l.filter (·.1 != k)).lookup k' = if k' = k then none else l.lookup k' := by
  induction l with
  | nil => split <;> rfl
  | cons e l ih =>
    obtain ⟨k'', x⟩ := e
    by_cases h' : k' = k''
    · subst h'
      by_cases h : k' = k
      · subst h; simp [ih]
      · have : (k' != k) = true := by simpa using h
        simp [List.filter_cons, this, h]
    · have hb : (k' == k'') = false := by simpa using h'
      by_cases h : k'' = k
      · subst h; simp [ih, List.lookup_cons, hb]
      · have : (k'' != k) = true := by simpa using h
        simp only [List.filter_cons, this, if_true, List.lookup_cons, hb, ih]

theorem lookup_of_lookup_take {n : Nat} {k : κ} {x : β}
    (h : (l.take n).lookup k = some x) : l.lookup k = some x := by
  obtain ⟨l₁, l₂, hl, hk⟩ := List.lookup_eq_some_iff.mp h
  have : l = l₁ ++ (k, x) :: (l₂ ++ l.drop n) := by
    calc l = l.take n ++ l.drop n := (List.take_append_drop n l).symm
      _ = _ := by rw [hl]; simp
  rw [this, List.lookup_append]
  have : l₁.lookup k = none := List.lookup_eq_none_iff.mpr hk
  simp [this]

theorem nodup_filter_keys (hl : (l.map (·.1)).Nodup) (k : κ) :
    ((l.filter (·.1 != k)).map (·.1)).Nodup :=
  hl.sublist ((List.filter_sublist _).map _)

theorem not_mem_filter_keys (k : κ) : k ∉ (l.filter (·.1 != k)).map (·.1) := by
  simp

end ListFacts

/-- Two predicates that agree on a list find the same element. -/
theorem find?_congr {α : Type} {p q : α → Bool} :
    ∀ {l : List α}, (∀ a ∈ l, p a = q a) → l.find? p = l.find? q
  | [], _ => rfl
  | a :: l, h => by
    simp only [List.find?_cons, h a (List.mem_cons_self _ _),
      find?_congr fun b hb => h b (List.mem_cons_of_mem _ hb)]

namespace Lru

variable {κ ν : Type} [DecidableEq κ]

/-- `RawLRU::new(cap)`. -/
def new (cap : Nat) : Lru κ ν :=
  ⟨cap, [], 0, List.nodup_nil, Nat.zero_le _, fun _ h => nomatch h⟩

/-- The stamp and value stored under `k` (a lookup that does not
promote). -/
def entry? (c : Lru κ ν) (k : κ) : Option (Nat × ν) := c.entries.lookup k

/-- The value stored under `k`, as `RawLRU::peek` returns it. -/
def get? (c : Lru κ ν) (k : κ) : Option ν := (c.entry? k).map (·.2)

/-- The keys in iteration order, most recently used first. -/
def keys (c : Lru κ ν) : List κ := c.entries.map (·.1)


/-! ## Operations -/

/-- `get_mut(k)` followed by a write of `v`: the entry of `k` moves to
the front with its stamp kept. A missing key changes nothing. -/
def promote (c : Lru κ ν) (k : κ) (v : ν) : Lru κ ν :=
  match h : c.entry? k with
  | none => c
  | some (g, w) =>
    { c with
      entries := (k, g, v) :: c.entries.filter (·.1 != k)
      keys_nodup := List.nodup_cons.mpr
        ⟨not_mem_filter_keys k, nodup_filter_keys c.keys_nodup k⟩
      length_le := by
        have hmem := mem_of_lookup_eq_some h
        have : (c.entries.filter (·.1 != k)).length < c.entries.length :=
          List.length_filter_lt_length_iff_exists.mpr ⟨_, hmem, by simp⟩
        have := c.length_le
        simp only [List.length_cons]
        omega
      stamp_lt := by
        intro e he
        rcases List.mem_cons.mp he with rfl | he
        · exact c.stamp_lt (k, g, w) (mem_of_lookup_eq_some h)
        · exact c.stamp_lt e (List.mem_of_mem_filter he) }

/-- `put(k, v)`: a present key is updated in place and promoted; a new
key gets a fresh node at the front, and the least recently used entry
falls off when that overflows the capacity. -/
def put (c : Lru κ ν) (k : κ) (v : ν) : Lru κ ν :=
  match h : c.entry? k with
  | some _ => c.promote k v
  | none =>
    { cap := c.cap
      entries := ((k, c.next, v) :: c.entries).take c.cap
      next := c.next + 1
      keys_nodup := by
        refine List.Nodup.sublist ((List.take_sublist _ _).map _) ?_
        refine List.nodup_cons.mpr ⟨?_, c.keys_nodup⟩
        intro hk
        obtain ⟨e, he, hek⟩ := List.mem_map.mp hk
        have := List.lookup_eq_none_iff.mp h e he
        simp [hek] at this
      length_le := by rw [List.length_take]; exact Nat.min_le_left _ _
      stamp_lt := by
        intro e he
        rcases List.mem_cons.mp (List.mem_of_mem_take he) with rfl | he
        · exact Nat.lt_succ_self _
        · exact Nat.lt_succ_of_lt (c.stamp_lt e he) }

/-- `remove(k)`. -/
def remove (c : Lru κ ν) (k : κ) : Lru κ ν :=
  { c with
    entries := c.entries.filter (·.1 != k)
    keys_nodup := nodup_filter_keys c.keys_nodup k
    length_le := (List.length_filter_le _ _).trans c.length_le
    stamp_lt := fun e he => c.stamp_lt e (List.mem_of_mem_filter he) }

/-- `iter_mut()` writing `f k v` into every entry: order and stamps are
kept. -/
def mapValues (c : Lru κ ν) (f : κ → ν → ν) : Lru κ ν :=
  { c with
    entries := c.entries.map fun e => (e.1, e.2.1, f e.1 e.2.2)
    keys_nodup := by simpa [List.map_map, Function.comp_def] using c.keys_nodup
    length_le := by simpa using c.length_le
    stamp_lt := by
      intro e he
      obtain ⟨e', he', rfl⟩ := List.mem_map.mp he
      exact c.stamp_lt e' he' }

/-- A write of `v` through the reference `values_mut()` yields for `k`:
the entry stays where it is. -/
def set (c : Lru κ ν) (k : κ) (v : ν) : Lru κ ν :=
  c.mapValues fun k' w => if k' = k then v else w

/-! ## What each operation does to one key -/

variable {c : Lru κ ν} {k k' : κ} {v : ν} {g : Nat} {w : ν}

@[simp] theorem entry?_new (cap : Nat) : (new cap : Lru κ ν).entry? k = none := rfl

theorem mem_of_entry? (h : c.entry? k = some (g, w)) : (k, g, w) ∈ c.entries :=
  mem_of_lookup_eq_some h

theorem entry?_eq_some_iff : c.entry? k = some (g, w) ↔ (k, g, w) ∈ c.entries :=
  lookup_eq_some_iff_mem c.keys_nodup

theorem get?_eq_some_iff : c.get? k = some w ↔ ∃ g, c.entry? k = some (g, w) := by
  unfold get?
  cases c.entry? k with
  | none => simp
  | some x => obtain ⟨g, w'⟩ := x; simp [eq_comm]

theorem get?_eq_none_iff : c.get? k = none ↔ c.entry? k = none := by
  simp [get?]

theorem stamp_lt_next (h : c.entry? k = some (g, w)) : g < c.next :=
  c.stamp_lt _ (mem_of_entry? h)

theorem entries_promote (h : c.entry? k = some (g, w)) :
    (c.promote k v).entries = (k, g, v) :: c.entries.filter (·.1 != k) := by
  unfold promote
  split <;> simp_all

theorem promote_of_none (h : c.entry? k = none) : c.promote k v = c := by
  unfold promote
  split <;> simp_all

@[simp] theorem next_promote : (c.promote k v).next = c.next := by
  unfold promote
  split <;> rfl

@[simp] theorem cap_promote : (c.promote k v).cap = c.cap := by
  unfold promote
  split <;> rfl

theorem entry?_promote_self (h : c.entry? k = some (g, w)) :
    (c.promote k v).entry? k = some (g, v) := by
  simp [entry?, entries_promote h]

theorem entry?_promote_ne (hk : k' ≠ k) : (c.promote k v).entry? k' = c.entry? k' := by
  cases h : c.entry? k with
  | none => rw [promote_of_none h]
  | some x =>
    obtain ⟨g, w⟩ := x
    have hb : (k' == k) = false := by simpa using hk
    simp [entry?, entries_promote h, List.lookup_cons, hb, lookup_filter_ne, hk]

theorem put_of_some (h : c.entry? k = some (g, w)) : c.put k v = c.promote k v := by
  unfold put
  split <;> simp_all

theorem entries_put_of_none (h : c.entry? k = none) :
    (c.put k v).entries = ((k, c.next, v) :: c.entries).take c.cap := by
  unfold put
  split <;> simp_all

@[simp] theorem cap_put : (c.put k v).cap = c.cap := by
  unfold put
  split <;> simp

theorem next_le_put : c.next ≤ (c.put k v).next := by
  unfold put
  split <;> simp

theorem entry?_put_self (hc : 0 < c.cap) :
    ∃ g, (c.put k v).entry? k = some (g, v) := by
  cases h : c.entry? k with
  | none =>
    refine ⟨c.next, ?_⟩
    obtain ⟨n, hn⟩ := Nat.exists_eq_add_of_lt hc
    simp [entry?, entries_put_of_none h, hn, List.take_succ_cons]
  | some x => exact ⟨x.1, by rw [put_of_some h, entry?_promote_self h]⟩

/-- A new key gets a stamp never used before. -/
theorem entry?_put_of_none (h : c.entry? k = none) (h' : (c.put k v).entry? k = some (g, w)) :
    g = c.next := by
  rw [entry?, entries_put_of_none h] at h'
  have := lookup_of_lookup_take h'
  exact (by simpa using this.symm : g = c.next ∧ w = v).1

/-- What `put` stores under its own key is the value it was given. -/
theorem entry?_put_self_value (h' : (c.put k v).entry? k = some (g, w)) : w = v := by
  cases h : c.entry? k with
  | none =>
    rw [entry?, entries_put_of_none h] at h'
    exact (by simpa using (lookup_of_lookup_take h').symm : g = c.next ∧ w = v).2
  | some x =>
    obtain ⟨g₀, w₀⟩ := x
    rw [put_of_some h, entry?_promote_self h] at h'
    cases h'; rfl

/-- `put` never invents an entry for another key: what other keys hold
afterwards they held before. -/
theorem entry?_put_ne (hk : k' ≠ k) {x : Nat × ν} (h' : (c.put k v).entry? k' = some x) :
    c.entry? k' = some x := by
  cases h : c.entry? k with
  | none =>
    rw [entry?, entries_put_of_none h] at h'
    have hb : (k' == k) = false := by simpa using hk
    simpa [List.lookup_cons, hb] using lookup_of_lookup_take h'
  | some y =>
    obtain ⟨g₀, w₀⟩ := y
    rw [put_of_some h, entry?_promote_ne hk] at h'
    exact h'

@[simp] theorem entry?_remove : (c.remove k).entry? k' = if k' = k then none else c.entry? k' :=
  lookup_filter_ne k k'

theorem lookup_map_values (f : κ → ν → ν) (l : List (κ × Nat × ν)) :
    (l.map fun e => (e.1, e.2.1, f e.1 e.2.2)).lookup k = (l.lookup k).map fun x => (x.1, f k x.2) := by
  induction l with
  | nil => rfl
  | cons e l ih =>
    obtain ⟨k'', g'', w''⟩ := e
    by_cases hk : k = k''
    · subst hk; simp
    · have hb : (k == k'') = false := by simpa using hk
      simp [List.lookup_cons, hb, ih]

@[simp] theorem entry?_mapValues (f : κ → ν → ν) :
    (c.mapValues f).entry? k = (c.entry? k).map fun x => (x.1, f k x.2) :=
  lookup_map_values f c.entries

omit [DecidableEq κ] in
@[simp] theorem next_mapValues (f : κ → ν → ν) : (c.mapValues f).next = c.next := rfl

@[simp] theorem next_remove : (c.remove k).next = c.next := rfl

/-! ## Recency -/

theorem mem_keys_iff : k ∈ c.keys ↔ ∃ g w, c.entry? k = some (g, w) := by
  simp only [keys, List.mem_map, entry?_eq_some_iff]
  constructor
  · rintro ⟨⟨k', g, w⟩, he, rfl⟩
    exact ⟨g, w, he⟩
  · rintro ⟨g, w, he⟩
    exact ⟨_, he, rfl⟩

/-- `put` moves its key to the front and keeps the order of the others, up
to the capacity: a run of keys at the front stays behind it. -/
theorem keys_put_prefix {l : List κ} (hl : l <+: c.keys) (hk : k ∉ l) :
    (k :: l).take c.cap <+: (c.put k v).keys := by
  cases h : c.entry? k with
  | none =>
    rw [keys, entries_put_of_none h, List.map_take]
    exact ((List.prefix_cons_inj k).mpr hl).take c.cap
  | some x =>
    obtain ⟨g, w⟩ := x
    have hf : (c.entries.filter (·.1 != k)).map (·.1) = c.keys.filter (· != k) := by
      rw [keys, List.filter_map]; rfl
    have hl' : l.filter (· != k) = l :=
      List.filter_eq_self.mpr fun a ha => bne_iff_ne.mpr fun h => hk (h ▸ ha)
    rw [keys, put_of_some h, entries_promote h, List.map_cons, hf]
    exact (List.take_prefix _ _).trans ((List.prefix_cons_inj k).mpr (hl' ▸ hl.filter _))

end Lru

end Beetle
