import Beetle.Basic
import Beetle.Lru

/-!
# Message — the wantlist and the outbound message

`crate::message` (`BitswapMessage`, `Wantlist`, `BlockPresence`) and
`crate::Block` are not part of this snapshot; behaviour.rs reaches them
only through the calls below. They are modelled from the specification
(§3 Data model, §4.1 Wantlist, §4.2 Message, §4.4 Engine):

* `Wantlist` — an ordered mapping `cid → (kind, priority)` with at most one
  entry per CID (an invariant the structure carries), the cancels it has
  recorded, and the `full` flag;
* `want_block` overwrites, `want_have_block` never demotes a Want-Block,
  `cancel_block` removes any entry and records a cancel, `remove_block`
  drops a Want-Block and `remove_want_block` a Want-Have, both without a
  cancel (§4.4: the sender's Want-Block on a received block, the Want-Have
  answered by a `Have` presence);
* `BitswapMessage` — the wantlist delta, the block payloads and the
  presences, appended in call order; `pop_block` takes payloads in source
  order (§5: "within each, source order is preserved").
-/

namespace Beetle

/-- Modelled from the spec: the kind of a wantlist entry,
"kind ∈ {WantBlock, WantHave}" (§3). -/
inductive WantType
  | block
  | have
  deriving DecidableEq, Repr

/-- Modelled from the spec: `message::Wantlist`. Entries keep insertion
order; a CID appears at most once (`entries_nodup`). -/
structure Wantlist where
  entries : List (Cid × WantType × Priority)
  cancels : List Cid
  full : Bool
  entries_nodup : (entries.map (·.1)).Nodup
  deriving DecidableEq

namespace Wantlist

/-- `Wantlist::default()`. -/
def empty : Wantlist := ⟨[], [], false, List.nodup_nil⟩

/-- The kind of the entry for `cid`, if there is one. -/
def kind? (w : Wantlist) (cid : Cid) : Option WantType := (w.entries.lookup cid).map (·.1)

theorem nodup_replace {l : List (Cid × WantType × Priority)} (hl : (l.map (·.1)).Nodup)
    (cid : Cid) (x : WantType × Priority) :
    ((l.map fun e => if e.1 = cid then (cid, x) else e).map (·.1)).Nodup := by
  rw [List.map_map]
  convert hl using 2
  funext e
  by_cases h : e.1 = cid <;> simp [h]

theorem nodup_append_new {l : List (Cid × WantType × Priority)} (hl : (l.map (·.1)).Nodup)
    {cid : Cid} (h : l.lookup cid = none) (x : WantType × Priority) :
    ((l ++ [(cid, x)]).map (·.1)).Nodup := by
  rw [List.map_append, List.nodup_append]
  refine ⟨hl, List.nodup_singleton _, fun a ha hb => ?_⟩
  simp only [List.map_cons, List.map_nil, List.mem_singleton] at hb
  subst hb
  obtain ⟨e, he, hek⟩ := List.mem_map.mp ha
  have := List.lookup_eq_none_iff.mp h e he
  simp_all

/-- Set the entry of `cid`: in place when present, appended otherwise. -/
def upsert (w : Wantlist) (cid : Cid) (x : WantType × Priority) : Wantlist :=
  match h : w.entries.lookup cid with
  | some _ =>
    { w with
      entries := w.entries.map fun e => if e.1 = cid then (cid, x) else e
      entries_nodup := nodup_replace w.entries_nodup cid x }
  | none =>
    { w with
      entries := w.entries ++ [(cid, x)]
      entries_nodup := nodup_append_new w.entries_nodup h x }

/-- Drop the entry of `cid`, if any. -/
def erase (w : Wantlist) (cid : Cid) : Wantlist :=
  { w with
    entries := w.entries.filter (·.1 != cid)
    entries_nodup := w.entries_nodup.sublist ((List.filter_sublist _).map _) }

/-- Modelled from the spec: `want_block` "sets the entry to WantBlock with
the given priority (overwrites any WantHave)". -/
def wantBlock (w : Wantlist) (cid : Cid) (priority : Priority) : Wantlist :=
  w.upsert cid (.block, priority)

/-- Modelled from the spec: `want_have_block` "sets to WantHave only if no
WantBlock entry exists for that CID". -/
def wantHaveBlock (w : Wantlist) (cid : Cid) (priority : Priority) : Wantlist :=
  if w.kind? cid = some .block then w else w.upsert cid (.have, priority)

/-- Modelled from the spec: `cancel_block` "removes any entry and records
a cancel". -/
def cancelBlock (w : Wantlist) (cid : Cid) : Wantlist :=
  { w.erase cid with
    cancels := if cid ∈ w.cancels then w.cancels else w.cancels ++ [cid] }

/-- Modelled from the spec: `remove_block`, used on the sender's ledger
for a received block: "remove the corresponding Want-Block without
emitting a cancel" (§4.4). It keeps a Want-Have and a cancel already
pending for the CID, where §8(c) has no pending cancel for it in the
sender's ledger right after the block. -/
def removeBlock (w : Wantlist) (cid : Cid) : Wantlist :=
  if w.kind? cid = some .block then w.erase cid else w

/-- Modelled from the spec: `remove_want_block`, behind
`cancel_want_block` and `Have` presences: "removes Want-Have ... without
emitting a cancel". -/
def removeWantBlock (w : Wantlist) (cid : Cid) : Wantlist :=
  if w.kind? cid = some .have then w.erase cid else w

/-- `set_full`. -/
def setFull (w : Wantlist) (full : Bool) : Wantlist := { w with full := full }

/-- `blocks()`: the Want-Block entries, in order. -/
def blocks (w : Wantlist) : List (Cid × Priority) :=
  w.entries.filterMap fun e => if e.2.1 = .block then some (e.1, e.2.2) else none

/-- `want_have_blocks()`: the Want-Have entries, in order. -/
def wantHaveBlocks (w : Wantlist) : List (Cid × Priority) :=
  w.entries.filterMap fun e => if e.2.1 = .have then some (e.1, e.2.2) else none

/-- Modelled from the spec: the wantlist delta is empty when it has no
entry and no cancel (the `full` flag alone announces nothing). -/
def isEmpty (w : Wantlist) : Bool := w.entries.isEmpty && w.cancels.isEmpty

/-! ### The kind each operation leaves for a CID -/

variable {w : Wantlist} {cid cid' : Cid}

theorem lookup_replace (l : List (Cid × WantType × Priority)) (x : WantType × Priority) :
    (l.map fun e => if e.1 = cid then (cid, x) else e).lookup cid' =
      if cid' = cid then (l.lookup cid).map fun _ => x else l.lookup cid' := by
  induction l with
  | nil => split <;> rfl
  | cons e l ih =>
    obtain ⟨c, y⟩ := e
    by_cases hc : c = cid
    · subst hc
      by_cases h' : cid' = c
      · subst h'; simp
      · have hb : (cid' == c) = false := by simpa using h'
        simp [List.lookup_cons, hb, ih, h']
    · by_cases h' : cid' = c
      · subst h'; simp only [List.map_cons, if_neg hc, List.lookup_cons_self]
      · have hb : (cid' == c) = false := by simpa using h'
        have hb' : (cid == c) = false := beq_false_of_ne (Ne.symm hc)
        simp only [List.map_cons, if_neg hc, List.lookup_cons, hb, ih, hb']

theorem kind?_upsert (x : WantType × Priority) :
    (w.upsert cid x).kind? cid' = if cid' = cid then some x.1 else w.kind? cid' := by
  unfold upsert kind?
  split
  · rename_i h
    simp only [lookup_replace]
    split <;> simp_all
  · rename_i h
    rw [List.lookup_append]
    by_cases h' : cid' = cid
    · subst h'; simp [h]
    · have hb : (cid' == cid) = false := by simpa using h'
      simp [h', hb, List.lookup_cons]

@[simp] theorem kind?_erase : (w.erase cid).kind? cid' = if cid' = cid then none else w.kind? cid' := by
  simp only [erase, kind?, lookup_filter_ne]
  split <;> rfl

@[simp] theorem kind?_wantBlock (p : Priority) :
    (w.wantBlock cid p).kind? cid' = if cid' = cid then some .block else w.kind? cid' :=
  kind?_upsert _

@[simp] theorem kind?_wantHaveBlock (p : Priority) :
    (w.wantHaveBlock cid p).kind? cid' =
      if cid' = cid ∧ w.kind? cid ≠ some .block then some .have else w.kind? cid' := by
  unfold wantHaveBlock
  split
  · rename_i h; simp [h]
  · rename_i h
    rw [kind?_upsert]
    by_cases h' : cid' = cid <;> simp [h', h]

@[simp] theorem kind?_cancelBlock :
    (w.cancelBlock cid).kind? cid' = if cid' = cid then none else w.kind? cid' :=
  kind?_erase

@[simp] theorem kind?_removeBlock :
    (w.removeBlock cid).kind? cid' =
      if cid' = cid ∧ w.kind? cid = some .block then none else w.kind? cid' := by
  unfold removeBlock
  split
  · rename_i h
    rw [kind?_erase]
    by_cases h' : cid' = cid <;> simp [h', h]
  · rename_i h; simp [h]

@[simp] theorem kind?_removeWantBlock :
    (w.removeWantBlock cid).kind? cid' =
      if cid' = cid ∧ w.kind? cid = some .have then none else w.kind? cid' := by
  unfold removeWantBlock
  split
  · rename_i h
    rw [kind?_erase]
    by_cases h' : cid' = cid <;> simp [h', h]
  · rename_i h; simp [h]

@[simp] theorem kind?_setFull (b : Bool) : (w.setFull b).kind? cid' = w.kind? cid' := rfl

@[simp] theorem kind?_empty : empty.kind? cid = none := rfl

end Wantlist

/-- `crate::Block`. -/
structure Block where
  cid : Cid
  data : Bytes
  deriving DecidableEq, Repr

/-- Modelled from the spec: a presence is `Have` or `DontHave` (§3). -/
inductive BlockPresenceType
  | have
  | dontHave
  deriving DecidableEq, Repr

/-- Modelled from the spec: `BlockPresence` = `(CID, kind)`. -/
structure BlockPresence where
  cid : Cid
  typ : BlockPresenceType
  deriving DecidableEq, Repr

/-- `BlockPresence::have(cid)`. -/
def BlockPresence.have (cid : Cid) : BlockPresence := ⟨cid, .have⟩

/-- `BlockPresence::is_have`. -/
def BlockPresence.isHave (bp : BlockPresence) : Bool := bp.typ = .have

/-- Modelled from the spec: `BitswapMessage`, "a Wantlist delta, a list of
block payloads, a list of BlockPresence entries". -/
structure BitswapMessage where
  wantlist : Wantlist
  blocks : List Block
  blockPresences : List BlockPresence
  deriving DecidableEq

namespace BitswapMessage

/-- `BitswapMessage::default()`. -/
def default : BitswapMessage := ⟨.empty, [], []⟩

/-- A change made through `wantlist_mut()`. -/
def modifyWantlist (m : BitswapMessage) (f : Wantlist → Wantlist) : BitswapMessage :=
  { m with wantlist := f m.wantlist }

/-- `add_block`: payloads are appended. -/
def addBlock (m : BitswapMessage) (block : Block) : BitswapMessage :=
  { m with blocks := m.blocks ++ [block] }

/-- `add_block_presence`: presences are appended. -/
def addBlockPresence (m : BitswapMessage) (bp : BlockPresence) : BitswapMessage :=
  { m with blockPresences := m.blockPresences ++ [bp] }

/-- Modelled from the spec: `pop_block` takes the payloads in source
order. -/
def popBlock (m : BitswapMessage) : Option (Block × BitswapMessage) :=
  match m.blocks with
  | [] => none
  | block :: rest => some (block, { m with blocks := rest })

/-- Modelled from the spec: "a Message is empty iff payloads, presences,
and the wantlist delta are all empty". -/
def isEmpty (m : BitswapMessage) : Bool :=
  m.blocks.isEmpty && m.blockPresences.isEmpty && m.wantlist.isEmpty

/-- The message a ledger starts from: empty, with the given `full` flag
(`BitswapMessage::default()` then `set_full`, behaviour.rs:138-139 and
222-223). -/
def fresh (full : Bool) : BitswapMessage := default.modifyWantlist (·.setFull full)

end BitswapMessage

end Beetle
