import Beetle.Bitswap.Behaviour

/-!
# Frame — what one call does to every ledger

Every call other than `poll` touches ledgers in one of three ways: it
updates a ledger in place (same node, so same stamp), it creates a ledger
(a new stamp), or it drops one (eviction, removal). `LedgerEffect` says
this once: a ledger after the call either is an old one, same stamp,
transformed by `F`, or is new, with a stamp not allocated before, for a
peer in `C`, and equals `F` applied to `Ledger::new`.

`step_effect` proves this for every input with the per-input
description `effect`; the invariants of the later modules are then case
analyses on `effect`, with no unfolding of the engine.
-/

namespace Beetle

/-- How the ledgers `t` arise from `s` (see the module doc). -/
structure LedgerEffect (now : Nat) (F : PeerId → Ledger → Ledger) (C : PeerId → Prop)
    (s t : Lru PeerId Ledger) : Prop where
  next_le : s.next ≤ t.next
  entry : ∀ {p g l}, t.entry? p = some (g, l) →
    (∃ l₀, s.entry? p = some (g, l₀) ∧ l = F p l₀) ∨
      (s.next ≤ g ∧ C p ∧ l = F p (Ledger.new p now))

namespace LedgerEffect

variable {now : Nat} {F F₁ F₂ : PeerId → Ledger → Ledger} {C C₁ C₂ : PeerId → Prop}
  {s t u : Lru PeerId Ledger}

theorem refl (s : Lru PeerId Ledger) : LedgerEffect now (fun _ l => l) (fun _ => False) s s :=
  ⟨le_refl _, fun h => .inl ⟨_, h, rfl⟩⟩

/-- Two calls in a row; the second creates only ledgers the first leaves
alone. -/
theorem trans (h₁ : LedgerEffect now F₁ C₁ s t) (h₂ : LedgerEffect now F₂ C₂ t u)
    (hC : ∀ p, C₂ p → ∀ l, F₁ p l = l) :
    LedgerEffect now (fun p l => F₂ p (F₁ p l)) (fun p => C₁ p ∨ C₂ p) s u := by
  refine ⟨h₁.next_le.trans h₂.next_le, fun {p g l} hu => ?_⟩
  rcases h₂.entry hu with ⟨l₁, ht, rfl⟩ | ⟨hg, hc, rfl⟩
  · rcases h₁.entry ht with ⟨l₀, hs, rfl⟩ | ⟨hg, hc, rfl⟩
    · exact .inl ⟨l₀, hs, rfl⟩
    · exact .inr ⟨hg, .inl hc, rfl⟩
  · exact .inr ⟨h₁.next_le.trans hg, .inr hc, by rw [hC p hc]⟩

theorem congr (h : LedgerEffect now F C s t) {F' : PeerId → Ledger → Ledger} {C' : PeerId → Prop}
    (hF : ∀ p l, F p l = F' p l) (hC : ∀ p, C p → C' p) : LedgerEffect now F' C' s t :=
  ⟨h.next_le, fun hu => (h.entry hu).imp (fun ⟨l₀, hs, he⟩ => ⟨l₀, hs, he.trans (hF _ _)⟩)
    (fun ⟨hg, hc, he⟩ => ⟨hg, hC _ hc, he.trans (hF _ _)⟩)⟩

/-- A call that creates nothing only needs its description to agree on
the ledgers that were there. -/
theorem congr_old (h : LedgerEffect now F (fun _ => False) s t) {F' : PeerId → Ledger → Ledger}
    (hF : ∀ p g l, s.entry? p = some (g, l) → F p l = F' p l) :
    LedgerEffect now F' (fun _ => False) s t :=
  ⟨h.next_le, fun hu => (h.entry hu).imp (fun ⟨l₀, hs, he⟩ => ⟨l₀, hs, he.trans (hF _ _ _ hs)⟩)
    (fun ⟨_, hc, _⟩ => hc.elim)⟩

theorem of_mapValues (f : PeerId → Ledger → Ledger) :
    LedgerEffect now f (fun _ => False) s (s.mapValues f) := by
  refine ⟨le_refl _, fun {p g l} h => .inl ?_⟩
  simp only [Lru.entry?_mapValues, Option.map_eq_some'] at h
  obtain ⟨⟨g', l₀⟩, h0, he⟩ := h
  simp only [Prod.mk.injEq] at he
  obtain ⟨rfl, rfl⟩ := he
  exact ⟨l₀, h0, rfl⟩

theorem of_remove (k : PeerId) : LedgerEffect now (fun _ l => l) (fun _ => False) s (s.remove k) := by
  refine ⟨le_refl _, fun {p g l} h => .inl ⟨l, ?_, rfl⟩⟩
  rw [Lru.entry?_remove] at h
  split at h
  · cases h
  · exact h

end LedgerEffect

namespace Bitswap

variable (now : Nat) {s : Bitswap}

theorem withLedger_of_entry {α : Type} {q : PeerId} {g : Nat} {l : Ledger} (f : Ledger → α × Ledger)
    (h : s.ledgers.entry? q = some (g, l)) :
    s.withLedger now q f = ((f l).1, { s with ledgers := s.ledgers.promote q (f l).2 }) := by
  have : s.ledgers.get? q = some l := Lru.get?_eq_some_iff.mpr ⟨g, h⟩
  simp [withLedger, this]

theorem withLedger_of_none {α : Type} {q : PeerId} (f : Ledger → α × Ledger)
    (h : s.ledgers.entry? q = none) :
    s.withLedger now q f = ((f (Ledger.new q now)).1,
      ({ s with ledgers := s.ledgers.put q (f (Ledger.new q now)).2 }).addPeer q none) := by
  have : s.ledgers.get? q = none := Lru.get?_eq_none_iff.mpr h
  simp [withLedger, this]

theorem updateLedger_effect (s : Bitswap) (q : PeerId) (f : Ledger → Ledger) :
    LedgerEffect now (fun p l => if p = q then f l else l) (· = q) s.ledgers
      (s.updateLedger now q f).ledgers := by
  unfold updateLedger
  cases h : s.ledgers.entry? q with
  | some x =>
    obtain ⟨g₀, l₀⟩ := x
    rw [withLedger_of_entry now _ h]
    refine ⟨by simp, fun {p g l} hp => .inl ?_⟩
    by_cases hpq : p = q
    · subst hpq
      rw [Lru.entry?_promote_self h] at hp
      cases hp
      exact ⟨l₀, h, by simp⟩
    · rw [Lru.entry?_promote_ne hpq] at hp
      exact ⟨l, hp, by simp [hpq]⟩
  | none =>
    rw [withLedger_of_none now _ h]
    refine ⟨Lru.next_le_put, fun {p g l} hp => ?_⟩
    simp only [addPeer_ledgers] at hp
    by_cases hpq : p = q
    · subst hpq
      refine .inr ⟨(Lru.entry?_put_of_none h hp).ge, rfl, ?_⟩
      simp [Lru.entry?_put_self_value hp]
    · exact .inl ⟨l, Lru.entry?_put_ne hpq hp, by simp [hpq]⟩

/-- The `for provider in providers` loops of `want_block` and
`find_providers`: each listed peer's ledger is updated once. -/
theorem foldl_updateLedger_effect (f : PeerId → Ledger → Ledger) :
    ∀ (ps : List PeerId) (s : Bitswap), ps.Nodup →
    LedgerEffect now (fun p l => if p ∈ ps then f p l else l) (· ∈ ps) s.ledgers
      (ps.foldl (fun s p => s.updateLedger now p (f p)) s).ledgers
  | [], s, _ => (LedgerEffect.refl s.ledgers).congr (by simp) (by simp)
  | q :: ps, s, hps => by
    obtain ⟨hq, hps⟩ := List.nodup_cons.mp hps
    refine ((updateLedger_effect now s q (f q)).trans (foldl_updateLedger_effect f ps _ hps) ?_).congr
      ?_ ?_
    · intro p hp l
      simp [show p ≠ q from fun h => hq (h ▸ hp)]
    · intro p l
      by_cases hpq : p = q
      · subst hpq; simp [hq]
      · simp [hpq]
    · intro p h
      rcases h with rfl | h <;> simp_all

theorem foldl_effect {α : Type} (step : Bitswap → α → Bitswap) (F : α → PeerId → Ledger → Ledger)
    (h : ∀ s a, LedgerEffect now (F a) (fun _ => False) s.ledgers (step s a).ledgers) :
    ∀ (as : List α) (s : Bitswap),
    LedgerEffect now (fun p l => as.foldl (fun l a => F a p l) l) (fun _ => False) s.ledgers
      (as.foldl step s).ledgers
  | [], s => LedgerEffect.refl s.ledgers
  | a :: as, s => ((h s a).trans (foldl_effect step F h as _) (by simp)).congr (by simp) (by simp)

theorem foldl_pushEvent_ledgers {α : Type} (ev : α → BitswapEvent) :
    ∀ (as : List α) (s : Bitswap), (as.foldl (fun s a => s.pushEvent (ev a)) s).ledgers = s.ledgers
  | [], _ => rfl
  | a :: as, s => foldl_pushEvent_ledgers ev as (s.pushEvent (ev a))

theorem receiveBlocks_eq (peer : PeerId) :
    ∀ (bs : List Block) (m : BitswapMessage) (s : Bitswap), m.blocks = bs →
    s.receiveBlocks peer bs.length m = bs.foldl (fun s b => s.receiveBlock peer b) s
  | [], _, _, _ => rfl
  | b :: bs, m, s, hm => by
    have : m.popBlock = some (b, { m with blocks := bs }) := by simp [BitswapMessage.popBlock, hm]
    simp only [List.length_cons, receiveBlocks, this, List.foldl_cons]
    exact receiveBlocks_eq peer bs _ _ rfl

/-- What an inbound `message` from `sender` does to the ledger of `p`:
per block `remove_block` if `p` sent it and `cancel_block` otherwise, then
`remove_want_block` per `Have` presence. -/
def inboundEffect (sender : PeerId) (message : BitswapMessage) (p : PeerId) (l : Ledger) : Ledger :=
  (message.blockPresences.filter (·.isHave)).foldl (fun l bp => l.removeWantBlock bp.cid)
    (message.blocks.foldl
      (fun l block => if p = sender then l.removeBlock block.cid else l.cancelBlock block.cid) l)

/-- The same, on the pending message alone. -/
def inboundMsg (sender : PeerId) (message : BitswapMessage) (p : PeerId) (m : BitswapMessage) :
    BitswapMessage :=
  (message.blockPresences.filter (·.isHave)).foldl
    (fun m bp => m.modifyWantlist (·.removeWantBlock bp.cid))
    (message.blocks.foldl (fun m block => m.modifyWantlist fun w =>
      if p = sender then w.removeBlock block.cid else w.cancelBlock block.cid) m)

theorem inboundEffect_eq (sender : PeerId) (message : BitswapMessage) (p : PeerId) (l : Ledger) :
    inboundEffect sender message p l = l.modifyMsg (inboundMsg sender message p) := by
  have hb : (fun (l : Ledger) (block : Block) =>
      if p = sender then l.removeBlock block.cid else l.cancelBlock block.cid) =
      fun l block => l.modifyMsg fun m => m.modifyWantlist fun w =>
        if p = sender then w.removeBlock block.cid else w.cancelBlock block.cid := by
    funext l block
    split <;> rfl
  rw [inboundEffect, hb, Ledger.foldl_modifyMsg]
  exact Ledger.foldl_modifyMsg
    (fun (bp : BlockPresence) m => m.modifyWantlist (·.removeWantBlock bp.cid)) _ _

theorem injectMessage_effect (sender : PeerId) (message : BitswapMessage) :
    LedgerEffect now (inboundEffect sender message) (fun _ => False) s.ledgers
      (s.injectMessage sender message).ledgers := by
  unfold injectMessage
  simp only [foldl_pushEvent_ledgers, receiveBlocks_eq sender _ message s rfl]
  refine ((foldl_effect now _ (fun (b : Block) (p : PeerId) (l : Ledger) =>
      if p = sender then l.removeBlock b.cid else l.cancelBlock b.cid)
    (fun _ _ => LedgerEffect.of_mapValues _) message.blocks s).trans
    (foldl_effect now _ (fun (bp : BlockPresence) (_ : PeerId) (l : Ledger) => l.removeWantBlock bp.cid)
      (fun _ _ => LedgerEffect.of_mapValues _) _ _) (by simp)).congr (fun _ _ => rfl) (by simp)

/-- The key of the ledger `poll` sends for, if it sends: with an empty
queue, the first ready ledger. -/
def pollKey (s : Bitswap) : Option PeerId :=
  match s.events with
  | _ :: _ => none
  | [] => (s.ledgers.entries.find? (fun e => e.2.2.ready now)).map (·.1)

/-- What a call does to the ledger of `p`. -/
def effect (s : Bitswap) : Input → PeerId → Ledger → Ledger
  | .addPeer .., _, l => l
  | .wantBlock cid priority providers, p, l => if p ∈ providers.1 then l.wantBlock cid priority else l
  | .sendBlock q cid data, p, l => if p = q then l.sendBlock cid data else l
  | .sendHaveBlock q cid, p, l => if p = q then l.sendHaveBlock cid else l
  | .findProviders cid priority, p, l =>
    if p ∈ providersOf s.knownPeers then l.wantHaveBlock cid priority else l
  | .cancelBlock cid, _, l => l.cancelBlock cid
  | .cancelWantBlock cid, _, l => l.removeWantBlock cid
  | .connectionEstablished q other, p, l =>
    if other = 0 ∧ p = q then { l with conn := .connected none } else l
  | .connectionClosed q remaining, p, l =>
    if remaining = 0 ∧ p = q then { l with conn := .disconnected } else l
  | .dialFailure (some q) .connectionLimit, p, l => if p = q then { l with conn := .disconnected } else l
  | .dialFailure _ _, _, l => l
  | .event q (.connected protocol), p, l =>
    if p = q then { l with conn := .connected (some protocol) } else l
  | .event q (.message message), p, l => inboundEffect q message p l
  | .poll, p, l => if s.pollKey now = some p then (l.sendMessage now).2 else l

/-- No call changes the peer a ledger belongs to. -/
@[simp] theorem effect_peerId (s : Bitswap) (i : Input) (p : PeerId) (l : Ledger) :
    (s.effect now i p l).peerId = l.peerId := by
  cases i with
  | dialFailure peer error =>
    rcases peer with _ | q <;> cases error <;> first | rfl | (simp only [effect]; split <;> rfl)
  | event q ev =>
    cases ev with
    | connected => simp only [effect]; split <;> rfl
    | message => simp [effect, inboundEffect_eq]
  | _ => first | rfl | (simp only [effect]; split <;> rfl)

/-- The peers whose ledger a call may create. -/
def creates (s : Bitswap) : Input → PeerId → Prop
  | .wantBlock _ _ providers, p => p ∈ providers.1
  | .sendBlock q .., p => p = q
  | .sendHaveBlock q _, p => p = q
  | .findProviders .., p => p ∈ providersOf s.knownPeers
  | .connectionEstablished q other, p => other = 0 ∧ p = q
  | .connectionClosed q remaining, p => remaining = 0 ∧ p = q
  | .dialFailure (some q) .connectionLimit, p => p = q
  | .event q (.connected _), p => p = q
  | _, _ => False

theorem filterMap_keys_sublist {β : Type} (cond : β → Prop) [DecidablePred cond] :
    ∀ (l : List (PeerId × Nat × β)),
    (l.filterMap fun e => if cond e.2.2 then some e.1 else none).Sublist (l.map (·.1))
  | [] => List.Sublist.slnil
  | e :: l => by
    by_cases hc : cond e.2.2
    · simpa [hc] using (filterMap_keys_sublist cond l).cons₂ e.1
    · simpa [hc] using (filterMap_keys_sublist cond l).cons e.1

theorem providersOf_nodup (kp : Lru PeerId (Option ProtocolId)) : (providersOf kp).Nodup :=
  (kp.keys_nodup.sublist (filterMap_keys_sublist (fun v => v = none ∨ v = some .bitswap120)
    kp.entries)).sublist (List.take_sublist _ _)

/-! ## `poll` -/

/-- The ledger loop of `poll` sends for the first ready ledger, in
iteration order, and changes nothing else; with no ready ledger it
returns nothing. -/
theorem pollLedgers_eq : ∀ (es : List (PeerId × Nat × Ledger)) (s : Bitswap),
    pollLedgers now es s =
      match es.find? (fun e => e.2.2.ready now) with
      | none => (none, s)
      | some (k, _, l) =>
        (some (.notifyHandler l.peerId l.msg), { s with ledgers := s.ledgers.set k (l.sendMessage now).2 })
  | [], _ => rfl
  | (k, g, l) :: es, s => by
    simp only [pollLedgers, Ledger.poll_eq, List.find?_cons]
    cases l.ready now
    · exact pollLedgers_eq es s
    · rfl

/-- `poll` with a queued event returns the oldest one. -/
theorem poll_of_cons {e : Action} {es : List Action} (h : s.events = e :: es) :
    s.poll now = (some e, { s with events := es }) := by
  simp [poll, h]

/-- `poll` with no queued event sends the first ready ledger's message. -/
theorem poll_of_nil (h : s.events = []) :
    s.poll now =
      match s.ledgers.entries.find? (fun e => e.2.2.ready now) with
      | none => (none, s)
      | some (k, _, l) =>
        (some (.notifyHandler l.peerId l.msg), { s with ledgers := s.ledgers.set k (l.sendMessage now).2 }) := by
  unfold poll
  split
  · simp_all
  · exact pollLedgers_eq now _ s

theorem poll_effect (s : Bitswap) :
    LedgerEffect now (fun p l => if s.pollKey now = some p then (l.sendMessage now).2 else l)
      (fun _ => False) s.ledgers (s.poll now).2.ledgers := by
  cases h : s.events with
  | cons e es =>
    rw [poll_of_cons now h]
    exact (LedgerEffect.refl _).congr (by simp [pollKey, h]) (fun _ h => h)
  | nil =>
    rw [poll_of_nil now h]
    cases hf : s.ledgers.entries.find? (fun e => e.2.2.ready now) with
    | none => exact (LedgerEffect.refl _).congr (by simp [pollKey, h, hf]) (fun _ h => h)
    | some e =>
      obtain ⟨k, g, l⟩ := e
      have hk : s.ledgers.entry? k = some (g, l) :=
        Lru.entry?_eq_some_iff.mpr (List.mem_of_find?_eq_some hf)
      show LedgerEffect now _ _ s.ledgers
        (s.ledgers.mapValues fun k' w => if k' = k then (l.sendMessage now).2 else w)
      refine (LedgerEffect.of_mapValues _).congr_old fun p g' l' hp => ?_
      by_cases hpk : p = k
      · subst hpk
        rw [hk] at hp
        cases hp
        simp [pollKey, h, hf]
      · simp [pollKey, h, hf, hpk, Ne.symm hpk]

/-- **Every call** updates, creates and drops ledgers as `effect` and
`creates` say. -/
theorem step_effect (s : Bitswap) (i : Input) :
    LedgerEffect now (s.effect now i) (s.creates i) s.ledgers (s.step now i).2.ledgers := by
  cases i with
  | addPeer => exact (LedgerEffect.refl _).congr (fun _ _ => rfl) (by simp)
  | wantBlock cid priority providers =>
    exact (foldl_updateLedger_effect now (fun _ l => l.wantBlock cid priority) providers.1
      { s with wantlist := s.wantlist.wantBlock cid priority } providers.2).congr
      (fun _ _ => rfl) (fun _ h => h)
  | sendBlock q cid data =>
    exact (updateLedger_effect now s q (·.sendBlock cid data)).congr (fun _ _ => rfl) (fun _ h => h)
  | sendHaveBlock q cid =>
    exact (updateLedger_effect now s q (·.sendHaveBlock cid)).congr (fun _ _ => rfl) (fun _ h => h)
  | findProviders cid priority =>
    exact (foldl_updateLedger_effect now (fun _ l => l.wantHaveBlock cid priority) _ s
      (providersOf_nodup _)).congr (fun _ _ => rfl) (fun _ h => h)
  | cancelBlock cid => exact LedgerEffect.of_mapValues _
  | cancelWantBlock cid => exact LedgerEffect.of_mapValues _
  | connectionEstablished q other =>
    by_cases h : other = 0
    · subst h
      exact (updateLedger_effect now (s.addPeer q none) q _).congr
        (fun _ _ => by simp [effect]) (fun _ hp => by simp [creates, hp])
    · simp only [step, injectConnectionEstablished, if_neg h]
      exact (LedgerEffect.refl _).congr (fun _ _ => by simp [effect, h]) (fun _ hp => hp.elim)
  | connectionClosed q remaining =>
    by_cases h : remaining = 0
    · subst h
      exact (updateLedger_effect now s q _).congr
        (fun _ _ => by simp [effect]) (fun _ hp => by simp [creates, hp])
    · simp only [step, injectConnectionClosed, if_neg h]
      exact (LedgerEffect.refl _).congr (fun _ _ => by simp [effect, h]) (fun _ hp => hp.elim)
  | dialFailure peer error =>
    cases peer with
    | none => exact (LedgerEffect.refl _).congr (fun _ _ => rfl) (by simp)
    | some q =>
      cases error with
      | connectionLimit =>
        exact (updateLedger_effect now { s with connectionLimit := true } q _).congr
          (fun _ _ => rfl) (fun _ h => h)
      | dialPeerConditionFalse => exact (LedgerEffect.refl _).congr (fun _ _ => rfl) (by simp)
      | other => exact (LedgerEffect.of_remove q).congr (fun _ _ => rfl) (by simp)
  | event q ev =>
    cases ev with
    | connected protocol =>
      exact (updateLedger_effect now s q _).congr (fun _ _ => rfl) (fun _ h => h)
    | message message => exact injectMessage_effect now q message
  | poll => exact poll_effect now s

/-- Every ledger is stored under its own peer. -/
def Keyed (s : Bitswap) : Prop := ∀ p g l, s.ledgers.entry? p = some (g, l) → l.peerId = p

theorem keyed_new (config : BitswapConfig) : Keyed (new config) := fun _ _ _ h => by
  simp [new, Lru.entry?_new] at h

theorem keyed_step (s : Bitswap) (i : Input) (h : Keyed s) : Keyed (s.step now i).2 := by
  intro p g l hp
  rcases (step_effect now s i).entry hp with ⟨l₀, h₀, rfl⟩ | ⟨-, -, rfl⟩
  · simp [h p g l₀ h₀]
  · simp [Ledger.new]

end Bitswap

end Beetle
