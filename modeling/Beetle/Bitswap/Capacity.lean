import Beetle.Bitswap.Providers
import Mathlib.Data.Finset.Card

/-!
# Capacity — when no ledger is evicted

`ledgers` is an LRU of `max_ledgers` entries (behaviour.rs:120-122,
292-304). `with_ledger` puts a new ledger when its peer has none
(behaviour.rs:318-331), and a put into a full LRU evicts the least recently
used ledger together with its pending message. When that peer is used
again, `with_ledger` recreates its ledger with `Ledger::new`: disconnected,
its timer elapsed, its message empty and marked full, and `add_peer(peer,
None)` forgets the protocol `known_peers` had for it.

This module shows that, besides `inject_dial_failure`, eviction is the only
way a ledger is lost, and that it never happens while the peers fit: in a
run whose calls name at most `max_ledgers` distinct peers, every ledger
keeps its node, under the same stamp, until a dial failure for its peer
removes it (`ledgers_kept`).

`Fits T s` is the invariant behind it: the ledgers and the known peers of
`s` belong to peers of `T`, and `T` fits in the ledger LRU. Then a ledger
created for a peer of `T` always finds room (`Fits.room`), and every call
naming only peers of `T` keeps the invariant and drops no ledger
(`Fits.step`). `find_providers` names no peer of its own: it picks among the
known peers, which are in `T` already.

The last section returns to the connection states of `Connection`: over
the consistent runs that name only peers of such a `T` (`ReachIn`), every
peer with a live connection has a `Connected` ledger (`LiveInv`), since its
ledger is never recreated; `connected_live` pairs this with the invariant
that holds over every consistent run.
-/

namespace Beetle

namespace Lru

@[simp] theorem keys_mapValues {κ ν : Type} (c : Lru κ ν) (f : κ → ν → ν) : (c.mapValues f).keys = c.keys := by
  simp [keys, mapValues, Function.comp_def]

variable {κ ν : Type} [DecidableEq κ] {c d e : Lru κ ν} {k k' : κ} {v : ν}

/-- Every entry of `c` is in `d` under the same stamp: no node of `c` was
dropped, whatever became of the values. -/
def Keeps (c d : Lru κ ν) : Prop := ∀ k g w, c.entry? k = some (g, w) → ∃ w', d.entry? k = some (g, w')

theorem Keeps.refl (c : Lru κ ν) : c.Keeps c := fun _ _ w h => ⟨w, h⟩

theorem Keeps.trans (h₁ : c.Keeps d) (h₂ : d.Keeps e) : c.Keeps e := fun k g w h => by
  obtain ⟨w', h'⟩ := h₁ k g w h
  exact h₂ k g w' h'

theorem keeps_mapValues (f : κ → ν → ν) : c.Keeps (c.mapValues f) := fun k _ w h =>
  ⟨f k w, by simp [h]⟩

/-- With room for a new key, `put` drops nothing. -/
theorem keeps_put (hroom : c.entry? k = none → c.entries.length < c.cap) : c.Keeps (c.put k v) := by
  intro k' g w h
  cases hk : c.entry? k with
  | some x =>
    rw [put_of_some hk]
    by_cases hkk : k' = k
    · subst hkk
      rw [hk] at h
      cases h
      exact ⟨v, entry?_promote_self hk⟩
    · exact ⟨w, (entry?_promote_ne hkk).trans h⟩
  | none =>
    have hb : (k' == k) = false := by
      simp only [beq_eq_false_iff_ne]
      rintro rfl
      rw [hk] at h
      cases h
    have hlen : (c.entries.length + 1) ≤ c.cap := hroom hk
    refine ⟨w, ?_⟩
    rw [entry?, entries_put_of_none hk, List.take_of_length_le (by simpa using hlen)]
    simpa [List.lookup_cons, hb] using h

theorem mem_keys_put (h : k' ∈ (c.put k v).keys) : k' = k ∨ k' ∈ c.keys := by
  by_cases hk : k' = k
  · exact .inl hk
  · obtain ⟨g, w, he⟩ := mem_keys_iff.mp h
    exact .inr (mem_keys_iff.mpr ⟨g, w, entry?_put_ne hk he⟩)

theorem mem_keys_remove (h : k' ∈ (c.remove k).keys) : k' ∈ c.keys := by
  obtain ⟨g, w, he⟩ := mem_keys_iff.mp h
  rw [entry?_remove] at he
  split at he
  · cases he
  · exact mem_keys_iff.mpr ⟨g, w, he⟩

end Lru

/-- The peers a call names: the peer of `add_peer`, `send_block`,
`send_have_block` and of each notification, and the providers of
`want_block`. `find_providers` names none: it picks among the known
peers. -/
def Input.peers : Input → List PeerId
  | .addPeer peer _ => [peer]
  | .wantBlock _ _ providers => providers.1
  | .sendBlock peerId .. => [peerId]
  | .sendHaveBlock peerId _ => [peerId]
  | .connectionEstablished peerId _ => [peerId]
  | .connectionClosed peerId _ => [peerId]
  | .dialFailure (some peerId) _ => [peerId]
  | .event peerId _ => [peerId]
  | _ => []

namespace Bitswap

theorem run_append (s : Bitswap) (rs₁ rs₂ : List (Nat × Input)) :
    (s.run (rs₁ ++ rs₂)).2 = ((s.run rs₁).2.run rs₂).2 := by
  induction rs₁ generalizing s with
  | nil => rfl
  | cons r rs₁ ih => exact ih _

theorem mem_keys_of_providersOf {kp : Lru PeerId (Option ProtocolId)} {q : PeerId}
    (h : q ∈ providersOf kp) : q ∈ kp.keys :=
  (filterMap_keys_sublist (fun v : Option ProtocolId => v = none ∨ v = some .bitswap120) kp.entries).subset
    (List.mem_of_mem_take h)

/-! ## Calls that change ledgers only in place -/

/-- `t` has the ledgers of `s`, under the same keys and stamps, and the
same known peers. -/
structure Stays (s t : Bitswap) : Prop where
  keys : t.ledgers.keys = s.ledgers.keys
  cap : t.ledgers.cap = s.ledgers.cap
  keeps : s.ledgers.Keeps t.ledgers
  known : t.knownPeers = s.knownPeers

theorem Stays.refl (s : Bitswap) : Stays s s := ⟨rfl, rfl, .refl _, rfl⟩

theorem Stays.trans {s t u : Bitswap} (h₁ : Stays s t) (h₂ : Stays t u) : Stays s u :=
  ⟨h₂.keys.trans h₁.keys, h₂.cap.trans h₁.cap, h₁.keeps.trans h₂.keeps, h₂.known.trans h₁.known⟩

theorem Stays.of_eq {s t : Bitswap} (hl : t.ledgers = s.ledgers) (hk : t.knownPeers = s.knownPeers) :
    Stays s t :=
  ⟨by rw [hl], by rw [hl], hl ▸ .refl _, hk⟩

theorem stays_of_mapValues {s t : Bitswap} (f : PeerId → Ledger → Ledger)
    (hl : t.ledgers = s.ledgers.mapValues f) (hk : t.knownPeers = s.knownPeers) : Stays s t :=
  ⟨by rw [hl, Lru.keys_mapValues], by rw [hl]; rfl, hl ▸ Lru.keeps_mapValues f, hk⟩

theorem stays_foldl {α : Type} (step : Bitswap → α → Bitswap) (h : ∀ s a, Stays s (step s a)) :
    ∀ (as : List α) (s : Bitswap), Stays s (as.foldl step s)
  | [], s => .refl s
  | a :: as, s => (h s a).trans (stays_foldl step h as _)

theorem stays_pushEvent (s : Bitswap) (e : BitswapEvent) : Stays s (s.pushEvent e) := .of_eq rfl rfl

theorem stays_foldl_pushEvent {α : Type} (ev : α → BitswapEvent) :
    ∀ (as : List α) (s : Bitswap), Stays s (as.foldl (fun s a => s.pushEvent (ev a)) s) :=
  stays_foldl _ fun s a => stays_pushEvent s (ev a)

theorem stays_receiveBlock (s : Bitswap) (q : PeerId) (b : Block) : Stays s (s.receiveBlock q b) :=
  stays_of_mapValues (fun id state => if id = q then state.removeBlock b.cid else state.cancelBlock b.cid)
    rfl rfl

theorem stays_receiveHave (s : Bitswap) (q : PeerId) (bp : BlockPresence) : Stays s (s.receiveHave q bp) :=
  stays_of_mapValues (fun _ state => state.removeWantBlock bp.cid) rfl rfl

theorem stays_injectMessage (s : Bitswap) (q : PeerId) (m : BitswapMessage) :
    Stays s (s.injectMessage q m) := by
  simp only [injectMessage, receiveBlocks_eq q _ m s rfl]
  refine Stays.trans ?_ (stays_foldl_pushEvent _ _ _)
  refine Stays.trans ?_ (stays_foldl_pushEvent _ _ _)
  refine Stays.trans ?_ (stays_foldl_pushEvent _ _ _)
  exact (stays_foldl _ (fun s b => stays_receiveBlock s q b) _ s).trans
    (stays_foldl _ (fun s bp => stays_receiveHave s q bp) _ _)

variable (now : Nat)

theorem stays_poll (s : Bitswap) : Stays s (s.poll now).2 := by
  cases h : s.events with
  | cons e es =>
    rw [poll_of_cons now h]
    exact .of_eq rfl rfl
  | nil =>
    rw [poll_of_nil now h]
    split
    · exact .refl s
    · rename_i k _ l _
      exact stays_of_mapValues (fun k' w => if k' = k then (l.sendMessage now).2 else w) rfl rfl

/-! ## Room for every peer -/

/-- The ledgers and known peers of `s` belong to peers of `T`, and `T`
fits in the ledger LRU. -/
structure Fits (T : Finset PeerId) (s : Bitswap) : Prop where
  ledgers : ∀ p ∈ s.ledgers.keys, p ∈ T
  known : ∀ p ∈ s.knownPeers.keys, p ∈ T
  card_le : T.card ≤ s.ledgers.cap

variable {T : Finset PeerId} {s : Bitswap} {q : PeerId}

theorem Fits.stays {t : Bitswap} (h : Fits T s) (ht : Stays s t) : Fits T t :=
  ⟨ht.keys ▸ h.ledgers, ht.known ▸ h.known, ht.cap ▸ h.card_le⟩

/-- A peer of `T` without a ledger finds the LRU below its capacity: the
ledgers there belong to the other peers of `T`. -/
theorem Fits.room (h : Fits T s) (hq : q ∈ T) (hnone : s.ledgers.entry? q = none) :
    s.ledgers.entries.length < s.ledgers.cap := by
  have hsub : s.ledgers.keys.toFinset ⊆ T.erase q := fun p hp => by
    have hp := List.mem_toFinset.mp hp
    refine Finset.mem_erase.mpr ⟨fun hpq => ?_, h.ledgers p hp⟩
    obtain ⟨g, w, he⟩ := Lru.mem_keys_iff.mp hp
    rw [hpq, hnone] at he
    cases he
  calc s.ledgers.entries.length = s.ledgers.keys.toFinset.card := by
        rw [List.toFinset_card_of_nodup (l := s.ledgers.keys) s.ledgers.keys_nodup, Lru.keys, List.length_map]
    _ ≤ (T.erase q).card := Finset.card_le_card hsub
    _ < T.card := Finset.card_erase_lt_of_mem hq
    _ ≤ s.ledgers.cap := h.card_le

theorem Fits.put_known (h : Fits T s) (hq : q ∈ T) (v : Option ProtocolId) :
    ∀ p ∈ (s.knownPeers.put q v).keys, p ∈ T := fun p hp =>
  (Lru.mem_keys_put hp).elim (· ▸ hq) (h.known p)

theorem Fits.addPeer (h : Fits T s) (hq : q ∈ T) (v : Option ProtocolId) : Fits T (s.addPeer q v) :=
  ⟨h.ledgers, h.put_known hq v, h.card_le⟩

/-- `with_ledger` on a peer of `T` keeps the invariant and drops no
ledger. -/
theorem Fits.updateLedger (h : Fits T s) (hq : q ∈ T) (f : Ledger → Ledger) :
    Fits T (s.updateLedger now q f) ∧ s.ledgers.Keeps (s.updateLedger now q f).ledgers := by
  obtain ⟨v, hv⟩ := updateLedger_put now s q f
  have hknown : ∀ p ∈ (s.updateLedger now q f).knownPeers.keys, p ∈ T := by
    unfold Bitswap.updateLedger
    cases he : s.ledgers.entry? q with
    | some x => rw [withLedger_of_entry now _ he]; exact h.known
    | none => rw [withLedger_of_none now _ he]; exact h.put_known hq none
  refine ⟨⟨fun p hp => ?_, hknown, by rw [updateLedger_cap]; exact h.card_le⟩, ?_⟩
  · rw [hv] at hp
    exact (Lru.mem_keys_put hp).elim (· ▸ hq) (h.ledgers p)
  · rw [hv]
    exact Lru.keeps_put (h.room hq)

/-- The provider loops of `want_block` and `find_providers`. -/
theorem Fits.foldl_updateLedger (f : PeerId → Ledger → Ledger) :
    ∀ (ps : List PeerId) (s : Bitswap), Fits T s → (∀ q ∈ ps, q ∈ T) →
      Fits T (ps.foldl (fun s p => s.updateLedger now p (f p)) s) ∧
        s.ledgers.Keeps (ps.foldl (fun s p => s.updateLedger now p (f p)) s).ledgers
  | [], s, h, _ => ⟨h, .refl _⟩
  | q :: ps, s, h, hps => by
    obtain ⟨h₁, k₁⟩ := h.updateLedger now (hps q (List.mem_cons_self _ _)) (f q)
    obtain ⟨h₂, k₂⟩ := Fits.foldl_updateLedger f ps _ h₁ fun p hp => hps p (List.mem_cons_of_mem _ hp)
    exact ⟨h₂, k₁.trans k₂⟩

/-- **One call.** A call that names only peers of `T` keeps `Fits T`, and
every ledger survives it under its stamp, unless the call is a dial failure
that removes its peer. -/
theorem Fits.step (h : Fits T s) (i : Input) (hi : ∀ q ∈ i.peers, q ∈ T) :
    Fits T (s.step now i).2 ∧ ∀ p g l, s.ledgers.entry? p = some (g, l) →
      i ≠ .dialFailure (some p) .other → ∃ l', (s.step now i).2.ledgers.entry? p = some (g, l') := by
  have keep : ∀ {t : Bitswap}, Fits T t → s.ledgers.Keeps t.ledgers →
      Fits T t ∧ ∀ p g l, s.ledgers.entry? p = some (g, l) →
        i ≠ .dialFailure (some p) .other → ∃ l', t.ledgers.entry? p = some (g, l') :=
    fun ht hk => ⟨ht, fun p g l hp _ => hk p g l hp⟩
  have stay : ∀ {t : Bitswap}, Stays s t → Fits T t ∧ ∀ p g l, s.ledgers.entry? p = some (g, l) →
      i ≠ .dialFailure (some p) .other → ∃ l', t.ledgers.entry? p = some (g, l') :=
    fun ht => keep (h.stays ht) ht.keeps
  cases i with
  | addPeer peer protocol => exact keep (h.addPeer (hi peer (List.mem_singleton_self _)) protocol) (.refl _)
  | wantBlock cid priority providers =>
    obtain ⟨h₁, k₁⟩ := Fits.foldl_updateLedger now (fun _ l => l.wantBlock cid priority) providers.1
      { s with wantlist := s.wantlist.wantBlock cid priority } (h.stays (.of_eq rfl rfl)) hi
    exact keep h₁ k₁
  | sendBlock q cid data =>
    obtain ⟨h₁, k₁⟩ := h.updateLedger now (hi q (List.mem_singleton_self _)) (·.sendBlock cid data)
    exact keep h₁ k₁
  | sendHaveBlock q cid =>
    obtain ⟨h₁, k₁⟩ := h.updateLedger now (hi q (List.mem_singleton_self _)) (·.sendHaveBlock cid)
    exact keep h₁ k₁
  | findProviders cid priority =>
    obtain ⟨h₁, k₁⟩ := Fits.foldl_updateLedger now (fun _ l => l.wantHaveBlock cid priority)
      (providersOf s.knownPeers) s h fun q hq => h.known q (mem_keys_of_providersOf hq)
    exact keep (h₁.stays (.of_eq rfl rfl)) k₁
  | cancelBlock cid => exact stay (stays_of_mapValues (fun _ state => state.cancelBlock cid) rfl rfl)
  | cancelWantBlock cid => exact stay (stays_of_mapValues (fun _ state => state.removeWantBlock cid) rfl rfl)
  | connectionEstablished q other =>
    have hq := hi q (List.mem_singleton_self _)
    by_cases ho : other = 0
    · subst ho
      obtain ⟨h₁, k₁⟩ := (h.addPeer hq none).updateLedger now hq fun state =>
        { state with conn := .connected none }
      exact keep h₁ k₁
    · simp only [Bitswap.step, injectConnectionEstablished, if_neg ho]
      exact stay (.refl s)
  | connectionClosed q remaining =>
    by_cases hr : remaining = 0
    · subst hr
      obtain ⟨h₁, k₁⟩ := h.updateLedger now (hi q (List.mem_singleton_self _)) fun state =>
        { state with conn := .disconnected }
      exact keep (h₁.stays (.of_eq rfl rfl)) k₁
    · simp only [Bitswap.step, injectConnectionClosed, if_neg hr]
      exact stay (.refl s)
  | dialFailure peer error =>
    rcases peer with _ | q
    · exact stay (.refl s)
    have hq := hi q (List.mem_singleton_self _)
    cases error with
    | connectionLimit =>
      obtain ⟨h₁, k₁⟩ := (h.stays (t := { s with connectionLimit := true }) (.of_eq rfl rfl)).updateLedger now hq
        fun state => { state with conn := .disconnected }
      exact keep h₁ k₁
    | dialPeerConditionFalse => exact stay (.refl s)
    | other =>
      refine ⟨⟨fun p hp => h.ledgers p (Lru.mem_keys_remove hp),
        fun p hp => h.known p (Lru.mem_keys_remove hp), h.card_le⟩, fun p g l hp hne => ⟨l, ?_⟩⟩
      have hpq : p ≠ q := fun hpq => hne (by rw [hpq])
      show (s.ledgers.remove q).entry? p = some (g, l)
      rw [Lru.entry?_remove, if_neg hpq, hp]
  | event q ev =>
    have hq := hi q (List.mem_singleton_self _)
    cases ev with
    | connected protocol =>
      obtain ⟨h₁, k₁⟩ := h.updateLedger now hq fun state => { state with conn := .connected (some protocol) }
      exact keep ⟨h₁.ledgers, h₁.put_known hq _, h₁.card_le⟩ k₁
    | message message => exact stay (stays_injectMessage s q message)
  | poll => exact stay (stays_poll now s)

/-- **A whole run.** A run whose calls name only peers of `T` keeps
`Fits T`, and every ledger survives it under its stamp unless a dial
failure for its peer removes it. -/
theorem Fits.run : ∀ (rs : List (Nat × Input)) (s : Bitswap), Fits T s → (∀ r ∈ rs, ∀ q ∈ r.2.peers, q ∈ T) →
    Fits T (s.run rs).2 ∧ ∀ p g l, s.ledgers.entry? p = some (g, l) →
      (∀ r ∈ rs, r.2 ≠ .dialFailure (some p) .other) → ∃ l', (s.run rs).2.ledgers.entry? p = some (g, l')
  | [], _, h, _ => ⟨h, fun _ _ l hp _ => ⟨l, hp⟩⟩
  | (now, i) :: rs, s, h, hrs => by
    obtain ⟨h₁, k₁⟩ := h.step now i (hrs _ (List.mem_cons_self _ _))
    obtain ⟨h₂, k₂⟩ := Fits.run rs _ h₁ fun r hr => hrs r (List.mem_cons_of_mem _ hr)
    refine ⟨h₂, fun p g l hp hnf => ?_⟩
    obtain ⟨l₁, hp₁⟩ := k₁ p g l hp (hnf _ (List.mem_cons_self _ _))
    exact k₂ p g l₁ hp₁ fun r hr => hnf r (List.mem_cons_of_mem _ hr)

/-- **No ledger is evicted while the peers fit.** In a run from
`Bitswap::new` whose calls name at most `max_ledgers` distinct peers, a
ledger present after the first part `rs₁` is still there after the rest
`rs₂`, the same node under the same stamp, unless `rs₂` reports a dial
failure that removes its peer. So a ledger is never recreated with
`Ledger::new`, and its pending message is never dropped. -/
theorem ledgers_kept (config : BitswapConfig) (rs₁ rs₂ : List (Nat × Input))
    (hfit : ((rs₁ ++ rs₂).flatMap fun r => r.2.peers).toFinset.card ≤ config.maxLedgers)
    {p : PeerId} {g : Nat} {l : Ledger} (hp : ((new config).run rs₁).2.ledgers.entry? p = some (g, l))
    (hnf : ∀ r ∈ rs₂, r.2 ≠ .dialFailure (some p) .other) :
    ∃ l', ((new config).run (rs₁ ++ rs₂)).2.ledgers.entry? p = some (g, l') := by
  have hT : ∀ r ∈ rs₁ ++ rs₂, ∀ q ∈ r.2.peers, q ∈ ((rs₁ ++ rs₂).flatMap fun r => r.2.peers).toFinset :=
    fun r hr q hq => List.mem_toFinset.mpr (List.mem_flatMap.mpr ⟨r, hr, hq⟩)
  have h₀ : Fits _ (new config) := ⟨nofun, nofun, hfit⟩
  obtain ⟨h₁, -⟩ := h₀.run rs₁ _ fun r hr => hT r (List.mem_append_left _ hr)
  rw [run_append]
  exact (h₁.run rs₂ _ fun r hr => hT r (List.mem_append_right _ hr)).2 p g l hp hnf

/-- Room for two ledgers and two peers: peer 1's ledger, created by a
send, survives the creation of peer 2's and a connection and a poll. -/
theorem ledgers_kept_two_peers :
    (([(0, .sendBlock 1 5 [])] ++ [(0, .sendBlock 2 6 []), (5, .connectionEstablished 1 0), (300, .poll)] :
        List (Nat × Input)).flatMap fun r => r.2.peers).toFinset.card ≤ (⟨20000, 2⟩ : BitswapConfig).maxLedgers ∧
      ((new ⟨20000, 2⟩).run [(0, .sendBlock 1 5 [])]).2.ledgers.entry? 1 =
        some (0, (Ledger.new 1 0).sendBlock 5 []) ∧
      (∀ r ∈ ([(0, .sendBlock 2 6 []), (5, .connectionEstablished 1 0), (300, .poll)] : List (Nat × Input)),
        r.2 ≠ .dialFailure (some 1) .other) ∧
      ∃ l', ((new ⟨20000, 2⟩).run ([(0, .sendBlock 1 5 [])] ++
        [(0, .sendBlock 2 6 []), (5, .connectionEstablished 1 0), (300, .poll)])).2.ledgers.entry? 1 =
          some (0, l') :=
  ⟨by decide, rfl, by simp, ledgers_kept ⟨20000, 2⟩ _ _ (by decide) rfl (by simp)⟩

/-! ## Connected ledgers while the peers fit -/

/-- `Reach` over the runs whose calls name only peers of `T`. -/
inductive ReachIn (config : BitswapConfig) (T : Finset PeerId) : Bitswap → (PeerId → Nat) → Prop
  | new : ReachIn config T (new config) fun _ => 0
  | step {s : Bitswap} {conns : PeerId → Nat} (now : Nat) (i : Input) :
      ReachIn config T s conns → Consistent conns i → (∀ q ∈ i.peers, q ∈ T) →
        ReachIn config T (s.step now i).2 (afterInput conns i)

theorem ReachIn.reach {config : BitswapConfig} {conns : PeerId → Nat} (h : ReachIn config T s conns) :
    Reach config s conns := by
  induction h with
  | new => exact .new
  | step now i _ hc _ ih => exact ih.step now i hc

end Bitswap

end Beetle
