import Beetle.Bitswap.Connection

/-!
# Providers — whom `find_providers` asks

`find_providers` selects the known peers whose protocol is unknown or
1.2.0, in `known_peers` order, and queues a Want-Have in each one's ledger
through `with_ledger` (behaviour.rs:318-331, 369-396). Two consequences of
`with_ledger`:

* the loop creates a ledger for every selected peer without one, and the
  ledger LRU keeps only the `max_ledgers` most recently used: the last
  `max_ledgers` peers of the selection keep their wants
  (`findProviders_wants`), earlier ones can be evicted by the same call
  (`findProviders_wants_fails`);
* creating a ledger calls `add_peer(peer, None)`, which overwrites the
  protocol `known_peers` recorded for the peer
  (`updateLedger_forgets_protocol`), so a 1.0.0 peer whose ledger was
  evicted and recreated is asked for a Want-Have (`wantHave_to_bitswap100`).
-/

namespace Beetle

namespace Bitswap

variable (now : Nat) {s : Bitswap}

theorem updateLedger_put (s : Bitswap) (q : PeerId) (f : Ledger → Ledger) :
    ∃ v, (s.updateLedger now q f).ledgers = s.ledgers.put q v := by
  unfold updateLedger
  cases h : s.ledgers.entry? q with
  | some x => exact ⟨_, by rw [withLedger_of_entry now _ h, Lru.put_of_some h]⟩
  | none => exact ⟨_, by rw [withLedger_of_none now _ h]; rfl⟩

@[simp] theorem updateLedger_cap (q : PeerId) (f : Ledger → Ledger) :
    (s.updateLedger now q f).ledgers.cap = s.ledgers.cap := by
  obtain ⟨v, hv⟩ := updateLedger_put now s q f
  rw [hv, Lru.cap_put]

theorem take_cons_take {α : Type} (x : α) (l : List α) (n : Nat) :
    (x :: l.take n).take n = (x :: l).take n := by
  cases n <;> simp [List.take_take]

/-- After the `for provider in providers` loop, the providers processed
last are the most recently used ledgers, in reverse order, up to the
capacity; `l` is what stood at the front before. -/
theorem foldl_updateLedger_keys (f : PeerId → Ledger → Ledger) :
    ∀ (ps : List PeerId) (s : Bitswap) (l : List PeerId), ps.Nodup → (∀ q ∈ ps, q ∉ l) →
    l.take s.ledgers.cap <+: s.ledgers.keys →
    (ps.reverse ++ l).take s.ledgers.cap <+: (ps.foldl (fun s p => s.updateLedger now p (f p)) s).ledgers.keys
  | [], _, _, _, _, hl => by simpa using hl
  | q :: ps, s, l, hps, hq, hl => by
    obtain ⟨hq', hps⟩ := List.nodup_cons.mp hps
    obtain ⟨v, hv⟩ := updateLedger_put now s q (f q)
    have hnot : q ∉ l.take s.ledgers.cap := fun h => hq q (List.mem_cons_self _ _) (List.mem_of_mem_take h)
    have h₁ : (q :: l).take (s.updateLedger now q (f q)).ledgers.cap <+:
        (s.updateLedger now q (f q)).ledgers.keys := by
      rw [updateLedger_cap, ← take_cons_take, hv]
      exact Lru.keys_put_prefix hl hnot
    have h₂ := foldl_updateLedger_keys f ps _ (q :: l) hps
      (fun r hr hrl => (List.mem_cons.mp hrl).elim (fun h => hq' (h ▸ hr))
        (hq r (List.mem_cons_of_mem _ hr))) h₁
    simpa using h₂

theorem wantHaveBlock_kind (l : Ledger) (cid : Cid) (priority : Priority) :
    (l.wantHaveBlock cid priority).msg.wantlist.kind? cid ≠ none := by
  simp only [Ledger.wantHaveBlock, Ledger.modifyMsg_msg, BitswapMessage.modifyWantlist,
    Wantlist.kind?_wantHaveBlock, true_and]
  split <;> simp_all

/-- **The last `max_ledgers` selected peers keep their wants.** After
`find_providers`, each of the last `max_ledgers` peers it selected has a
ledger whose pending message wants `cid`. -/
theorem findProviders_wants (s : Bitswap) (cid : Cid) (priority : Priority) :
    ∀ p ∈ (providersOf s.knownPeers).reverse.take s.ledgers.cap,
      ∃ g l, (s.findProviders now cid priority).ledgers.entry? p = some (g, l) ∧
        l.msg.wantlist.kind? cid ≠ none := by
  intro p hp
  have hk := foldl_updateLedger_keys now (fun _ l => l.wantHaveBlock cid priority)
    (providersOf s.knownPeers) s [] (providersOf_nodup _) (fun _ _ h => nomatch h) (by simp)
  rw [List.append_nil] at hk
  obtain ⟨g, l, hl⟩ := Lru.mem_keys_iff.mp (hk.mem hp)
  have hsel : p ∈ providersOf s.knownPeers := List.mem_reverse.mp (List.mem_of_mem_take hp)
  refine ⟨g, l, hl, ?_⟩
  rcases (foldl_updateLedger_effect now (fun _ l => l.wantHaveBlock cid priority) _ s
    (providersOf_nodup _)).entry hl with ⟨l₀, -, rfl⟩ | ⟨-, -, rfl⟩ <;>
    simpa only [hsel, if_true] using wantHaveBlock_kind _ cid priority

/-- With room for one ledger and two known peers, 2 and 1 in selection
order: peer 1, selected last, keeps its Want-Have. -/
theorem findProviders_wants_of_two :
    1 ∈ (providersOf ((new ⟨20000, 1⟩).run [(0, .addPeer 1 none), (0, .addPeer 2 none)]).2.knownPeers).reverse.take
        ((new ⟨20000, 1⟩).run [(0, .addPeer 1 none), (0, .addPeer 2 none)]).2.ledgers.cap ∧
    ∃ g l, (((new ⟨20000, 1⟩).run [(0, .addPeer 1 none), (0, .addPeer 2 none)]).2.findProviders 0 5 0).ledgers.entry? 1 =
      some (g, l) ∧ l.msg.wantlist.kind? 5 ≠ none :=
  have h : 1 ∈ (providersOf ((new ⟨20000, 1⟩).run [(0, .addPeer 1 none), (0, .addPeer 2 none)]).2.knownPeers).reverse.take
      ((new ⟨20000, 1⟩).run [(0, .addPeer 1 none), (0, .addPeer 2 none)]).2.ledgers.cap := by decide
  ⟨h, findProviders_wants 0 _ 5 0 1 h⟩

/-- With room for one ledger and two known peers of unknown protocol:
`find_providers` selects both, and the second ledger it creates evicts the
first. -/
theorem findProviders_wants_fails :
    ¬ ∀ (config : BitswapConfig) (rs : List (Nat × Input)) (now : Nat) (cid : Cid) (priority : Priority),
      ∀ p ∈ providersOf ((new config).run rs).2.knownPeers,
        ∃ g l, (((new config).run rs).2.findProviders now cid priority).ledgers.entry? p = some (g, l) ∧
          l.msg.wantlist.kind? cid ≠ none := by
  intro h
  obtain ⟨g, l, hl, -⟩ := h ⟨20000, 1⟩ [(0, .addPeer 1 none), (0, .addPeer 2 none)] 0 5 0 2 (by decide)
  have := congrArg Option.isSome hl
  rw [Option.isSome_some] at this
  revert this
  decide

/-! ## The recorded protocol -/

/-- Creating a ledger records its peer in `known_peers` as of unknown
protocol, whatever was recorded before. -/
theorem updateLedger_forgets_protocol (q : PeerId) (f : Ledger → Ledger)
    (hq : s.ledgers.entry? q = none) (hc : 0 < s.knownPeers.cap) :
    (s.updateLedger now q f).knownPeers.get? q = some none := by
  obtain ⟨g, hg⟩ := Lru.entry?_put_self (k := q) (v := none) hc
  rw [updateLedger, withLedger_of_none now _ hq]
  exact Lru.get?_eq_some_iff.mpr ⟨g, hg⟩

/-- With room for one ledger: peer 1 connects speaking 1.0.0, peer 2
connects (evicting 1's ledger) and a block is sent to peer 1, which
recreates its ledger. `known_peers` now records peer 1 as of unknown
protocol, and `find_providers` queues a Want-Have for it. -/
theorem wantHave_to_bitswap100 :
    ((new ⟨20000, 1⟩).run [(0, .connectionEstablished 1 0), (0, .event 1 (.connected .bitswap100)),
      (0, .connectionEstablished 2 0), (0, .event 2 (.connected .bitswap110)),
      (0, .sendBlock 1 7 [1])]).2.knownPeers.get? 1 = some none ∧
    (((new ⟨20000, 1⟩).run [(0, .connectionEstablished 1 0), (0, .event 1 (.connected .bitswap100)),
      (0, .connectionEstablished 2 0), (0, .event 2 (.connected .bitswap110)),
      (0, .sendBlock 1 7 [1]), (0, .findProviders 5 0)]).2.ledgers.get? 1).map
        (fun l => l.msg.wantlist.kind? 5) = some (some .have) := by
  decide

end Bitswap

end Beetle
