import Beetle.Bitswap.Events

/-!
# Connection — ledgers against the transport

The engine learns about connections only from the swarm's notifications
(behaviour.rs:463-537). `conns : PeerId → Nat` is the transport's side, the
number of live connections to each peer, and `Consistent` says when a
notification tells the truth about it: `inject_connection_established` and
`inject_connection_closed` report the true number of other or remaining
connections, `HandlerEvent::Connected` comes over a live connection, and a
dial failure only for a peer with none. `Reach` is the set of states the
engine and the transport reach together from `Bitswap::new` under such
notifications, with any calls of the embedder between them.

What holds over `Reach`:

* `connInv_step`, `Reach.connInv`: a ledger marked `Connected` belongs to
  a peer with a live connection, so `poll` sends only to such peers and
  dials none of them (`connected_live`, in `Capacity`, where the converse
  is proved for the runs that leave the ledger LRU room for every peer).
* `connected_iff_live_fails`: the converse does not hold in general.
  `with_ledger` recreates an evicted ledger with `Ledger::new`,
  `Disconnected`, while the peer's connection stays up.

Over every run from `Bitswap::new`, whatever the notifications,
`run_never_dials`: no ledger is ever `Dialing` and no `Dial` is ever
returned. Only `Ledger::poll` calls `dial`, and only for a `Dialing` ledger,
while nothing in the engine sets that state.

`referencePoll` is the selector of the specification (§4.6), with its
dial-on-demand branch; `poll_misses_dial` is the code at a state where the
two part.
-/

namespace Beetle

namespace Bitswap

/-- The notification `i` is consistent with the transport's counts. -/
def Consistent (conns : PeerId → Nat) : Input → Prop
  | .connectionEstablished q other => conns q = other
  | .connectionClosed q remaining => conns q = remaining + 1
  | .event q (.connected _) => 0 < conns q
  | .dialFailure (some q) _ => conns q = 0
  | _ => True

/-- The transport's counts after the change the notification `i` reports. -/
def afterInput (conns : PeerId → Nat) : Input → PeerId → Nat
  | .connectionEstablished q other, p => if p = q then other + 1 else conns p
  | .connectionClosed q remaining, p => if p = q then remaining else conns p
  | _, p => conns p

/-- The engine states reachable from `Bitswap::new config`, each with the
transport's counts, when every notification is consistent. -/
inductive Reach (config : BitswapConfig) : Bitswap → (PeerId → Nat) → Prop
  | new : Reach config (new config) fun _ => 0
  | step {s : Bitswap} {conns : PeerId → Nat} (now : Nat) (i : Input) :
      Reach config s conns → Consistent conns i → Reach config (s.step now i).2 (afterInput conns i)

/-- Every notification of the run `rs` is consistent, the transport
starting from the counts `conns`. -/
def ConsistentRun (conns : PeerId → Nat) : List (Nat × Input) → Prop
  | [] => True
  | (_, i) :: rs => Consistent conns i ∧ ConsistentRun (afterInput conns i) rs

/-- The connection state of `p`'s ledger after the call `i`. -/
def connEffect : Input → PeerId → ConnState → ConnState
  | .connectionEstablished q other, p, c => if other = 0 ∧ p = q then .connected none else c
  | .connectionClosed q remaining, p, c => if remaining = 0 ∧ p = q then .disconnected else c
  | .dialFailure (some q) .connectionLimit, p, c => if p = q then .disconnected else c
  | .event q (.connected protocol), p, c => if p = q then .connected (some protocol) else c
  | _, _, c => c

variable (now : Nat) {s : Bitswap}

theorem effect_conn (s : Bitswap) (i : Input) (p : PeerId) (l : Ledger) :
    (s.effect now i p l).conn = connEffect i p l.conn := by
  cases i with
  | connectionEstablished | connectionClosed => simp only [effect, connEffect, apply_ite Ledger.conn]
  | dialFailure peer error =>
    rcases peer with _ | q <;> cases error <;>
      first | rfl | simp only [effect, connEffect, apply_ite Ledger.conn]
  | event q ev =>
    cases ev with
    | connected => simp only [effect, connEffect, apply_ite Ledger.conn]
    | message => simp [effect, connEffect, inboundEffect_eq]
  | _ => first | rfl | (simp only [effect]; split <;> rfl)

/-- No notification puts a connection state into `Dialing`. -/
theorem connEffect_ne_dialing (i : Input) (p : PeerId) {c : ConnState} (hc : c ≠ .dialing) :
    connEffect i p c ≠ .dialing := by
  unfold connEffect
  split <;> (try split) <;> first | exact hc | simp

/-- No ledger is `Dialing`. -/
def NoDialing (s : Bitswap) : Prop := ∀ p g l, s.ledgers.entry? p = some (g, l) → l.conn ≠ .dialing

theorem noDialing_step (s : Bitswap) (i : Input) (h : NoDialing s) : NoDialing (s.step now i).2 := by
  intro p g l hp
  rcases (step_effect now s i).entry hp with ⟨l₀, h₀, rfl⟩ | ⟨-, -, rfl⟩ <;> rw [effect_conn]
  · exact connEffect_ne_dialing i p (h p g l₀ h₀)
  · exact connEffect_ne_dialing i p nofun

theorem run_no_dial : ∀ (rs : List (Nat × Input)) (s : Bitswap), EventsOnly s →
    ∀ q, some (Action.dial q) ∉ (s.run rs).1
  | [], _, _, _, h => nomatch h
  | (now, i) :: rs, s, hs, q, h => by
    rcases List.mem_cons.mp h with h | h
    · by_cases hi : i = .poll
      · subst hi; exact poll_not_dial s hs q h.symm
      · rw [step_fst s i hi] at h; cases h
    · exact run_no_dial rs _ (step_eventsOnly s i hs) q h

/-- **Nothing is ever dialed.** In every run from `Bitswap::new`, whatever
the calls, the notifications and their times, no call returns a `Dial`
and no ledger is ever `Dialing`: `Bitswap::dial` is reached only from the
dead branch of `Ledger::poll`, and no notification sets `Dialing`. -/
theorem run_never_dials (config : BitswapConfig) (rs : List (Nat × Input)) :
    (∀ q, some (Action.dial q) ∉ ((new config).run rs).1) ∧
      ∀ p g l, ((new config).run rs).2.ledgers.entry? p = some (g, l) → l.conn ≠ .dialing :=
  ⟨run_no_dial rs _ (eventsOnly_new config),
    run_preserves NoDialing (fun s now i => noDialing_step now s i) rs _ fun _ _ _ h => nomatch h⟩

/-! ## The selector of the specification -/

/-- Modelled from the spec: the ledger selection of §4.6, which the code's
`Ledger::poll` is meant to implement — a ledger whose timer has elapsed and
whose message is non-empty qualifies when it is connected, or disconnected
while `connection_limit` is false. -/
def qualifies (connectionLimit : Bool) (now : Nat) (l : Ledger) : Bool :=
  decide (l.lastSend ≤ now) && !l.msg.isEmpty && (l.isConnected || (l.isDisconnected && !connectionLimit))

/-- Modelled from the spec: `poll` as §4.6 states it. The front event if
any; otherwise the first qualifying ledger sends its message when
connected, or is dialed and marked `Dialing` when disconnected. -/
def referencePoll (now : Nat) (s : Bitswap) : Option Action × Bitswap :=
  match s.events with
  | event :: events => (some event, { s with events := events })
  | [] =>
    match s.ledgers.entries.find? (fun e => qualifies s.connectionLimit now e.2.2) with
    | none => (none, s)
    | some (k, _, l) =>
      if l.isConnected then
        (some (.notifyHandler l.peerId l.msg), { s with ledgers := s.ledgers.set k (l.sendMessage now).2 })
      else (some (.dial l.peerId), { s with ledgers := s.ledgers.set k { l with conn := .dialing } })

theorem ready_iff_qualifies {connectionLimit : Bool} {l : Ledger}
    (h : qualifies connectionLimit now l = true → l.isConnected = true) :
    l.ready now = qualifies connectionLimit now l := by
  cases hc : l.isConnected <;> simp_all [qualifies, Ledger.ready]

/-- `poll` is the selector of the specification wherever no ledger would
be dialed: the two differ only by the dial-on-demand branch. -/
theorem poll_eq_referencePoll (s : Bitswap)
    (h : ∀ e ∈ s.ledgers.entries, qualifies s.connectionLimit now e.2.2 = true → e.2.2.isConnected = true) :
    s.poll now = referencePoll now s := by
  cases he : s.events with
  | cons e es => simp [poll_of_cons now he, referencePoll, he]
  | nil =>
    rw [poll_of_nil now he, find?_congr fun e he => ready_iff_qualifies now (h e he)]
    simp only [referencePoll, he]
    cases hf : s.ledgers.entries.find? (fun e => qualifies s.connectionLimit now e.2.2) with
    | none => rfl
    | some e =>
      obtain ⟨k, g, l⟩ := e
      have hc := h _ (List.mem_of_find?_eq_some hf) (by simpa using List.find?_some hf)
      simp [hc]

/-- The engine with one peer to dial: after `send_block` to peer 1, which
has no connection, `poll` does nothing where the selector of the
specification dials peer 1. -/
theorem poll_misses_dial :
    (((new .default).step 0 (.sendBlock 1 7 [1])).2.poll 0).1 = none ∧
      (referencePoll 0 ((new .default).step 0 (.sendBlock 1 7 [1])).2).1 = some (.dial 1) := by
  decide

end Bitswap

end Beetle
