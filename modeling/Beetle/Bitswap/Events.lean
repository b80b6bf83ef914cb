import Beetle.Bitswap.Frame

/-!
# Events — the queue towards the embedder

`inject_event` appends the events of an inbound message to `events`
(behaviour.rs:538-629) and `poll` hands them out, oldest first, before it
looks at any ledger (behaviour.rs:640-643). Over every run from
`Bitswap::new`, the events `poll` has returned followed by those still
queued are exactly the events of the inbound messages, message by message
in the order they arrived (`events_fifo`): none is lost, duplicated or
reordered, and a ledger action is returned only when the queue is empty.

`inboundEvents` states the events of one message in the order the
specification gives (§4.4): the blocks, the `Have` presences, then the
Want-Block, Want-Have and cancel entries of its wantlist.
-/

namespace Beetle

namespace Bitswap

/-- The events an inbound `message` from `sender` is reported as. -/
def inboundEvents (sender : PeerId) (message : BitswapMessage) : List BitswapEvent :=
  message.blocks.map (fun b => .outboundQueryCompleted (.want (.ok sender b.cid b.data))) ++
  (message.blockPresences.filter (·.isHave)).map
    (fun bp => .outboundQueryCompleted (.findProviders (.ok bp.cid sender))) ++
  message.wantlist.blocks.map (fun e => .inboundRequest (.want sender e.1 e.2)) ++
  message.wantlist.wantHaveBlocks.map (fun e => .inboundRequest (.wantHave sender e.1 e.2)) ++
  message.wantlist.cancels.map (fun cid => .inboundRequest (.cancel sender cid))

/-- The events a call is expected to queue: those of an inbound message,
nothing for any other call. -/
def inbound : Input → List BitswapEvent
  | .event sender (.message message) => inboundEvents sender message
  | _ => []

/-- The `GenerateEvent` action among what a call returned. -/
def generated : Option Action → List Action
  | some (.generateEvent e) => [.generateEvent e]
  | _ => []

/-- The queue holds `GenerateEvent` actions only. -/
def EventsOnly (s : Bitswap) : Prop := ∀ a ∈ s.events, ∃ e, a = .generateEvent e

variable {now : Nat} {s : Bitswap}

/-! ## What each call does to the queue -/

@[simp] theorem withLedger_events {α : Type} (q : PeerId) (f : Ledger → α × Ledger) :
    (s.withLedger now q f).2.events = s.events := by
  unfold withLedger; split <;> rfl

@[simp] theorem updateLedger_events (q : PeerId) (f : Ledger → Ledger) :
    (s.updateLedger now q f).events = s.events :=
  withLedger_events q _

/-- A loop whose every turn queues one event. -/
theorem foldl_events {α : Type} (step : Bitswap → α → Bitswap) (ev : α → BitswapEvent)
    (h : ∀ s a, (step s a).events = s.events ++ [.generateEvent (ev a)]) :
    ∀ (as : List α) (s : Bitswap),
    (as.foldl step s).events = s.events ++ as.map (fun a => .generateEvent (ev a))
  | [], s => by simp
  | a :: as, s => by simp [foldl_events step ev h as, h]

theorem foldl_updateLedger_events (f : PeerId → Ledger → Ledger) :
    ∀ (ps : List PeerId) (s : Bitswap),
    (ps.foldl (fun s p => s.updateLedger now p (f p)) s).events = s.events
  | [], _ => rfl
  | p :: ps, _ => (foldl_updateLedger_events f ps _).trans (updateLedger_events p (f p))

theorem injectMessage_events (sender : PeerId) (message : BitswapMessage) :
    (s.injectMessage sender message).events =
      s.events ++ (inboundEvents sender message).map .generateEvent := by
  unfold injectMessage
  rw [receiveBlocks_eq sender _ message s rfl,
    foldl_events (fun s (cid : Cid) => s.pushEvent (.inboundRequest (.cancel sender cid))) _ (fun _ _ => rfl),
    foldl_events (fun s (e : Cid × Priority) => s.pushEvent (.inboundRequest (.wantHave sender e.1 e.2))) _ (fun _ _ => rfl),
    foldl_events (fun s (e : Cid × Priority) => s.pushEvent (.inboundRequest (.want sender e.1 e.2))) _ (fun _ _ => rfl),
    foldl_events (fun s (bp : BlockPresence) => s.receiveHave sender bp) _ (fun _ _ => rfl),
    foldl_events (fun s (b : Block) => s.receiveBlock sender b) _ (fun _ _ => rfl)]
  simp [inboundEvents, Function.comp_def]

/-- Every call but `poll` appends the events of its inbound message, if
any, and nothing else. -/
theorem step_events (s : Bitswap) (i : Input) (hi : i ≠ .poll) :
    (s.step now i).2.events = s.events ++ (inbound i).map .generateEvent := by
  cases i with
  | wantBlock => exact (foldl_updateLedger_events _ _ _).trans (by simp [inbound])
  | findProviders =>
    exact (foldl_updateLedger_events _ _ _).trans (by simp [inbound])
  | connectionEstablished q other =>
    simp only [step, injectConnectionEstablished]
    split <;> simp [inbound, addPeer]
  | connectionClosed q remaining =>
    simp only [step, injectConnectionClosed]
    split <;> simp [inbound]
  | dialFailure peer error =>
    cases peer with
    | none => simp [step, injectDialFailure, inbound]
    | some q => cases error <;> simp [step, injectDialFailure, inbound]
  | event q ev =>
    cases ev with
    | connected => simp [step, injectEvent, inbound]
    | message message => exact injectMessage_events q message
  | poll => exact absurd rfl hi
  | _ => simp [step, inbound, addPeer, sendBlock, sendHaveBlock, cancelBlock, cancelWantBlock]

/-- `poll` returns the oldest queued event, or, with an empty queue,
leaves the queue empty. -/
theorem poll_events (s : Bitswap) (hs : EventsOnly s) :
    generated (s.poll now).1 ++ (s.poll now).2.events = s.events := by
  cases h : s.events with
  | cons e es =>
    obtain ⟨ev, rfl⟩ := hs e (by simp [h])
    simp [poll_of_cons now h, generated]
  | nil =>
    rw [poll_of_nil now h]
    split <;> simp [generated, h]

/-- A ledger action (a message or a dial) is returned only when no event
is queued. -/
theorem poll_ledger_action (s : Bitswap) (hs : EventsOnly s) {a : Action}
    (ha : (s.poll now).1 = some a) (hne : ∀ e, a ≠ .generateEvent e) : s.events = [] := by
  cases h : s.events with
  | nil => rfl
  | cons e es =>
    rw [poll_of_cons now h] at ha
    obtain ⟨ev, hev⟩ := hs e (by rw [h]; exact List.mem_cons_self _ _)
    exact absurd ((Option.some.inj ha) ▸ hev) (hne ev)

/-- What `poll` can return from a state whose queue holds events only: a
queued event, or the message of the first ready ledger, at `pollKey`. -/
theorem poll_some (s : Bitswap) (hs : EventsOnly s) {a : Action} (ha : (s.poll now).1 = some a) :
    (∃ e, a = .generateEvent e) ∨
      ∃ k g l, s.ledgers.entry? k = some (g, l) ∧ l.ready now = true ∧ s.pollKey now = some k ∧
        a = .notifyHandler l.peerId l.msg := by
  cases h : s.events with
  | cons e es =>
    rw [poll_of_cons now h] at ha
    exact .inl (Option.some.inj ha ▸ hs e (by simp [h]))
  | nil =>
    rw [poll_of_nil now h] at ha
    cases hf : s.ledgers.entries.find? (fun e => e.2.2.ready now) with
    | none => simp [hf] at ha
    | some e =>
      obtain ⟨k, g, l⟩ := e
      simp only [hf, Option.some.injEq] at ha
      exact .inr ⟨k, g, l, Lru.entry?_eq_some_iff.mpr (List.mem_of_find?_eq_some hf),
        by simpa using List.find?_some hf, by simp [pollKey, h, hf], ha.symm⟩

theorem pollKey_spec {k : PeerId} (hk : s.pollKey now = some k) :
    s.events = [] ∧ ∃ g l, s.ledgers.entry? k = some (g, l) ∧ l.ready now = true := by
  unfold pollKey at hk
  split at hk
  · cases hk
  · rename_i h
    obtain ⟨⟨k', g, l⟩, hf, rfl⟩ := Option.map_eq_some'.mp hk
    exact ⟨h, g, l, Lru.entry?_eq_some_iff.mpr (List.mem_of_find?_eq_some hf),
      by simpa using List.find?_some hf⟩

/-- The ledger at `pollKey` is the one `poll` sends. -/
theorem poll_of_pollKey {k g : Nat} {l : Ledger} (hk : s.pollKey now = some k)
    (hl : s.ledgers.entry? k = some (g, l)) :
    (s.poll now).1 = some (.notifyHandler l.peerId l.msg) := by
  obtain ⟨he, g', l', hl', -⟩ := pollKey_spec hk
  rw [hl] at hl'
  cases hl'
  unfold pollKey at hk
  rw [he] at hk
  obtain ⟨⟨k', g'', l''⟩, hf, hk'⟩ := Option.map_eq_some'.mp hk
  cases hk'
  have := Lru.entry?_eq_some_iff.mpr (List.mem_of_find?_eq_some hf)
  rw [hl] at this
  cases this
  rw [poll_of_nil now he, hf]

/-- `poll` never dials from a state whose queue holds events only. -/
theorem poll_not_dial (s : Bitswap) (hs : EventsOnly s) (q : PeerId) :
    (s.poll now).1 ≠ some (.dial q) := fun ha => by
  rcases poll_some s hs ha with ⟨e, he⟩ | ⟨k, g, l, -, -, -, he⟩ <;> cases he

/-! ## Runs -/

theorem step_fst (s : Bitswap) (i : Input) (hi : i ≠ .poll) : (s.step now i).1 = none := by
  cases i <;> first | rfl | exact absurd rfl hi

/-- One call, as the queue sees it. -/
theorem step_fifo (s : Bitswap) (i : Input) (hs : EventsOnly s) :
    generated (s.step now i).1 ++ (s.step now i).2.events =
      s.events ++ (inbound i).map .generateEvent := by
  by_cases hi : i = .poll
  · subst hi
    simpa [inbound] using poll_events s hs
  · rw [step_fst s i hi, step_events s i hi]
    rfl

theorem step_eventsOnly (s : Bitswap) (i : Input) (hs : EventsOnly s) :
    EventsOnly (s.step now i).2 := by
  intro a ha
  have h := @step_fifo now s i hs
  have : a ∈ s.events ++ (inbound i).map .generateEvent := h ▸ List.mem_append_right _ ha
  rcases List.mem_append.mp this with ha | ha
  · exact hs a ha
  · obtain ⟨e, -, rfl⟩ := List.mem_map.mp ha
    exact ⟨e, rfl⟩

theorem eventsOnly_new (config : BitswapConfig) : EventsOnly (new config) := fun _ h => nomatch h

/-- What every call preserves, every run preserves. -/
theorem run_preserves (P : Bitswap → Prop) (h : ∀ s now i, P s → P (s.step now i).2) :
    ∀ (rs : List (Nat × Input)) (s : Bitswap), P s → P (s.run rs).2
  | [], _, hs => hs
  | (now, i) :: rs, s, hs => run_preserves P h rs _ (h s now i hs)

theorem run_eventsOnly : ∀ (rs : List (Nat × Input)) (s : Bitswap), EventsOnly s →
    EventsOnly (s.run rs).2 :=
  run_preserves _ fun s _ i => step_eventsOnly s i

theorem run_fifo : ∀ (rs : List (Nat × Input)) (s : Bitswap), EventsOnly s →
    (s.run rs).1.flatMap generated ++ (s.run rs).2.events =
      s.events ++ (rs.flatMap fun r => inbound r.2).map .generateEvent
  | [], _, _ => by simp [run]
  | (now, i) :: rs, s, hs => by
    simp only [run, List.flatMap_cons, List.append_assoc, List.map_append]
    rw [run_fifo rs _ (step_eventsOnly s i hs), ← List.append_assoc, step_fifo s i hs,
      List.append_assoc]

/-- **The event queue is a FIFO of the inbound messages' events.** Over
every run from `Bitswap::new`, the `GenerateEvent` actions returned so
far followed by the queued events are the events of the inbound messages
in arrival order; and `poll` returns a ledger action only when the queue
is empty. -/
theorem events_fifo (config : BitswapConfig) (rs : List (Nat × Input)) :
    ((new config).run rs).1.flatMap generated ++ ((new config).run rs).2.events =
      (rs.flatMap fun r => inbound r.2).map .generateEvent ∧
    ∀ now a, (((new config).run rs).2.poll now).1 = some a → (∀ e, a ≠ .generateEvent e) →
      ((new config).run rs).2.events = [] := by
  have hs := eventsOnly_new config
  exact ⟨by simpa [new] using run_fifo rs _ hs,
    fun now _ ha hne => poll_ledger_action _ (run_eventsOnly rs _ hs) ha hne⟩

end Bitswap

end Beetle
