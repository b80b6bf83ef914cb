import Beetle.Lru
import Beetle.Bitswap.Ledger

/-!
# Behaviour — the Bitswap engine

`Bitswap` (behaviour.rs:113-654) as a state and one `step` per call the
embedder or the swarm can make: the public operations, the connection
notifications (`inject_connection_established`, `inject_connection_closed`,
`inject_dial_failure`), the handler events (`inject_event`) and `poll`.
Every call is a function of the state and the current time; only `poll`
returns an action.

The `for` loops of the source are folds over the same sequences: the
providers of `want_block` (the `HashSet`'s iteration order, a list without
repetition), the peers `find_providers` selects, and the entries of an
inbound message. `values_mut` and `iter_mut` visit every ledger in place
(`Lru.mapValues`).
-/

namespace Beetle

/-- `WantResult::Ok` — the only variant the engine builds. -/
inductive WantResult
  | ok (sender : PeerId) (cid : Cid) (data : Bytes)
  deriving DecidableEq, Repr

/-- `FindProvidersResult::Ok` — the only variant the engine builds. -/
inductive FindProvidersResult
  | ok (cid : Cid) (provider : PeerId)
  deriving DecidableEq, Repr

/-- `QueryResult`, restricted to the variants the engine builds. -/
inductive QueryResult
  | want (result : WantResult)
  | findProviders (result : FindProvidersResult)
  deriving DecidableEq, Repr

/-- `InboundRequest`. -/
inductive InboundRequest
  | want (sender : PeerId) (cid : Cid) (priority : Priority)
  | wantHave (sender : PeerId) (cid : Cid) (priority : Priority)
  | cancel (sender : PeerId) (cid : Cid)
  deriving DecidableEq, Repr

/-- `BitswapEvent`. -/
inductive BitswapEvent
  | outboundQueryCompleted (result : QueryResult)
  | inboundRequest (request : InboundRequest)
  deriving DecidableEq, Repr

/-- `NetworkBehaviourAction<BitswapEvent, BitswapHandler>` as the engine
builds it: an event for the embedder, a message for the handler of a peer
(`NotifyHandler::Any`, `BitswapHandlerIn::Message`), or a dial. -/
inductive Action
  | generateEvent (event : BitswapEvent)
  | notifyHandler (peerId : PeerId) (event : BitswapMessage)
  | dial (peerId : PeerId)
  deriving DecidableEq

/-- `crate::handler::HandlerEvent`. -/
inductive HandlerEvent
  | connected (protocol : ProtocolId)
  | message (message : BitswapMessage)

/-- `libp2p::swarm::DialError`, as far as `inject_dial_failure` tells its
variants apart. -/
inductive DialError
  | connectionLimit
  | dialPeerConditionFalse
  | other

/-- `MAX_PROVIDERS`. -/
def maxProviders : Nat := 10000

/-- The capacities of `BitswapConfig` (the handler's `idle_timeout` and
`protocol_config` play no part in the engine's state). -/
structure BitswapConfig where
  maxCachedPeers : Nat
  maxLedgers : Nat

/-- `BitswapConfig::default()`. -/
def BitswapConfig.default : BitswapConfig := ⟨20000, 1024⟩

/-- `Bitswap`. -/
structure Bitswap where
  events : List Action
  knownPeers : Lru PeerId (Option ProtocolId)
  ledgers : Lru PeerId Ledger
  wantlist : Wantlist
  connectionLimit : Bool

namespace Bitswap

/-- `Bitswap::new`. The source unwraps `RawLRU::new` for both caches,
which fails, so `new` panics, when a capacity is 0; the model takes that
case as caches that hold nothing (`Lru.new 0`). -/
def new (config : BitswapConfig) : Bitswap :=
  ⟨[], Lru.new config.maxCachedPeers, Lru.new config.maxLedgers, .empty, false⟩

section Operations

variable (now : Nat)

/-- `add_peer`. -/
def addPeer (s : Bitswap) (peer : PeerId) (protocol : Option ProtocolId) : Bitswap :=
  { s with knownPeers := s.knownPeers.put peer protocol }

@[simp] theorem addPeer_ledgers (s : Bitswap) (peer : PeerId) (protocol : Option ProtocolId) :
    (s.addPeer peer protocol).ledgers = s.ledgers := rfl

/-- `with_ledger`: run `f` on the ledger of `peer` (promoted by
`get_mut`), or on a new ledger that is then `put` and its peer added to
`known_peers` as `None`. -/
def withLedger {α : Type} (s : Bitswap) (peer : PeerId) (f : Ledger → α × Ledger) : α × Bitswap :=
  match s.ledgers.get? peer with
  | some state => ((f state).1, { s with ledgers := s.ledgers.promote peer (f state).2 })
  | none =>
    let r := f (Ledger.new peer now)
    (r.1, ({ s with ledgers := s.ledgers.put peer r.2 }).addPeer peer none)

/-- `with_ledger` with a closure that returns nothing. -/
def updateLedger (s : Bitswap) (peer : PeerId) (f : Ledger → Ledger) : Bitswap :=
  (s.withLedger now peer fun state => ((), f state)).2

/-- `want_block`. -/
def wantBlock (s : Bitswap) (cid : Cid) (priority : Priority) (providers : List PeerId) :
    Bitswap :=
  providers.foldl (fun s provider => s.updateLedger now provider (·.wantBlock cid priority))
    { s with wantlist := s.wantlist.wantBlock cid priority }

/-- `send_block`. -/
def sendBlock (s : Bitswap) (peerId : PeerId) (cid : Cid) (data : Bytes) : Bitswap :=
  s.updateLedger now peerId (·.sendBlock cid data)

/-- `send_have_block`. -/
def sendHaveBlock (s : Bitswap) (peerId : PeerId) (cid : Cid) : Bitswap :=
  s.updateLedger now peerId (·.sendHaveBlock cid)

/-- The peers `find_providers` selects: the first `MAX_PROVIDERS` known
peers, in iteration order, whose protocol is unknown or 1.2.0. -/
def providersOf (knownPeers : Lru PeerId (Option ProtocolId)) : List PeerId :=
  (knownPeers.entries.filterMap fun e =>
    -- Only supported on 1.2.0
    if e.2.2 = none ∨ e.2.2 = some .bitswap120 then some e.1 else none).take maxProviders

/-- `find_providers`. -/
def findProviders (s : Bitswap) (cid : Cid) (priority : Priority) : Bitswap :=
  let s := (providersOf s.knownPeers).foldl
    (fun s provider => s.updateLedger now provider (·.wantHaveBlock cid priority)) s
  { s with wantlist := s.wantlist.wantHaveBlock cid priority }

end Operations

/-- `cancel_block`. -/
def cancelBlock (s : Bitswap) (cid : Cid) : Bitswap :=
  { s with
    wantlist := s.wantlist.cancelBlock cid
    ledgers := s.ledgers.mapValues fun _ state => state.cancelBlock cid }

/-- `cancel_want_block`. -/
def cancelWantBlock (s : Bitswap) (cid : Cid) : Bitswap :=
  { s with
    wantlist := s.wantlist.removeWantBlock cid
    ledgers := s.ledgers.mapValues fun _ state => state.removeWantBlock cid }

section Notifications

variable (now : Nat)

/-- `Bitswap::dial`. -/
def dial (s : Bitswap) (peer : PeerId) : Option Action × Bitswap :=
  if s.connectionLimit then (none, s)
  else s.withLedger now peer fun state =>
    -- No need to dial, already connected
    if !state.needsDial then (none, state)
    else (some (.dial peer), { state with conn := .dialing })

/-- `inject_connection_established`. -/
def injectConnectionEstablished (s : Bitswap) (peerId : PeerId) (otherEstablished : Nat) :
    Bitswap :=
  if otherEstablished = 0 then
    (s.addPeer peerId none).updateLedger now peerId fun state =>
      { state with conn := .connected none }
  else s

/-- `inject_connection_closed`. -/
def injectConnectionClosed (s : Bitswap) (peerId : PeerId) (remainingEstablished : Nat) :
    Bitswap :=
  if remainingEstablished = 0 then
    { s.updateLedger now peerId (fun state => { state with conn := .disconnected }) with
      connectionLimit := false }
  else s

/-- `inject_dial_failure`. -/
def injectDialFailure (s : Bitswap) : Option PeerId → DialError → Bitswap
  | none, _ => s
  | some peerId, .connectionLimit =>
    ({ s with connectionLimit := true }).updateLedger now peerId fun state =>
      { state with conn := .disconnected }
  | some _, .dialPeerConditionFalse => s
  -- remove peers we can't dial
  | some peerId, .other =>
    { s with knownPeers := s.knownPeers.remove peerId, ledgers := s.ledgers.remove peerId }

end Notifications

/-- Queue an event for the embedder (`events.push_back(GenerateEvent(..))`). -/
def pushEvent (s : Bitswap) (event : BitswapEvent) : Bitswap :=
  { s with events := s.events ++ [.generateEvent event] }

/-- One turn of the `while let Some(block) = message.pop_block()` loop of
`inject_event`: the block leaves the global wantlist, the sender's ledger
drops its Want-Block, every other ledger records a cancel, and the block is
reported. -/
def receiveBlock (s : Bitswap) (peerId : PeerId) (block : Block) : Bitswap :=
  ({ s with
    wantlist := s.wantlist.cancelBlock block.cid
    ledgers := s.ledgers.mapValues fun id state =>
      if id = peerId then state.removeBlock block.cid else state.cancelBlock block.cid }).pushEvent
    (.outboundQueryCompleted (.want (.ok peerId block.cid block.data)))

/-- The `pop_block` loop; `message.blocks.length` turns drain it. -/
def receiveBlocks (s : Bitswap) (peerId : PeerId) : Nat → BitswapMessage → Bitswap
  | 0, _ => s
  | fuel + 1, message =>
    match message.popBlock with
    | none => s
    | some (block, message) => (s.receiveBlock peerId block).receiveBlocks peerId fuel message

/-- One turn of the loop over `Have` presences. -/
def receiveHave (s : Bitswap) (peerId : PeerId) (bp : BlockPresence) : Bitswap :=
  ({ s with
    wantlist := s.wantlist.removeWantBlock bp.cid
    ledgers := s.ledgers.mapValues fun _ state => state.removeWantBlock bp.cid }).pushEvent
    (.outboundQueryCompleted (.findProviders (.ok bp.cid peerId)))

/-- `inject_event` for `HandlerEvent::Message`. -/
def injectMessage (s : Bitswap) (peerId : PeerId) (message : BitswapMessage) : Bitswap :=
  let s := s.receiveBlocks peerId message.blocks.length message
  let s := (message.blockPresences.filter (·.isHave)).foldl (fun s bp => s.receiveHave peerId bp) s
  -- Propagate Want Events
  let s := message.wantlist.blocks.foldl
    (fun s e => s.pushEvent (.inboundRequest (.want peerId e.1 e.2))) s
  -- Propagate WantHave Events
  let s := message.wantlist.wantHaveBlocks.foldl
    (fun s e => s.pushEvent (.inboundRequest (.wantHave peerId e.1 e.2))) s
  -- Propagate Cancel Events
  message.wantlist.cancels.foldl (fun s cid => s.pushEvent (.inboundRequest (.cancel peerId cid))) s

/-- `inject_event`. -/
def injectEvent (now : Nat) (s : Bitswap) (peerId : PeerId) : HandlerEvent → Bitswap
  | .connected protocol =>
    let s := s.updateLedger now peerId fun state => { state with conn := .connected (some protocol) }
    { s with knownPeers := s.knownPeers.put peerId (some protocol) }
  | .message message => s.injectMessage peerId message

/-- The ledger loop of `poll`: the first ledger, in iteration order, whose
`Ledger::poll` is ready decides the action. -/
def pollLedgers (now : Nat) : List (PeerId × Nat × Ledger) → Bitswap → Option Action × Bitswap
  | [], s => (none, s)
  | (peer, _, state) :: rest, s =>
    match state.poll now with
    | .pending => pollLedgers now rest s
    | .send bsMsg state' => (some (.notifyHandler state.peerId bsMsg), { s with ledgers := s.ledgers.set peer state' })
    | .dial =>
      match s.dial now state.peerId with
      | (some event, s) => (some event, s)
      | (none, s) => pollLedgers now rest s

/-- `<Bitswap as NetworkBehaviour>::poll`: a queued event first, then the
ledgers. -/
def poll (now : Nat) (s : Bitswap) : Option Action × Bitswap :=
  match s.events with
  | event :: events => (some event, { s with events := events })
  | [] => pollLedgers now s.ledgers.entries s

end Bitswap

/-- `HashSet<PeerId>`: an iteration order in which each peer appears once. -/
def PeerSet := { l : List PeerId // l.Nodup }

/-- The calls into the engine. -/
inductive Input
  | addPeer (peer : PeerId) (protocol : Option ProtocolId)
  | wantBlock (cid : Cid) (priority : Priority) (providers : PeerSet)
  | sendBlock (peerId : PeerId) (cid : Cid) (data : Bytes)
  | sendHaveBlock (peerId : PeerId) (cid : Cid)
  | findProviders (cid : Cid) (priority : Priority)
  | cancelBlock (cid : Cid)
  | cancelWantBlock (cid : Cid)
  | connectionEstablished (peerId : PeerId) (otherEstablished : Nat)
  | connectionClosed (peerId : PeerId) (remainingEstablished : Nat)
  | dialFailure (peerId : Option PeerId) (error : DialError)
  | event (peerId : PeerId) (message : HandlerEvent)
  | poll

namespace Bitswap

/-- One call at time `now`: the action it returns (only `poll` returns
one) and the state after it. -/
def step (now : Nat) (s : Bitswap) : Input → Option Action × Bitswap
  | .addPeer peer protocol => (none, s.addPeer peer protocol)
  | .wantBlock cid priority providers => (none, s.wantBlock now cid priority providers.1)
  | .sendBlock peerId cid data => (none, s.sendBlock now peerId cid data)
  | .sendHaveBlock peerId cid => (none, s.sendHaveBlock now peerId cid)
  | .findProviders cid priority => (none, s.findProviders now cid priority)
  | .cancelBlock cid => (none, s.cancelBlock cid)
  | .cancelWantBlock cid => (none, s.cancelWantBlock cid)
  | .connectionEstablished peerId other => (none, s.injectConnectionEstablished now peerId other)
  | .connectionClosed peerId remaining => (none, s.injectConnectionClosed now peerId remaining)
  | .dialFailure peerId error => (none, s.injectDialFailure now peerId error)
  | .event peerId message => (none, s.injectEvent now peerId message)
  | .poll => s.poll now

/-- A run: calls with their times, in order. Returns the actions of every
call and the final state. -/
def run (s : Bitswap) : List (Nat × Input) → List (Option Action) × Bitswap
  | [] => ([], s)
  | (now, i) :: rest =>
    let r := s.step now i
    let r' := r.2.run rest
    (r.1 :: r'.1, r'.2)

end Bitswap

end Beetle
