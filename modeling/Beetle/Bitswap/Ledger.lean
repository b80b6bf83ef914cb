import Beetle.Bitswap.Message

/-!
# Ledger — per-peer pending state

`Ledger` (behaviour.rs:127-256) holds what the engine has queued for one
peer: the pending `BitswapMessage`, the coalescing timer `last_send` and the
connection state. Time is in milliseconds: `last_send` is the deadline of
its `tokio::time::Sleep`, which is elapsed once the clock reaches it.

`Ledger::poll` takes `bs : &mut Bitswap` only to call `bs.dial`; here it
returns what it decided (`LedgerPoll`), and the engine's loop performs the
dial. Its dial branch sits inside `if self.is_connected()`, where
`is_disconnected()` is false, so it is never taken (`poll_ne_dial`).
-/

namespace Beetle

/-- `MESSAGE_DELAY`: 250 ms between two messages of one ledger. -/
def messageDelay : Nat := 250

/-- `crate::ProtocolId`, the negotiated protocol versions. -/
inductive ProtocolId
  | legacy
  | bitswap100
  | bitswap110
  | bitswap120
  deriving DecidableEq, Repr

/-- `ConnState`. -/
inductive ConnState
  | connected (protocol : Option ProtocolId)
  | disconnected
  | dialing
  deriving DecidableEq, Repr

/-- `Ledger`. -/
structure Ledger where
  peerId : PeerId
  msg : BitswapMessage
  lastSend : Nat
  conn : ConnState
  deriving DecidableEq

/-- What `Ledger::poll` decides: nothing to do, send the pending message
(returned together with the updated ledger), or ask the engine to dial. -/
inductive LedgerPoll
  | pending
  | send (msg : BitswapMessage) (ledger : Ledger)
  | dial

namespace Ledger

/-- `Ledger::new`: an empty message with `full` set, a timer that expires
at once (`sleep(0)` armed at `now`), and no connection. -/
def new (peerId : PeerId) (now : Nat) : Ledger :=
  { peerId, msg := .fresh true, lastSend := now, conn := .disconnected }

/-- `is_connected`. -/
def isConnected (self : Ledger) : Bool :=
  match self.conn with
  | .connected _ => true
  | _ => false

/-- `is_disconnected`. -/
def isDisconnected (self : Ledger) : Bool :=
  match self.conn with
  | .disconnected => true
  | _ => false

/-- `needs_dial`. -/
def needsDial (self : Ledger) : Bool :=
  match self.conn with
  | .disconnected => true
  | _ => false

/-- `is_empty`. -/
def isEmpty (self : Ledger) : Bool := self.msg.isEmpty

/-- `has_blocks`. -/
def hasBlocks (self : Ledger) : Bool := !self.msg.blocks.isEmpty

/-- `send_message`: hand out the pending message, install an empty one
with `full` cleared, and re-arm the timer at `now + MESSAGE_DELAY`. -/
def sendMessage (self : Ledger) (now : Nat) : BitswapMessage × Ledger :=
  (self.msg, { self with msg := .fresh false, lastSend := now + messageDelay })

/-- `Ledger::poll`. -/
def poll (self : Ledger) (now : Nat) : LedgerPoll :=
  if now < self.lastSend then .pending
  else if self.isConnected then
    let shouldSend := if self.hasBlocks then true else if !self.isEmpty then true else false
    if shouldSend then
      let (bsMsg, self') := self.sendMessage now
      .send bsMsg self'
    -- not connected, but have content to send, need to dial
    else if !self.isEmpty && self.isDisconnected then .dial
    else .pending
  else .pending

/-- A change to the pending message. -/
def modifyMsg (self : Ledger) (f : BitswapMessage → BitswapMessage) : Ledger :=
  { self with msg := f self.msg }

/-- `Ledger::want_block`. -/
def wantBlock (self : Ledger) (cid : Cid) (priority : Priority) : Ledger :=
  self.modifyMsg (·.modifyWantlist (·.wantBlock cid priority))

/-- `Ledger::cancel_block`. -/
def cancelBlock (self : Ledger) (cid : Cid) : Ledger :=
  self.modifyMsg (·.modifyWantlist (·.cancelBlock cid))

/-- `Ledger::remove_block`. -/
def removeBlock (self : Ledger) (cid : Cid) : Ledger :=
  self.modifyMsg (·.modifyWantlist (·.removeBlock cid))

/-- `Ledger::send_block`. -/
def sendBlock (self : Ledger) (cid : Cid) (data : Bytes) : Ledger :=
  self.modifyMsg (·.addBlock { cid, data })

/-- `Ledger::want_have_block`. -/
def wantHaveBlock (self : Ledger) (cid : Cid) (priority : Priority) : Ledger :=
  self.modifyMsg (·.modifyWantlist (·.wantHaveBlock cid priority))

/-- `Ledger::remove_want_block`. -/
def removeWantBlock (self : Ledger) (cid : Cid) : Ledger :=
  self.modifyMsg (·.modifyWantlist (·.removeWantBlock cid))

/-- `Ledger::send_have_block`. -/
def sendHaveBlock (self : Ledger) (cid : Cid) : Ledger :=
  self.modifyMsg (·.addBlockPresence (.have cid))

/-! ## Facts about one ledger -/

@[simp] theorem modifyMsg_peerId (l : Ledger) (f) : (l.modifyMsg f).peerId = l.peerId := rfl
@[simp] theorem modifyMsg_conn (l : Ledger) (f) : (l.modifyMsg f).conn = l.conn := rfl
@[simp] theorem modifyMsg_lastSend (l : Ledger) (f) : (l.modifyMsg f).lastSend = l.lastSend := rfl
@[simp] theorem modifyMsg_msg (l : Ledger) (f) : (l.modifyMsg f).msg = f l.msg := rfl

/-- A loop of changes to the pending message is one change. -/
theorem foldl_modifyMsg {α : Type} (f : α → BitswapMessage → BitswapMessage) :
    ∀ (as : List α) (l : Ledger),
    as.foldl (fun l a => l.modifyMsg (f a)) l = l.modifyMsg (fun m => as.foldl (fun m a => f a m) m)
  | [], _ => rfl
  | a :: as, l => foldl_modifyMsg f as (l.modifyMsg (f a))

/-- When `Ledger::poll` sends: the timer has elapsed, the peer is
connected and the message is non-empty. -/
def ready (l : Ledger) (now : Nat) : Bool := decide (l.lastSend ≤ now) && l.isConnected && !l.msg.isEmpty

theorem hasBlocks_eq_false {l : Ledger} (h : l.msg.isEmpty = true) : l.hasBlocks = false := by
  simp only [BitswapMessage.isEmpty, Bool.and_eq_true] at h
  simp [hasBlocks, h.1.1]

/-- What `Ledger::poll` does: a ready ledger hands out its message and
re-arms its timer; any other ledger does nothing. -/
theorem poll_eq (l : Ledger) (now : Nat) :
    l.poll now = if l.ready now then .send l.msg (l.sendMessage now).2 else .pending := by
  unfold poll ready
  by_cases ht : now < l.lastSend
  · simp [ht, Nat.not_le.mpr ht]
  · rw [if_neg ht]
    cases he : l.msg.isEmpty
    · cases hc : l.conn <;>
        simp [isConnected, isEmpty, sendMessage, hc, he, Nat.le_of_not_lt ht]
    · cases hc : l.conn <;>
        simp [isConnected, isDisconnected, isEmpty, hasBlocks_eq_false he, hc, he]

/-- The dial branch of `Ledger::poll` is dead: it is guarded by
`is_connected()` and `is_disconnected()` at once. -/
theorem poll_ne_dial (l : Ledger) (now : Nat) : l.poll now ≠ .dial := by
  rw [poll_eq]
  split <;> nofun

end Ledger

end Beetle
