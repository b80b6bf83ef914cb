import Beetle.Bitswap.Events

/-!
# Pending — what a sent message carries

A ledger's pending message is the accumulation of the updates the engine
directed at its peer since the ledger was created or last sent
(behaviour.rs:136-255, 318-423, 538-584). This module states that account
in the words of the specification and shows that the engine keeps it:

* `MsgUpdate` and `directed` — the ledger-level updates each call directs
  at a peer: `want_block` to the providers of `want_block`, `want_have` to
  the peers `find_providers` selects, `cancel` on `cancel_block` and on a
  block from another peer, `remove_block` on a block from the peer itself,
  `remove_want_block` on `cancel_want_block` and on each `Have` presence,
  `add_block` and a `Have` presence on `send_block` and `send_have_block`
  to the peer;
* `account` — per peer, the updates since its current ledger was created
  or last named by a `NotifyHandler`, and whether a message went out from
  that ledger yet; a ledger object is told apart from a recreated one by
  its LRU stamp;
* `notify_message`: every `NotifyHandler` of every run carries the
  account's message.
-/

namespace Beetle

/-- A ledger-level update of a pending message. -/
inductive MsgUpdate
  | wantBlock (cid : Cid) (priority : Priority)
  | wantHave (cid : Cid) (priority : Priority)
  | cancel (cid : Cid)
  | removeBlock (cid : Cid)
  | removeWantBlock (cid : Cid)
  | addBlock (cid : Cid) (data : Bytes)
  | have (cid : Cid)

namespace MsgUpdate

/-- The update on the message. -/
def apply : MsgUpdate → BitswapMessage → BitswapMessage
  | .wantBlock cid priority, m => m.modifyWantlist (·.wantBlock cid priority)
  | .wantHave cid priority, m => m.modifyWantlist (·.wantHaveBlock cid priority)
  | .cancel cid, m => m.modifyWantlist (·.cancelBlock cid)
  | .removeBlock cid, m => m.modifyWantlist (·.removeBlock cid)
  | .removeWantBlock cid, m => m.modifyWantlist (·.removeWantBlock cid)
  | .addBlock cid data, m => m.addBlock { cid, data }
  | .have cid, m => m.addBlockPresence (.have cid)

/-- Updates applied in order. -/
def applyAll (us : List MsgUpdate) (m : BitswapMessage) : BitswapMessage :=
  us.foldl (fun m u => u.apply m) m

@[simp] theorem applyAll_nil (m : BitswapMessage) : applyAll [] m = m := rfl

theorem applyAll_append (us vs : List MsgUpdate) (m : BitswapMessage) :
    applyAll (us ++ vs) m = applyAll vs (applyAll us m) :=
  List.foldl_append _ _ _ _

end MsgUpdate

namespace Bitswap

/-- The updates the call `i` directs at `p`'s ledger, as the specification
lists them; calls that name only other peers direct none. -/
def directed (s : Bitswap) : Input → PeerId → List MsgUpdate
  | .wantBlock cid priority providers, p => if p ∈ providers.1 then [.wantBlock cid priority] else []
  | .findProviders cid priority, p =>
    if p ∈ providersOf s.knownPeers then [.wantHave cid priority] else []
  | .cancelBlock cid, _ => [.cancel cid]
  | .cancelWantBlock cid, _ => [.removeWantBlock cid]
  | .sendBlock q cid data, p => if p = q then [.addBlock cid data] else []
  | .sendHaveBlock q cid, p => if p = q then [.have cid] else []
  | .event q (.message message), p =>
    message.blocks.map (fun b => if p = q then .removeBlock b.cid else .cancel b.cid) ++
      (message.blockPresences.filter (·.isHave)).map (fun bp => .removeWantBlock bp.cid)
  | _, _ => []

variable (now : Nat) {s : Bitswap}

theorem inboundMsg_eq (q : PeerId) (message : BitswapMessage) (p : PeerId) (m : BitswapMessage) :
    inboundMsg q message p m = MsgUpdate.applyAll (s.directed (.event q (.message message)) p) m := by
  by_cases hp : p = q <;>
    simp [inboundMsg, directed, MsgUpdate.applyAll, List.foldl_map, MsgUpdate.apply, hp]

/-- **What a call does to a pending message**: the updates it directs at
the peer, unless `poll` sends the peer's message. -/
theorem effect_msg (s : Bitswap) (i : Input) (p : PeerId) (l : Ledger)
    (h : i = .poll → s.pollKey now ≠ some p) :
    (s.effect now i p l).msg = MsgUpdate.applyAll (s.directed i p) l.msg := by
  cases i with
  | poll => simp [effect, h rfl, directed]
  | event q ev =>
    cases ev with
    | connected => simp only [effect]; split <;> rfl
    | message message => rw [effect, inboundEffect_eq, Ledger.modifyMsg_msg, inboundMsg_eq]
  | dialFailure peer error =>
    rcases peer with _ | q <;> cases error <;> first | rfl | (simp only [effect]; split <;> rfl)
  | connectionEstablished | connectionClosed => simp only [effect]; split <;> rfl
  | wantBlock _ _ providers =>
    by_cases hp : p ∈ providers.1 <;>
      simp [effect, directed, hp, MsgUpdate.applyAll, MsgUpdate.apply, Ledger.wantBlock]
  | findProviders =>
    by_cases hp : p ∈ providersOf s.knownPeers <;>
      simp [effect, directed, hp, MsgUpdate.applyAll, MsgUpdate.apply, Ledger.wantHaveBlock]
  | sendBlock q | sendHaveBlock q =>
    by_cases hp : p = q <;> simp [effect, directed, hp, MsgUpdate.applyAll, MsgUpdate.apply,
      Ledger.sendBlock, Ledger.sendHaveBlock]
  | _ => rfl

/-! ## The account -/

/-- One peer's pending message as the specification accounts for it. -/
structure Pending where
  first : Bool
  updates : List MsgUpdate

/-- An empty message whose `full` flag marks the first message of a ledger,
with the updates applied in call order. -/
def Pending.message (a : Pending) : BitswapMessage := MsgUpdate.applyAll a.updates (.fresh a.first)

/-- The call's result is a `NotifyHandler` naming `p`. -/
def notifies (p : PeerId) : Option Action → Bool
  | some (.notifyHandler q _) => q == p
  | _ => false

/-- One call, as the account sees it: `p`'s ledger kept through the call
(same stamp) collects the call's updates, or starts over once a message
naming `p` goes out; a ledger the call creates starts from the call's
updates, as the first of its ledger. -/
def account (s : Bitswap) (i : Input) (acc : PeerId → Pending) (p : PeerId) : Pending :=
  match (s.step now i).2.ledgers.entry? p with
  | none => acc p
  | some (g, _) =>
    if (s.ledgers.entry? p).map (·.1) = some g then
      if notifies p (s.step now i).1 then ⟨false, []⟩
      else ⟨(acc p).first, (acc p).updates ++ s.directed i p⟩
    else ⟨true, s.directed i p⟩

/-- The account along a run. -/
def accountRun (s : Bitswap) (acc : PeerId → Pending) : List (Nat × Input) → PeerId → Pending
  | [] => acc
  | (now, i) :: rs => accountRun (s.step now i).2 (account now s i acc) rs

/-! ## The engine keeps the account -/

/-- `poll` names `p` exactly when it sends for `p`'s ledger. -/
theorem notifies_step (s : Bitswap) (i : Input) (p : PeerId) (hk : Keyed s) (he : EventsOnly s) :
    notifies p (s.step now i).1 = true ↔ i = .poll ∧ s.pollKey now = some p := by
  by_cases hi : i = .poll
  · subst hi
    constructor
    · intro h
      cases ha : (s.poll now).1 with
      | none => simp [step, ha, notifies] at h
      | some a =>
        rcases poll_some s he ha with ⟨e, rfl⟩ | ⟨k, g, l, hl, -, hpk, rfl⟩
        · simp [step, ha, notifies] at h
        · simp only [step, ha, notifies, beq_iff_eq] at h
          rw [← h, hk k g l hl]
          exact ⟨rfl, hpk⟩
    · rintro ⟨-, hpk⟩
      obtain ⟨-, g, l, hl, -⟩ := pollKey_spec hpk
      simp [step, poll_of_pollKey hpk hl, notifies, hk p g l hl]
  · simp [step_fst s i hi, notifies, hi]

/-- The account's message is the pending message of every ledger. -/
def PendingInv (s : Bitswap) (acc : PeerId → Pending) : Prop :=
  ∀ p g l, s.ledgers.entry? p = some (g, l) → l.msg = (acc p).message

theorem pendingInv_step (s : Bitswap) (i : Input) {acc : PeerId → Pending} (hk : Keyed s)
    (he : EventsOnly s) (h : PendingInv s acc) :
    PendingInv (s.step now i).2 (account now s i acc) := by
  intro p g l hp
  have hsent := notifies_step now s i p hk he
  unfold account
  rw [hp]
  rcases (step_effect now s i).entry hp with ⟨l₀, h₀, rfl⟩ | ⟨hg, hc, rfl⟩
  · simp only [h₀, Option.map_some', if_true]
    split
    next hn =>
      obtain ⟨rfl, hpk⟩ := hsent.mp hn
      simp [effect, hpk, Ledger.sendMessage, Pending.message]
    next hn =>
      rw [effect_msg now s i p l₀ fun hi hpk => hn (hsent.mpr ⟨hi, hpk⟩), h p g l₀ h₀]
      simp [Pending.message, MsgUpdate.applyAll_append]
  · have hfresh : (s.ledgers.entry? p).map (·.1) ≠ some g := fun hm => by
      obtain ⟨⟨g', l'⟩, h₀, rfl⟩ := Option.map_eq_some'.mp hm
      exact absurd hg (Nat.not_le.mpr (Lru.stamp_lt_next h₀))
    simp only [hfresh, if_false]
    rw [effect_msg now s i p _ fun hi => by subst hi; exact hc.elim]
    rfl

/-- **A sent message is the account's message.** In every run, a
`NotifyHandler` naming `p` carries the updates directed at `p` since its
ledger was created or last sent, in call order, applied to an empty
message whose `full` flag is set for the first message of the ledger. -/
theorem notify_message (config : BitswapConfig) (rs : List (Nat × Input)) (now : Nat)
    (p : PeerId) (m : BitswapMessage)
    (h : (((new config).run rs).2.poll now).1 = some (.notifyHandler p m)) :
    m = (accountRun (new config) (fun _ => ⟨true, []⟩) rs p).message := by
  have inv : ∀ (rs : List (Nat × Input)) (s : Bitswap) (acc : PeerId → Pending),
      Keyed s → EventsOnly s → PendingInv s acc →
      Keyed (s.run rs).2 ∧ EventsOnly (s.run rs).2 ∧ PendingInv (s.run rs).2 (accountRun s acc rs) := by
    intro rs
    induction rs with
    | nil => exact fun _ _ hk he h => ⟨hk, he, h⟩
    | cons r rs ih =>
      intro s acc hk he h
      exact ih _ _ (keyed_step r.1 s r.2 hk) (step_eventsOnly s r.2 he)
        (pendingInv_step r.1 s r.2 hk he h)
  obtain ⟨hk, he, hi⟩ := inv rs (new config) (fun _ => ⟨true, []⟩) (keyed_new config)
    (eventsOnly_new config) fun _ _ _ h => by simp [new, Lru.entry?_new] at h
  rcases poll_some _ he h with ⟨e, he⟩ | ⟨k, g, l, hl, -, -, ha⟩
  · cases he
  · obtain ⟨rfl, rfl⟩ := Action.notifyHandler.inj ha
    rw [hk k g l hl]
    exact hi k g l hl

/-- Connect peer 1 and send it a block: the next `poll` carries the block
in a message with `full` set, the first of its ledger. -/
theorem notify_message_of_send :
    (((new .default).run [(0, .connectionEstablished 1 0), (0, .sendBlock 1 7 [1])]).2.poll 0).1 =
      some (.notifyHandler 1 ((BitswapMessage.fresh true).addBlock ⟨7, [1]⟩)) ∧
    (BitswapMessage.fresh true).addBlock ⟨7, [1]⟩ = (accountRun (new .default) (fun _ => ⟨true, []⟩)
      [(0, .connectionEstablished 1 0), (0, .sendBlock 1 7 [1])] 1).message :=
  have h : (((new .default).run [(0, .connectionEstablished 1 0), (0, .sendBlock 1 7 [1])]).2.poll 0).1 =
      some (.notifyHandler 1 ((BitswapMessage.fresh true).addBlock ⟨7, [1]⟩)) := by decide
  ⟨h, notify_message _ _ _ _ _ h⟩

end Bitswap

end Beetle
