import Beetle.Bitswap.Connection

/-!
# Timer — the coalescing window

`Ledger::send_message` re-arms the ledger's `last_send` timer at
`now + MESSAGE_DELAY`, and `Ledger::poll` sends nothing before it elapses
(behaviour.rs:160-172, 221-227). The timer belongs to the ledger object:
`Ledger::new` arms a fresh one with `sleep(0)`, which has elapsed at once.

`sendLog` lists the sends of a run with the key and LRU stamp of the
ledger each came from; its times and peers are the run's `NotifyHandler`
actions. Over every run with non-decreasing times:

* `notify_spacing`: two sends from one ledger object are at least
  `MESSAGE_DELAY` apart;
* `notify_spacing_fails`: two sends naming one peer are not, when its
  ledger is evicted and recreated in between.
-/

namespace Beetle

namespace Bitswap

variable (now : Nat) {s : Bitswap}

/-- The call's result as a `NotifyHandler` naming a peer, with the time. -/
def notified (t : Nat) : Option Action → List (Nat × PeerId)
  | some (.notifyHandler p _) => [(t, p)]
  | _ => []

/-- The `NotifyHandler` actions of a run, with their times. -/
def notifications (rs : List (Nat × Input)) (results : List (Option Action)) : List (Nat × PeerId) :=
  ((rs.map (·.1)).zip results).flatMap fun r => notified r.1 r.2

/-- The send of the call `i`, if it sends: its time, the ledger's key and
the ledger's stamp. -/
def sent (s : Bitswap) : Input → List (Nat × PeerId × Nat)
  | .poll =>
    match s.pollKey now with
    | none => []
    | some k => ((s.ledgers.entry? k).map fun e => (now, k, e.1)).toList
  | _ => []

/-- The sends of a run. -/
def sendLog (s : Bitswap) : List (Nat × Input) → List (Nat × PeerId × Nat)
  | [] => []
  | (now, i) :: rs => sent now s i ++ sendLog (s.step now i).2 rs

theorem sent_eq_of_pollKey {k g : Nat} {l : Ledger} (hk : s.pollKey now = some k)
    (hl : s.ledgers.entry? k = some (g, l)) : s.sent now .poll = [(now, k, g)] := by
  simp [sent, hk, hl]

/-- A send is `poll`'s, from the ready ledger at `pollKey`. -/
theorem mem_sent {i : Input} {e : Nat × PeerId × Nat} (he : e ∈ s.sent now i) :
    i = .poll ∧ ∃ k g l, s.pollKey now = some k ∧ s.ledgers.entry? k = some (g, l) ∧
      l.ready now = true ∧ e = (now, k, g) := by
  cases i with
  | poll =>
    cases hpk : s.pollKey now with
    | none => simp [sent, hpk] at he
    | some k =>
      obtain ⟨-, g, l, hl, hr⟩ := pollKey_spec hpk
      rw [sent_eq_of_pollKey now hpk hl, List.mem_singleton] at he
      exact ⟨rfl, k, g, l, rfl, hl, hr, he⟩
  | _ => simp [sent] at he

/-- A call sends at most once. -/
theorem sent_pairwise (R : Nat × PeerId × Nat → Nat × PeerId × Nat → Prop) (s : Bitswap) (i : Input) :
    (s.sent now i).Pairwise R := by
  cases i with
  | poll =>
    cases hpk : s.pollKey now with
    | none => simp [sent, hpk]
    | some k => cases h : s.ledgers.entry? k <;> simp [sent, hpk, h]
  | _ => exact .nil

/-- The sends of a call are its `NotifyHandler` actions. -/
theorem sent_notified (s : Bitswap) (i : Input) (hk : Keyed s) (he : EventsOnly s) :
    (s.sent now i).map (fun e => (e.1, e.2.1)) = notified now (s.step now i).1 := by
  by_cases hi : i = .poll
  · subst hi
    cases hpk : s.pollKey now with
    | some k =>
      obtain ⟨-, g, l, hl, -⟩ := pollKey_spec hpk
      simp [sent_eq_of_pollKey now hpk hl, step, poll_of_pollKey hpk hl, notified, hk k g l hl]
    | none =>
      cases ha : (s.poll now).1 with
      | none => simp [sent, hpk, step, ha, notified]
      | some a =>
        rcases poll_some s he ha with ⟨e, rfl⟩ | ⟨k, g, l, -, -, hk', -⟩
        · simp [sent, hpk, step, ha, notified]
        · simp [hpk] at hk'
  · simp [step_fst s i hi, notified, sent, hi]

/-! ## What a call does to a timer -/

/-- A call leaves a ledger's deadline alone, or re-arms it at
`now + MESSAGE_DELAY`. -/
theorem effect_lastSend (s : Bitswap) (i : Input) (p : PeerId) (l : Ledger) :
    (s.effect now i p l).lastSend = l.lastSend ∨
      (s.effect now i p l).lastSend = now + messageDelay := by
  cases i with
  | poll => simp only [effect]; split <;> simp [Ledger.sendMessage]
  | event q ev =>
    cases ev with
    | connected => simp only [effect]; split <;> simp
    | message => simp [effect, inboundEffect_eq]
  | dialFailure peer error =>
    rcases peer with _ | q <;> cases error <;> first | exact .inl rfl | (simp only [effect]; split <;> simp)
  | _ => left; first | rfl | (simp only [effect]; split <;> rfl)

/-- Every send in `L` lies in the past and comes from an allocated stamp;
while its ledger is present, its deadline is at least `MESSAGE_DELAY`
after the send. -/
def TimerInv (s : Bitswap) (t : Nat) (L : List (Nat × PeerId × Nat)) : Prop :=
  ∀ e ∈ L, e.1 ≤ t ∧ e.2.2 < s.ledgers.next ∧
    ∀ l, s.ledgers.entry? e.2.1 = some (e.2.2, l) → e.1 + messageDelay ≤ l.lastSend

/-- Sends of one ledger object at least `MESSAGE_DELAY` apart. -/
def Spaced (a b : Nat × PeerId × Nat) : Prop := a.2 = b.2 → a.1 + messageDelay ≤ b.1

theorem timerInv_step (s : Bitswap) (i : Input) {t : Nat} {L : List (Nat × PeerId × Nat)}
    (h : TimerInv s t L) (ht : t ≤ now) :
    TimerInv (s.step now i).2 now (L ++ s.sent now i) ∧ ∀ a ∈ L, ∀ b ∈ s.sent now i, Spaced a b := by
  have hE := step_effect now s i
  refine ⟨fun e he => ?_, fun a ha b hb => ?_⟩
  · rcases List.mem_append.mp he with he | he
    · obtain ⟨h₁, h₂, h₃⟩ := h e he
      refine ⟨h₁.trans ht, h₂.trans_le hE.next_le, fun l hl => ?_⟩
      rcases hE.entry hl with ⟨l₀, h₀, rfl⟩ | ⟨hg, -⟩
      · rcases effect_lastSend now s i e.2.1 l₀ with h' | h' <;> rw [h']
        · exact h₃ l₀ h₀
        · omega
      · omega
    · obtain ⟨rfl, k, g, l, hpk, hl, -, rfl⟩ := mem_sent now he
      refine ⟨le_refl _, (Lru.stamp_lt_next hl).trans_le hE.next_le, fun l' hl' => ?_⟩
      rcases hE.entry hl' with ⟨l₀, h₀, rfl⟩ | ⟨hg, -⟩
      · simp [effect, hpk, Ledger.sendMessage]
      · exact absurd hg (Nat.not_le.mpr (Lru.stamp_lt_next hl))
  · obtain ⟨-, k, g, l, -, hl, hr, rfl⟩ := mem_sent now hb
    intro hab
    obtain ⟨-, -, h₃⟩ := h a ha
    rw [hab] at h₃
    have := h₃ l hl
    simp only [Ledger.ready, Bool.and_eq_true, decide_eq_true_eq] at hr
    show a.1 + messageDelay ≤ now
    omega

theorem sendLog_spaced :
    ∀ (rs : List (Nat × Input)) (s : Bitswap) (t : Nat) (L : List (Nat × PeerId × Nat)),
    TimerInv s t L → L.Pairwise Spaced → (∀ r ∈ rs, t ≤ r.1) → (rs.map (·.1)).Pairwise (· ≤ ·) →
    (L ++ s.sendLog rs).Pairwise Spaced
  | [], _, _, _, _, hL, _, _ => by simpa [sendLog] using hL
  | (now, i) :: rs, s, t, L, h, hL, ht, hrs => by
    obtain ⟨hnow, hrs⟩ := List.pairwise_cons.mp hrs
    obtain ⟨h', hsp⟩ := timerInv_step now s i h (ht _ (List.mem_cons_self _ _))
    have hL' : (L ++ s.sent now i).Pairwise Spaced :=
      List.pairwise_append.mpr ⟨hL, sent_pairwise now _ s i, hsp⟩
    simpa [sendLog] using sendLog_spaced rs _ now _ h' hL' (fun r hr => hnow r.1 (List.mem_map_of_mem _ hr)) hrs

theorem sendLog_notified : ∀ (rs : List (Nat × Input)) (s : Bitswap), Keyed s → EventsOnly s →
    (s.sendLog rs).map (fun e => (e.1, e.2.1)) = notifications rs (s.run rs).1
  | [], _, _, _ => rfl
  | (now, i) :: rs, s, hk, he => by
    have := sendLog_notified rs _ (keyed_step now s i hk) (step_eventsOnly s i he)
    simp only [notifications] at this ⊢
    simp [sendLog, run, sent_notified now s i hk he, this]

/-- **Sends of one ledger are `MESSAGE_DELAY` apart.** Over every run with
non-decreasing times, the sends are the run's `NotifyHandler` actions, and
two sends from one ledger object are at least `MESSAGE_DELAY` apart. -/
theorem notify_spacing (config : BitswapConfig) (rs : List (Nat × Input))
    (hrs : (rs.map (·.1)).Pairwise (· ≤ ·)) :
    ((new config).sendLog rs).map (fun e => (e.1, e.2.1)) = notifications rs ((new config).run rs).1 ∧
      ((new config).sendLog rs).Pairwise fun a b => a.2 = b.2 → a.1 + messageDelay ≤ b.1 :=
  ⟨sendLog_notified rs _ (keyed_new config) (eventsOnly_new config),
    sendLog_spaced rs _ 0 [] (fun _ h => nomatch h) List.Pairwise.nil (fun _ _ => Nat.zero_le _) hrs⟩

/-- Peer 1 connects and is sent a block at 0 ms and another at 300 ms,
each followed by a poll. -/
def twoSends : List (Nat × Input) :=
  [(0, .connectionEstablished 1 0), (0, .sendBlock 1 7 [1]), (0, .poll), (300, .sendBlock 1 8 [2]), (300, .poll)]

/-- Both polls send to peer 1, from one ledger, 300 ms apart. -/
theorem notify_spacing_of_two_sends :
    (twoSends.map (·.1)).Pairwise (· ≤ ·) ∧
    notifications twoSends ((new .default).run twoSends).1 = [(0, 1), (300, 1)] ∧
    ((new .default).sendLog twoSends).map (fun e => (e.1, e.2.1)) =
      notifications twoSends ((new .default).run twoSends).1 ∧
    ((new .default).sendLog twoSends).Pairwise fun a b => a.2 = b.2 → a.1 + messageDelay ≤ b.1 :=
  have h : (twoSends.map (·.1)).Pairwise (· ≤ ·) := by decide
  ⟨h, by decide, notify_spacing .default _ h⟩

/-- With room for one ledger: peer 1 is sent a message at time 0; its
ledger is evicted at time 1 and recreated `Connected` at time 2 with a
timer that has already elapsed, so peer 1 is sent another message at
time 3. -/
theorem notify_spacing_fails :
    ¬ ∀ (config : BitswapConfig) (rs : List (Nat × Input)), (rs.map (·.1)).Pairwise (· ≤ ·) →
      ConsistentRun (fun _ => 0) rs →
      (notifications rs ((new config).run rs).1).Pairwise fun a b => a.2 = b.2 → a.1 + messageDelay ≤ b.1 := by
  intro h
  have hrs := h ⟨20000, 1⟩ [(0, .connectionEstablished 1 0), (0, .sendBlock 1 7 [1]), (0, .poll),
    (1, .sendBlock 2 7 [1]), (2, .event 1 (.connected .bitswap120)), (2, .sendBlock 1 7 [1]), (3, .poll)]
    (by decide) (by simp [ConsistentRun, Consistent, afterInput])
  revert hrs
  decide

end Bitswap

end Beetle
