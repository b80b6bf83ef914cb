import Beetle.Bitswap.Frame

/-!
# Drain — polls at one instant

The swarm calls `poll` until it returns `Pending` (behaviour.rs:635-654).
At one instant, such a burst hands out every queued event, oldest first,
and then, ledger by ledger in the LRU's iteration order, the pending
message of every ledger that is ready: connected, non-empty, its timer
elapsed. A ledger it sends for is not ready again at that instant, since
`send_message` empties its message and re-arms its timer at
`now + MESSAGE_DELAY`, and no other ledger changes. So no ready ledger is
passed over and none is sent twice, whatever the other ledgers hold
(`polls_drain`).
-/

namespace Beetle

/-- What a burst of polls at `now` does to one ledger: a ready ledger
hands out its message, any other is left alone. -/
def Ledger.sendReady (now : Nat) (l : Ledger) : Ledger :=
  if l.ready now then (l.sendMessage now).2 else l

namespace Ledger

theorem ready_sendMessage (l : Ledger) (now : Nat) : (l.sendMessage now).2.ready now = false := by
  simp [ready, sendMessage, messageDelay]

theorem sendReady_of_ready {l : Ledger} {now : Nat} (h : l.ready now = true) :
    l.sendReady now = (l.sendMessage now).2 := if_pos h

theorem sendReady_of_not_ready {l : Ledger} {now : Nat} (h : l.ready now = false) :
    l.sendReady now = l := if_neg (by simp [h])

end Ledger

theorem Lru.eq_of_entries {κ ν : Type} {c d : Lru κ ν} (hcap : c.cap = d.cap) (he : c.entries = d.entries)
    (hn : c.next = d.next) : c = d := by
  cases c; cases d; simp_all

/-- A map that fixes every element of the list. -/
theorem map_eq_self {α : Type} {f : α → α} {l : List α} (h : ∀ a ∈ l, f a = a) : l.map f = l :=
  (List.map_congr_left h).trans (List.map_id' l)

namespace Bitswap

variable (now : Nat)

/-- The entries of the ledger LRU: peer, stamp and ledger. -/
abbrev Entries := List (PeerId × Nat × Ledger)

/-- One send of a burst, on the ledger entries: the first ready entry
`(k, g, l)` is the head of the ready ones and, once `k` holds
`send_message`'s ledger, the rest are what is ready; and what the burst
does to the entries is the same before and after that send. -/
theorem send_first_ready : ∀ (es : Entries), (es.map (·.1)).Nodup →
    ∀ {k g l}, es.find? (fun e => e.2.2.ready now) = some (k, g, l) →
      es.filter (fun e => e.2.2.ready now) =
          (k, g, l) :: (es.map fun e => (e.1, e.2.1, if e.1 = k then (l.sendMessage now).2 else e.2.2)).filter
            (fun e => e.2.2.ready now) ∧
        ((es.map fun e => (e.1, e.2.1, if e.1 = k then (l.sendMessage now).2 else e.2.2)).map
            fun e => (e.1, e.2.1, e.2.2.sendReady now)) =
          es.map fun e => (e.1, e.2.1, e.2.2.sendReady now)
  | [], _, _, _, _, h => by cases h
  | (k', g', l') :: es, hnd, k, g, l, h => by
    obtain ⟨hk', hnd⟩ := List.nodup_cons.mp hnd
    -- the other keys are not `k'`, so the write leaves their entries alone
    have hrest : ∀ k'' ∈ es.map (·.1), k'' ≠ k' := fun _ h he => hk' (he ▸ h)
    cases hr : l'.ready now
    · have hf : es.find? (fun e => e.2.2.ready now) = some (k, g, l) := by
        simpa [List.find?_cons, hr] using h
      have hne : k' ≠ k := fun he => hk' (by
        subst he; exact List.mem_map_of_mem (·.1) (List.mem_of_find?_eq_some hf))
      obtain ⟨h₁, h₂⟩ := send_first_ready es hnd hf
      refine ⟨by simp [List.filter_cons, hr, hne, h₁], ?_⟩
      simp only [List.map_cons, hne, if_false, Ledger.sendReady_of_not_ready hr] at h₂ ⊢
      rw [h₂]
    · obtain ⟨rfl, rfl, rfl⟩ : k' = k ∧ g' = g ∧ l' = l := by simpa [List.find?_cons, hr] using h
      have hsame : (es.map fun e => (e.1, e.2.1, if e.1 = k' then (l'.sendMessage now).2 else e.2.2)) = es :=
        map_eq_self fun e he => by simp [hrest e.1 (List.mem_map_of_mem _ he)]
      simp [List.filter_cons, hr, hsame, Ledger.ready_sendMessage, Ledger.sendReady_of_ready hr,
        Ledger.sendReady_of_not_ready (Ledger.ready_sendMessage l' now)]

variable {now}

/-- `poll` with an empty queue and a ready ledger: the first ready
ledger's message goes out and its key holds `send_message`'s ledger. -/
theorem poll_first_ready {s : Bitswap} (h : s.events = []) {k g : Nat} {l : Ledger}
    (hf : s.ledgers.entries.find? (fun e => e.2.2.ready now) = some (k, g, l)) :
    s.poll now = (some (.notifyHandler l.peerId l.msg),
      { s with ledgers := s.ledgers.set k (l.sendMessage now).2 }) := by
  rw [poll_of_nil now h, hf]

/-- Polls at an instant where nothing is queued and nothing is ready
return nothing and change nothing. -/
theorem run_polls_idle {s : Bitswap} (h : s.poll now = (none, s)) :
    ∀ m, s.run (List.replicate m (now, .poll)) = (List.replicate m none, s)
  | 0 => rfl
  | m + 1 => by simp [run, step, h, run_polls_idle h m, List.replicate_succ]

/-- The ledger half of a burst: with an empty queue, polls send for the
ready ledgers `R`, in order, and then return nothing. -/
theorem run_polls_ledgers : ∀ (R : Entries) (s : Bitswap) (m : Nat), s.events = [] →
    s.ledgers.entries.filter (fun e => e.2.2.ready now) = R →
    s.run (List.replicate (R.length + m) (now, .poll)) =
      (R.map (fun e => some (.notifyHandler e.2.2.peerId e.2.2.msg)) ++ List.replicate m none,
        { s with ledgers := s.ledgers.mapValues fun _ l => l.sendReady now })
  | [], s, m, h, hR => by
    have hnone : ∀ e ∈ s.ledgers.entries, e.2.2.ready now = false := fun e he => by
      by_contra hr
      have : e ∈ s.ledgers.entries.filter (fun e => e.2.2.ready now) :=
        List.mem_filter.mpr ⟨he, by simpa using hr⟩
      rw [hR] at this; cases this
    have hpoll : s.poll now = (none, s) := by
      rw [poll_of_nil now h, ← List.filter_head?, hR]; rfl
    have hsame : s.ledgers.mapValues (fun _ l => l.sendReady now) = s.ledgers :=
      Lru.eq_of_entries rfl (map_eq_self fun e he => by simp [Ledger.sendReady_of_not_ready (hnone e he)]) rfl
    rw [hsame, run_polls_idle hpoll]
    simp
  | (k, g, l) :: R, s, m, h, hR => by
    have hf : s.ledgers.entries.find? (fun e => e.2.2.ready now) = some (k, g, l) := by
      rw [← List.filter_head?, hR]; rfl
    obtain ⟨h₁, h₂⟩ := send_first_ready now s.ledgers.entries s.ledgers.keys_nodup hf
    have ih := run_polls_ledgers R { s with ledgers := s.ledgers.set k (l.sendMessage now).2 } m h
      (by rw [hR] at h₁; exact (List.cons.inj h₁).2.symm)
    rw [show ((k, g, l) :: R).length + m = (R.length + m) + 1 by simp; omega, List.replicate_succ]
    have hls : (s.ledgers.set k (l.sendMessage now).2).mapValues (fun _ l => l.sendReady now) =
        s.ledgers.mapValues fun _ l => l.sendReady now := Lru.eq_of_entries rfl h₂ rfl
    simp only [run, step, poll_first_ready h hf, ih, hls, List.map_cons, List.cons_append]

/-- The event half of a burst: queued events come out first, oldest
first, and leave the rest of the state alone. -/
theorem run_polls_events : ∀ (evs : List Action) (s : Bitswap) (n : Nat), s.events = evs →
    s.run (List.replicate (evs.length + n) (now, .poll)) =
      (evs.map some ++ ({ s with events := [] }.run (List.replicate n (now, .poll))).1,
        ({ s with events := [] }.run (List.replicate n (now, .poll))).2)
  | [], s, n, h => by
    obtain ⟨events, kp, ls, wl, cl⟩ := s
    subst h
    simp
  | e :: evs, s, n, h => by
    rw [List.length_cons, Nat.add_right_comm, List.replicate_succ]
    simp only [run, step, poll_of_cons now h, run_polls_events evs { s with events := evs } n rfl,
      List.map_cons, List.cons_append]

/-- **A burst of polls serves everything once.** From any state, polls at
one instant return every queued event, oldest first, then the pending
message of every ready ledger, once each, in the LRU's iteration order, and
then nothing: afterwards the queue is empty, exactly the ready ledgers
have sent their message and re-armed their timer, and the rest of the
state is as it was. -/
theorem polls_drain (s : Bitswap) (now m : Nat) :
    s.run (List.replicate (s.events.length + (s.ledgers.entries.filter fun e => e.2.2.ready now).length + m)
        (now, .poll)) =
      (s.events.map some ++
          (s.ledgers.entries.filter fun e => e.2.2.ready now).map
            (fun e => some (.notifyHandler e.2.2.peerId e.2.2.msg)) ++ List.replicate m none,
        { s with events := [], ledgers := s.ledgers.mapValues fun _ l => l.sendReady now }) := by
  rw [Nat.add_assoc, run_polls_events _ s _ rfl,
    run_polls_ledgers _ { s with events := [] } m rfl rfl, List.append_assoc]

end Bitswap

end Beetle
