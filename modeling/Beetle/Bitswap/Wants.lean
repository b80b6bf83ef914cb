import Beetle.Bitswap.Pending

/-!
# Wants — ledger wants against the global wantlist

The global `wantlist` records the local wants not yet satisfied; each call
that changes it directs the matching update at the ledgers
(behaviour.rs:335-423, 538-584). `wantsEffect` is what a call does to the
global wantlist, and `Tracks` says that the updates a call directs at one
ledger agree with it on Want-Blocks; `TracksHave` says the same of
Want-Haves, but for the blocks the ledger's own peer delivers. Over every
run from `Bitswap::new`:

* `wants_tracked`: a Want-Block pending in any ledger is a Want-Block of
  the global wantlist; a want of either kind has a global entry unless the
  ledger's peer delivered a block for its CID earlier in the run; right
  after `cancel_block(c)` no ledger wants `c`; right after a block for `c`
  arrives from `q`, no ledger holds a Want-Block for `c` and none but
  `q`'s wants `c` at all;
* `wants_tracked_fails`: the sender's `remove_block` drops only a
  Want-Block, so a Want-Have it holds for the received block outlives the
  global entry.
-/

namespace Beetle

/-- The updates that only remove wantlist entries. -/
def MsgUpdate.removes : MsgUpdate → Bool
  | .cancel _ | .removeBlock _ | .removeWantBlock _ => true
  | _ => false

namespace Wantlist

variable {w : Wantlist} {c : Cid}

theorem kind?_wantBlock_of_block (cid : Cid) (priority : Priority) (h : w.kind? c = some .block) :
    (w.wantBlock cid priority).kind? c = some .block := by
  rw [kind?_wantBlock]; split <;> simp_all

/-- `want_have_block` never demotes a Want-Block. -/
theorem kind?_wantHaveBlock_of_block (cid : Cid) (priority : Priority) (h : w.kind? c = some .block) :
    (w.wantHaveBlock cid priority).kind? c = some .block := by
  rw [kind?_wantHaveBlock, if_neg]
  · exact h
  · rintro ⟨rfl, hne⟩; exact hne h

theorem kind?_removeWantBlock_of_block (cid : Cid) (h : w.kind? c = some .block) :
    (w.removeWantBlock cid).kind? c = some .block := by
  rw [kind?_removeWantBlock, if_neg]
  · exact h
  · rintro ⟨rfl, hh⟩; rw [h] at hh; cases hh

theorem kind?_cancelBlock_of_block {cid : Cid} (h : w.kind? c = some .block) (hc : c ≠ cid) :
    (w.cancelBlock cid).kind? c = some .block := by
  rw [kind?_cancelBlock, if_neg hc]
  exact h

theorem kind?_wantBlock_ne_none (cid : Cid) (priority : Priority) (h : c = cid ∨ w.kind? c ≠ none) :
    (w.wantBlock cid priority).kind? c ≠ none := by
  rw [kind?_wantBlock]; split <;> simp_all

theorem kind?_wantHaveBlock_ne_none (cid : Cid) (priority : Priority) (h : c = cid ∨ w.kind? c ≠ none) :
    (w.wantHaveBlock cid priority).kind? c ≠ none := by
  rw [kind?_wantHaveBlock]
  split
  · exact Option.some_ne_none _
  · rcases h with rfl | h
    · simp_all
    · exact h

/-- A Want-Block left by `cancel_block` or `remove_block` is not for their
CID and was there before. -/
theorem block_of_kind?_cancelBlock {cid : Cid} (h : (w.cancelBlock cid).kind? c = some .block) :
    c ≠ cid ∧ w.kind? c = some .block := by
  rw [kind?_cancelBlock] at h
  split at h
  · cases h
  · exact ⟨‹_›, h⟩

theorem block_of_kind?_removeBlock {cid : Cid} (h : (w.removeBlock cid).kind? c = some .block) :
    c ≠ cid ∧ w.kind? c = some .block := by
  rw [kind?_removeBlock] at h
  split at h
  · cases h
  · rename_i hn
    exact ⟨fun hc => hn ⟨hc, hc ▸ h⟩, h⟩

end Wantlist

namespace Bitswap

/-- What a call does to the global wantlist. -/
def wantsEffect : Input → Wantlist → Wantlist
  | .wantBlock cid priority _, w => w.wantBlock cid priority
  | .findProviders cid priority, w => w.wantHaveBlock cid priority
  | .cancelBlock cid, w => w.cancelBlock cid
  | .cancelWantBlock cid, w => w.removeWantBlock cid
  | .event _ (.message message), w =>
    (message.blockPresences.filter (·.isHave)).foldl (fun w bp => w.removeWantBlock bp.cid)
      (message.blocks.foldl (fun w b => w.cancelBlock b.cid) w)
  | _, w => w

variable (now : Nat) {s : Bitswap}

@[simp] theorem updateLedger_wantlist (q : PeerId) (f : Ledger → Ledger) :
    (s.updateLedger now q f).wantlist = s.wantlist := by
  unfold updateLedger withLedger; split <;> rfl

/-- A loop whose every turn changes the wantlist by `G`. -/
theorem foldl_wantlist {α : Type} (step : Bitswap → α → Bitswap) (G : α → Wantlist → Wantlist)
    (h : ∀ s a, (step s a).wantlist = G a s.wantlist) :
    ∀ (as : List α) (s : Bitswap), (as.foldl step s).wantlist = as.foldl (fun w a => G a w) s.wantlist
  | [], _ => rfl
  | a :: as, s => by simp only [List.foldl_cons, foldl_wantlist step G h as, h]

@[simp] theorem foldl_updateLedger_wantlist (f : PeerId → Ledger → Ledger) :
    ∀ (ps : List PeerId) (s : Bitswap), (ps.foldl (fun s p => s.updateLedger now p (f p)) s).wantlist = s.wantlist
  | [], _ => rfl
  | p :: ps, _ => (foldl_updateLedger_wantlist f ps _).trans (updateLedger_wantlist now p (f p))

theorem foldl_pushEvent_wantlist {α : Type} (ev : α → BitswapEvent) :
    ∀ (as : List α) (s : Bitswap), (as.foldl (fun s a => s.pushEvent (ev a)) s).wantlist = s.wantlist
  | [], _ => rfl
  | a :: as, s => foldl_pushEvent_wantlist ev as (s.pushEvent (ev a))

theorem poll_wantlist (s : Bitswap) : (s.poll now).2.wantlist = s.wantlist := by
  cases h : s.events with
  | cons e es => rw [poll_of_cons now h]
  | nil =>
    rw [poll_of_nil now h]
    split <;> rfl

theorem step_wantlist (s : Bitswap) (i : Input) :
    (s.step now i).2.wantlist = wantsEffect i s.wantlist := by
  cases i with
  | wantBlock cid priority providers =>
    exact foldl_updateLedger_wantlist now (fun _ l => l.wantBlock cid priority) _ _
  | findProviders cid priority =>
    exact congrArg (·.wantHaveBlock cid priority)
      (foldl_updateLedger_wantlist now (fun _ l => l.wantHaveBlock cid priority) _ s)
  | sendBlock | sendHaveBlock => exact updateLedger_wantlist now _ _
  | connectionEstablished q other =>
    simp only [step, injectConnectionEstablished]; split <;> simp [addPeer, wantsEffect]
  | connectionClosed q remaining =>
    simp only [step, injectConnectionClosed]; split <;> simp [wantsEffect]
  | dialFailure peer error =>
    rcases peer with _ | q <;> cases error <;> simp [step, injectDialFailure, wantsEffect]
  | event q ev =>
    cases ev with
    | connected => simp [step, injectEvent, wantsEffect]
    | message message =>
      simp only [step, injectEvent, injectMessage, receiveBlocks_eq q _ message s rfl, wantsEffect,
        foldl_pushEvent_wantlist]
      rw [foldl_wantlist (fun s (bp : BlockPresence) => s.receiveHave q bp)
          (fun bp w => w.removeWantBlock bp.cid) (fun _ _ => rfl),
        foldl_wantlist (fun s (b : Block) => s.receiveBlock q b) (fun b w => w.cancelBlock b.cid)
          (fun _ _ => rfl)]
  | poll => exact poll_wantlist now s
  | _ => rfl

/-- **What a call leaves as a ledger's pending message**: the empty one
`poll` leaves after sending, or the updates the call directs at the ledger
applied to its message before or to a new ledger's. -/
theorem step_msg (s : Bitswap) (i : Input) {p : PeerId} {g : Nat} {l : Ledger}
    (hp : (s.step now i).2.ledgers.entry? p = some (g, l)) :
    l.msg = .fresh false ∨ ∃ m, l.msg = MsgUpdate.applyAll (s.directed i p) m ∧
      (m = .fresh true ∨ ∃ g₀ l₀, s.ledgers.entry? p = some (g₀, l₀) ∧ m = l₀.msg) := by
  rcases (step_effect now s i).entry hp with ⟨l₀, h₀, rfl⟩ | ⟨-, hcr, rfl⟩
  · by_cases hs : i = .poll ∧ s.pollKey now = some p
    · obtain ⟨rfl, hpk⟩ := hs
      exact .inl (by simp [effect, hpk, Ledger.sendMessage])
    · exact .inr ⟨_, effect_msg now s i p l₀ fun hi hpk => hs ⟨hi, hpk⟩, .inr ⟨g, l₀, h₀, rfl⟩⟩
  · exact .inr ⟨_, effect_msg now s i p _ fun hi => by subst hi; exact hcr.elim, .inl rfl⟩

/-! ## Ledger updates against the global wantlist -/

/-- The updates `us` of a ledger's message and the change `G` of the global
wantlist agree on Want-Blocks: if every Want-Block of the message was one
of the wantlist, so it is after both. -/
def Tracks (us : List MsgUpdate) (G : Wantlist → Wantlist) : Prop :=
  ∀ c m w, (m.wantlist.kind? c = some .block → w.kind? c = some .block) →
    (MsgUpdate.applyAll us m).wantlist.kind? c = some .block → (G w).kind? c = some .block

namespace Tracks

theorem append {us vs : List MsgUpdate} {G₁ G₂ : Wantlist → Wantlist} (h₁ : Tracks us G₁)
    (h₂ : Tracks vs G₂) : Tracks (us ++ vs) (fun w => G₂ (G₁ w)) := fun c m w h => by
  rw [MsgUpdate.applyAll_append]
  exact h₂ c _ _ (h₁ c m w h)

theorem nil {G : Wantlist → Wantlist} (hG : ∀ c w, w.kind? c = some .block → (G w).kind? c = some .block) :
    Tracks [] G := fun c _ w h hm => hG c w (h hm)

theorem foldl {α : Type} (f : α → MsgUpdate) (G : α → Wantlist → Wantlist) (h : ∀ a, Tracks [f a] (G a)) :
    ∀ as : List α, Tracks (as.map f) fun w => as.foldl (fun w a => G a w) w
  | [] => nil fun _ _ h => h
  | a :: as => (h a).append (foldl f G h as)

theorem of_ite {c : Prop} [Decidable c] {u v : MsgUpdate} {G : Wantlist → Wantlist}
    (hu : Tracks [u] G) (hv : Tracks [v] G) : Tracks [if c then u else v] G := by
  split
  · exact hu
  · exact hv

theorem of_ite_nil {c : Prop} [Decidable c] {u : MsgUpdate} {G : Wantlist → Wantlist}
    (hu : Tracks [u] G) (hG : ∀ c w, w.kind? c = some .block → (G w).kind? c = some .block) :
    Tracks (if c then [u] else []) G := by
  split
  · exact hu
  · exact nil hG

end Tracks

theorem tracks_wantBlock (cid : Cid) (priority : Priority) :
    Tracks [.wantBlock cid priority] (·.wantBlock cid priority) := fun c m w h => by
  simp only [MsgUpdate.applyAll, List.foldl, MsgUpdate.apply, BitswapMessage.modifyWantlist,
    Wantlist.kind?_wantBlock]
  split
  · exact id
  · exact h

theorem tracks_wantHave (cid : Cid) (priority : Priority) :
    Tracks [.wantHave cid priority] (·.wantHaveBlock cid priority) := fun c m w h hm => by
  simp only [MsgUpdate.applyAll, List.foldl, MsgUpdate.apply, BitswapMessage.modifyWantlist,
    Wantlist.kind?_wantHaveBlock] at hm
  split at hm
  · cases hm
  · exact Wantlist.kind?_wantHaveBlock_of_block cid priority (h hm)

/-- `cancel_block` and `remove_block` both leave no Want-Block for their
CID; the global wantlist cancels it. -/
theorem tracks_cancelBlock (cid : Cid) (u : MsgUpdate) (hu : u = .cancel cid ∨ u = .removeBlock cid) :
    Tracks [u] (·.cancelBlock cid) := fun c m w h hm => by
  have hc : c ≠ cid ∧ m.wantlist.kind? c = some .block := by
    rcases hu with rfl | rfl
    · exact Wantlist.block_of_kind?_cancelBlock hm
    · exact Wantlist.block_of_kind?_removeBlock hm
  exact Wantlist.kind?_cancelBlock_of_block (h hc.2) hc.1

theorem tracks_removeWantBlock (cid : Cid) :
    Tracks [.removeWantBlock cid] (·.removeWantBlock cid) := fun c m w h hm => by
  simp only [MsgUpdate.applyAll, List.foldl, MsgUpdate.apply, BitswapMessage.modifyWantlist,
    Wantlist.kind?_removeWantBlock] at hm
  split at hm
  · cases hm
  · exact Wantlist.kind?_removeWantBlock_of_block cid (h hm)

/-- Payloads and presences leave the wantlist alone. -/
theorem tracks_payload (u : MsgUpdate) (hu : (∃ cid data, u = .addBlock cid data) ∨ ∃ cid, u = .have cid) :
    Tracks [u] id := fun c m w h hm => by
  rcases hu with ⟨cid, data, rfl⟩ | ⟨cid, rfl⟩ <;> exact h hm

/-- **Each call's updates track its change of the global wantlist.** -/
theorem directed_tracks (s : Bitswap) (i : Input) (p : PeerId) : Tracks (s.directed i p) (wantsEffect i) := by
  cases i with
  | wantBlock cid priority providers =>
    exact Tracks.of_ite_nil (tracks_wantBlock cid priority) fun _ _ h =>
      Wantlist.kind?_wantBlock_of_block cid priority h
  | findProviders cid priority =>
    exact Tracks.of_ite_nil (tracks_wantHave cid priority) fun _ _ h =>
      Wantlist.kind?_wantHaveBlock_of_block cid priority h
  | cancelBlock cid => exact tracks_cancelBlock cid _ (.inl rfl)
  | cancelWantBlock cid => exact tracks_removeWantBlock cid
  | sendBlock q cid data =>
    exact Tracks.of_ite_nil (tracks_payload _ (.inl ⟨cid, data, rfl⟩)) fun _ _ h => h
  | sendHaveBlock q cid => exact Tracks.of_ite_nil (tracks_payload _ (.inr ⟨cid, rfl⟩)) fun _ _ h => h
  | event q ev =>
    cases ev with
    | connected => exact Tracks.nil fun _ _ h => h
    | message message =>
      exact (Tracks.foldl _ (fun (b : Block) w => w.cancelBlock b.cid)
        (fun b => Tracks.of_ite (tracks_cancelBlock _ _ (.inr rfl)) (tracks_cancelBlock _ _ (.inl rfl)))
        message.blocks).append
        (Tracks.foldl _ (fun (bp : BlockPresence) w => w.removeWantBlock bp.cid)
          (fun bp => tracks_removeWantBlock bp.cid) _)
  | _ => exact Tracks.nil fun _ _ h => h

/-! ## The invariant -/

/-- A Want-Block pending in any ledger is a Want-Block of the global
wantlist. -/
def WantInv (s : Bitswap) : Prop :=
  ∀ p g l c, s.ledgers.entry? p = some (g, l) → l.msg.wantlist.kind? c = some .block →
    s.wantlist.kind? c = some .block

@[simp] theorem fresh_kind (full : Bool) (c : Cid) : (BitswapMessage.fresh full).wantlist.kind? c = none :=
  rfl

theorem wantInv_step (s : Bitswap) (i : Input) (h : WantInv s) : WantInv (s.step now i).2 := by
  intro p g l c hp hc
  rw [step_wantlist]
  rcases step_msg now s i hp with hm | ⟨m, hm, hm₀⟩ <;> rw [hm] at hc
  · simp at hc
  · refine directed_tracks s i p c _ _ (fun hb => ?_) hc
    rcases hm₀ with rfl | ⟨g₀, l₀, h₀, rfl⟩
    · simp at hb
    · exact h p g₀ l₀ c h₀ hb

/-! ## Want-Haves and the sender's exception -/

/-- The updates `us` and the change `G` of the global wantlist agree on
Want-Haves, but for the CIDs `d`: if every Want-Have of the message had a
global entry, so it has after both. -/
def TracksHave (us : List MsgUpdate) (G : Wantlist → Wantlist) (d : Cid → Prop) : Prop :=
  ∀ c m w, (m.wantlist.kind? c = some .have → w.kind? c ≠ none) →
    (MsgUpdate.applyAll us m).wantlist.kind? c = some .have → (G w).kind? c ≠ none ∨ d c

namespace TracksHave

variable {d d' : Cid → Prop}

theorem append {us vs : List MsgUpdate} {G₁ G₂ : Wantlist → Wantlist} (h₁ : TracksHave us G₁ d)
    (h₂ : TracksHave vs G₂ d) : TracksHave (us ++ vs) (fun w => G₂ (G₁ w)) d := fun c m w h hm => by
  rw [MsgUpdate.applyAll_append] at hm
  by_cases hd : d c
  · exact .inr hd
  · exact h₂ c _ _ (fun hm' => (h₁ c m w h hm').resolve_right hd) hm

theorem mono {us : List MsgUpdate} {G : Wantlist → Wantlist} (h : TracksHave us G d) (hd : ∀ c, d c → d' c) :
    TracksHave us G d' := fun c m w hw hm => (h c m w hw hm).imp_right (hd c)

theorem nil {G : Wantlist → Wantlist} (hG : ∀ c w, w.kind? c ≠ none → (G w).kind? c ≠ none) :
    TracksHave [] G d := fun c _ w h hm => .inl (hG c w (h hm))

theorem foldl {α : Type} (f : α → MsgUpdate) (G : α → Wantlist → Wantlist) :
    ∀ as : List α, (∀ a ∈ as, TracksHave [f a] (G a) d) →
      TracksHave (as.map f) (fun w => as.foldl (fun w a => G a w) w) d
  | [], _ => nil fun _ _ h => h
  | a :: as, h =>
    (h a (List.mem_cons_self _ _)).append (foldl f G as fun b hb => h b (List.mem_cons_of_mem _ hb))

theorem of_ite_nil {c : Prop} [Decidable c] {u : MsgUpdate} {G : Wantlist → Wantlist}
    (hu : TracksHave [u] G d) (hG : ∀ c w, w.kind? c ≠ none → (G w).kind? c ≠ none) :
    TracksHave (if c then [u] else []) G d := by
  split
  · exact hu
  · exact nil hG

end TracksHave

section

variable {d : Cid → Prop}

theorem tracksHave_wantBlock (cid : Cid) (priority : Priority) :
    TracksHave [.wantBlock cid priority] (·.wantBlock cid priority) d := fun c m w h hm => by
  simp only [MsgUpdate.applyAll, List.foldl, MsgUpdate.apply, BitswapMessage.modifyWantlist,
    Wantlist.kind?_wantBlock] at hm
  refine .inl (Wantlist.kind?_wantBlock_ne_none cid priority ?_)
  split at hm
  · exact .inl ‹_›
  · exact .inr (h hm)

theorem tracksHave_wantHave (cid : Cid) (priority : Priority) :
    TracksHave [.wantHave cid priority] (·.wantHaveBlock cid priority) d := fun c m w h hm => by
  simp only [MsgUpdate.applyAll, List.foldl, MsgUpdate.apply, BitswapMessage.modifyWantlist,
    Wantlist.kind?_wantHaveBlock] at hm
  refine .inl (Wantlist.kind?_wantHaveBlock_ne_none cid priority ?_)
  split at hm
  · exact .inl ‹_ ∧ _›.1
  · exact .inr (h hm)

theorem tracksHave_cancel (cid : Cid) : TracksHave [.cancel cid] (·.cancelBlock cid) d := fun c m w h hm => by
  simp only [MsgUpdate.applyAll, List.foldl, MsgUpdate.apply, BitswapMessage.modifyWantlist,
    Wantlist.kind?_cancelBlock] at hm ⊢
  split at hm
  · cases hm
  · rw [if_neg ‹_›]
    exact .inl (h hm)

/-- The sender's `remove_block` keeps a Want-Have for its CID while the
global wantlist cancels it: the one exception. -/
theorem tracksHave_removeBlock (cid : Cid) :
    TracksHave [.removeBlock cid] (·.cancelBlock cid) (· = cid) := fun c m w h hm => by
  simp only [MsgUpdate.applyAll, List.foldl, MsgUpdate.apply, BitswapMessage.modifyWantlist,
    Wantlist.kind?_removeBlock] at hm
  by_cases hc : c = cid
  · exact .inr hc
  · rw [if_neg fun h' => hc h'.1] at hm
    rw [Wantlist.kind?_cancelBlock, if_neg hc]
    exact .inl (h hm)

theorem tracksHave_removeWantBlock (cid : Cid) :
    TracksHave [.removeWantBlock cid] (·.removeWantBlock cid) d := fun c m w h hm => by
  simp only [MsgUpdate.applyAll, List.foldl, MsgUpdate.apply, BitswapMessage.modifyWantlist,
    Wantlist.kind?_removeWantBlock] at hm ⊢
  split at hm
  · cases hm
  · rename_i hn
    have hc : c ≠ cid := fun hc => hn ⟨hc, hc ▸ hm⟩
    rw [if_neg fun h' => hc h'.1]
    exact .inl (h hm)

theorem tracksHave_payload (u : MsgUpdate) (hu : (∃ cid data, u = .addBlock cid data) ∨ ∃ cid, u = .have cid) :
    TracksHave [u] id d := fun c m w h hm => by
  rcases hu with ⟨cid, data, rfl⟩ | ⟨cid, rfl⟩ <;> exact .inl (h hm)

end

/-- The call `i` is an inbound message from `p` with a block for `c`. -/
def Delivers (i : Input) (p : PeerId) (c : Cid) : Prop :=
  ∃ message, i = .event p (.message message) ∧ c ∈ message.blocks.map (·.cid)

/-- **Each call's updates track its change of the global wantlist on
Want-Haves**, but for the blocks the peer itself delivers. -/
theorem directed_tracksHave (s : Bitswap) (i : Input) (p : PeerId) :
    TracksHave (s.directed i p) (wantsEffect i) (Delivers i p) := by
  cases i with
  | wantBlock cid priority providers =>
    exact TracksHave.of_ite_nil (tracksHave_wantBlock cid priority) fun _ _ h =>
      Wantlist.kind?_wantBlock_ne_none cid priority (.inr h)
  | findProviders cid priority =>
    exact TracksHave.of_ite_nil (tracksHave_wantHave cid priority) fun _ _ h =>
      Wantlist.kind?_wantHaveBlock_ne_none cid priority (.inr h)
  | cancelBlock cid => exact tracksHave_cancel cid
  | cancelWantBlock cid => exact tracksHave_removeWantBlock cid
  | sendBlock q cid data =>
    exact TracksHave.of_ite_nil (tracksHave_payload _ (.inl ⟨cid, data, rfl⟩)) fun _ _ h => h
  | sendHaveBlock q cid => exact TracksHave.of_ite_nil (tracksHave_payload _ (.inr ⟨cid, rfl⟩)) fun _ _ h => h
  | event q ev =>
    cases ev with
    | connected => exact TracksHave.nil fun _ _ h => h
    | message message =>
      refine (TracksHave.foldl _ (fun (b : Block) w => w.cancelBlock b.cid) message.blocks fun b hb => ?_).append
        (TracksHave.foldl _ (fun (bp : BlockPresence) w => w.removeWantBlock bp.cid) _
          fun bp _ => tracksHave_removeWantBlock bp.cid)
      split
      · rename_i hpq
        exact (tracksHave_removeBlock b.cid).mono fun c hc =>
          ⟨message, by rw [hpq], hc ▸ List.mem_map_of_mem _ hb⟩
      · exact tracksHave_cancel b.cid
  | _ => exact TracksHave.nil fun _ _ h => h

/-- A Want-Have pending in a ledger has a global entry, unless `D` excuses
the ledger's peer for its CID. -/
def HaveInv (D : PeerId → Cid → Prop) (s : Bitswap) : Prop :=
  ∀ p g l c, s.ledgers.entry? p = some (g, l) → l.msg.wantlist.kind? c = some .have →
    s.wantlist.kind? c ≠ none ∨ D p c

theorem haveInv_new (config : BitswapConfig) : HaveInv (fun _ _ => False) (new config) :=
  fun _ _ _ _ h => by simp [new, Lru.entry?_new] at h

theorem haveInv_step (s : Bitswap) (i : Input) {D : PeerId → Cid → Prop} (h : HaveInv D s) :
    HaveInv (fun p c => D p c ∨ Delivers i p c) (s.step now i).2 := by
  intro p g l c hp hc
  rw [step_wantlist]
  by_cases hD : D p c
  · exact .inr (.inl hD)
  refine Or.imp_right .inr ?_
  rcases step_msg now s i hp with hm | ⟨m, hm, hm₀⟩ <;> rw [hm] at hc
  · simp at hc
  · refine directed_tracksHave s i p c _ _ (fun hv => ?_) hc
    rcases hm₀ with rfl | ⟨g₀, l₀, h₀, rfl⟩
    · simp at hv
    · exact (h p g₀ l₀ c h₀ hv).resolve_right hD

/-- Over a run the exception grows by the blocks each peer delivers. -/
theorem haveInv_run : ∀ (rs : List (Nat × Input)) (s : Bitswap) {D : PeerId → Cid → Prop}, HaveInv D s →
    HaveInv (fun p c => D p c ∨ ∃ t message, (t, Input.event p (.message message)) ∈ rs ∧
      c ∈ message.blocks.map (·.cid)) (s.run rs).2
  | [], _, _, h => fun p g l c hp hc => (h p g l c hp hc).imp_right .inl
  | (now, i) :: rs, s, _, h => fun p g l c hp hc =>
    (haveInv_run rs _ (haveInv_step now s i h) p g l c hp hc).imp_right fun hx => by
      rcases hx with (hD | ⟨message, rfl, hm⟩) | ⟨t, message, hmem, hm⟩
      · exact .inl hD
      · exact .inr ⟨now, message, List.mem_cons_self _ _, hm⟩
      · exact .inr ⟨t, message, List.mem_cons_of_mem _ hmem, hm⟩

/-! ## Right after a cancel or a received block -/

theorem kind_applyAll_removes (c : Cid) :
    ∀ (us : List MsgUpdate) (m : BitswapMessage), (∀ u ∈ us, u.removes = true) →
    (MsgUpdate.applyAll us m).wantlist.kind? c = m.wantlist.kind? c ∨
      (MsgUpdate.applyAll us m).wantlist.kind? c = none
  | [], _, _ => .inl rfl
  | u :: us, m, h => by
    have hu : (u.apply m).wantlist.kind? c = m.wantlist.kind? c ∨ (u.apply m).wantlist.kind? c = none := by
      have := h u (List.mem_cons_self _ _)
      cases u <;> simp only [MsgUpdate.removes, Bool.false_eq_true] at this <;>
        simp only [MsgUpdate.apply, BitswapMessage.modifyWantlist, Wantlist.kind?_cancelBlock,
          Wantlist.kind?_removeBlock, Wantlist.kind?_removeWantBlock] <;> split <;> simp
    rcases kind_applyAll_removes c us (u.apply m) fun v hv => h v (List.mem_cons_of_mem _ hv) with h' | h'
    · rcases hu with hu | hu
      · exact .inl (h'.trans hu)
      · exact .inr (h'.trans hu)
    · exact .inr h'

/-- What a received block leaves of a want for its CID in `p`'s ledger,
`q` being the sender: no Want-Block, and nothing unless `p` is `q`. -/
def Cleared (p q : PeerId) (k : Option WantType) : Prop := k ≠ some .block ∧ (p ≠ q → k = none)

theorem cleared_applyAll_removes {p q : PeerId} {c : Cid} (us : List MsgUpdate) (m : BitswapMessage)
    (hus : ∀ u ∈ us, u.removes = true) (h : Cleared p q (m.wantlist.kind? c)) :
    Cleared p q ((MsgUpdate.applyAll us m).wantlist.kind? c) := by
  rcases kind_applyAll_removes c us m hus with h' | h' <;> rw [h']
  · exact h
  · exact ⟨nofun, fun _ => rfl⟩

theorem cleared_blocks (p q : PeerId) (c : Cid) :
    ∀ (bs : List Block) (m : BitswapMessage), c ∈ bs.map (·.cid) →
    Cleared p q ((MsgUpdate.applyAll (bs.map fun b => if p = q then .removeBlock b.cid else .cancel b.cid)
      m).wantlist.kind? c)
  | [], _, hc => nomatch hc
  | b :: bs, m, hc => by
    by_cases hbs : c ∈ bs.map (·.cid)
    · exact cleared_blocks p q c bs _ hbs
    · have hb : c = b.cid := by simpa [hbs] using hc
      subst hb
      have hstep : Cleared p q
          (((if p = q then MsgUpdate.removeBlock b.cid else .cancel b.cid).apply m).wantlist.kind? b.cid) := by
        by_cases hp : p = q
        · rw [if_pos hp]
          exact ⟨fun h => (Wantlist.block_of_kind?_removeBlock (w := m.wantlist) h).1 rfl,
            fun h => (h hp).elim⟩
        · simp [hp, MsgUpdate.apply, BitswapMessage.modifyWantlist, Cleared]
      refine cleared_applyAll_removes (bs.map _) _ (fun u hu => ?_) hstep
      obtain ⟨b', -, rfl⟩ := List.mem_map.mp hu
      split <;> rfl

/-- Right after an inbound message from `q` with a block for `c`. -/
theorem receive_clears (s : Bitswap) (q : PeerId) (message : BitswapMessage) (c : Cid)
    (hc : c ∈ message.blocks.map (·.cid)) :
    ∀ p g l, (s.step now (.event q (.message message))).2.ledgers.entry? p = some (g, l) →
      Cleared p q (l.msg.wantlist.kind? c) := by
  intro p g l hp
  rcases (step_effect now s _).entry hp with ⟨l₀, -, rfl⟩ | ⟨-, hcr, -⟩
  · rw [effect_msg now s (.event q (.message message)) p l₀ nofun]
    simp only [directed, MsgUpdate.applyAll_append]
    exact cleared_applyAll_removes _ _ (fun u hu => by obtain ⟨bp, -, rfl⟩ := List.mem_map.mp hu; rfl)
      (cleared_blocks p q c _ _ hc)
  · exact hcr.elim

/-- Right after `cancel_block(c)`. -/
theorem cancel_clears (s : Bitswap) (c : Cid) :
    ∀ p g l, (s.step now (.cancelBlock c)).2.ledgers.entry? p = some (g, l) →
      l.msg.wantlist.kind? c = none := by
  intro p g l hp
  rcases (step_effect now s _).entry hp with ⟨l₀, -, rfl⟩ | ⟨-, hcr, -⟩
  · simp [effect, Ledger.cancelBlock, BitswapMessage.modifyWantlist]
  · exact hcr.elim

/-- **Ledger wants against the global wantlist.** In every run from
`Bitswap::new`, a Want-Block pending in a ledger is a Want-Block of the
global wantlist, and a want of either kind has a global entry unless the
ledger's own peer delivered a block for it earlier in the run. Right after `cancel_block(c)` no ledger wants `c`; right
after an inbound message from `q` with a block for `c`, no ledger holds a
Want-Block for `c` and no ledger but `q`'s wants `c` at all. -/
theorem wants_tracked (config : BitswapConfig) (rs : List (Nat × Input)) (now : Nat) :
    (∀ p g l c, ((new config).run rs).2.ledgers.entry? p = some (g, l) →
      l.msg.wantlist.kind? c = some .block → ((new config).run rs).2.wantlist.kind? c = some .block) ∧
    (∀ p g l c, ((new config).run rs).2.ledgers.entry? p = some (g, l) → l.msg.wantlist.kind? c ≠ none →
      ((new config).run rs).2.wantlist.kind? c ≠ none ∨
        ∃ t message, (t, Input.event p (.message message)) ∈ rs ∧ c ∈ message.blocks.map (·.cid)) ∧
    (∀ c p g l, (((new config).run rs).2.step now (.cancelBlock c)).2.ledgers.entry? p = some (g, l) →
      l.msg.wantlist.kind? c = none) ∧
    (∀ q message c p g l, c ∈ message.blocks.map (·.cid) →
      (((new config).run rs).2.step now (.event q (.message message))).2.ledgers.entry? p = some (g, l) →
        l.msg.wantlist.kind? c ≠ some .block ∧ (p ≠ q → l.msg.wantlist.kind? c = none)) := by
  have hb := run_preserves WantInv (fun s now i => wantInv_step now s i) rs (new config)
    fun _ _ _ _ h => by simp [new, Lru.entry?_new] at h
  refine ⟨hb, fun p g l c hp hc => ?_, fun c => cancel_clears now _ c,
    fun q message c p g l hc => receive_clears now _ q message c hc p g l⟩
  obtain ⟨k, hk⟩ := Option.ne_none_iff_exists'.mp hc
  cases k
  · exact .inl (by rw [hb p g l c hp hk]; exact Option.some_ne_none _)
  · exact (haveInv_run rs _ (haveInv_new config) p g l c hp hk).imp_right (·.resolve_left id)

/-- Peer 1 is asked for a Want-Have of 5, then sends block 5: the global
wantlist drops 5, while peer 1's own `remove_block` leaves its Want-Have. -/
theorem wants_tracked_fails :
    ¬ ∀ (config : BitswapConfig) (rs : List (Nat × Input)) (p : PeerId) (g : Nat) (l : Ledger) (c : Cid),
      ((new config).run rs).2.ledgers.entry? p = some (g, l) → l.msg.wantlist.kind? c ≠ none →
        ((new config).run rs).2.wantlist.kind? c ≠ none := by
  intro h
  exact h .default [(0, .addPeer 1 none), (0, .findProviders 5 0),
    (0, .event 1 (.message ⟨.empty, [⟨5, [1]⟩], []⟩))] 1 0
    (((Ledger.new 1 0).wantHaveBlock 5 0).removeBlock 5) 5 (by decide) (by decide) (by decide)

end Bitswap

end Beetle
