import Beetle.Hamt.Lookup

/-!
# Failures — a failing loader never gives a wrong answer

The loader behind `Hamt::get` and `Hamt::children` is a blockstore or the
network, where a block may be missing or a request may time out. Every load
goes through `InnerNode::load_from_link`, whose error both readers pass on
with `?` (hamt.rs:92-125, 290-337, 363-394): neither turns it into `None`
nor skips the pointer. So a loader that answers as another does, or fails,
can only cut a read short:

* `getValue_degrades`: `get_value` returns what it returns under the other
  loader, or an error;
* `children_degrades`: `children` yields the other's whole listing, or its
  first links and then an error;
* `failing_loader_sound` states both for `Hamt::get` and `Hamt::children`.

Nothing is assumed of the tree.
-/

namespace Beetle

namespace Hamt

open Unixfs (Link)

/-- `flaky` answers as `loader` does, or fails: a blockstore that may lose
blocks or time out. -/
def Degrades (flaky loader : Loader) : Prop := ∀ c, flaky c = loader c ∨ ∃ e, flaky c = .error e

/-- `r'` is `r`, or fails with an error. -/
def AgreesOrFails {α : Type} (r' r : Except Fault α) : Prop := r' = r ∨ ∃ m, r' = .error (.err m)

namespace AgreesOrFails

variable {α β : Type}

theorem refl (r : Except Fault α) : AgreesOrFails r r := .inl rfl

theorem bind {x' x : Except Fault α} {f' f : α → Except Fault β} (hx : AgreesOrFails x' x)
    (hf : ∀ a, AgreesOrFails (f' a) (f a)) : AgreesOrFails (x' >>= f') (x >>= f) := by
  rcases hx with rfl | ⟨m, rfl⟩
  · cases x' with
    | error e => exact refl _
    | ok a => exact hf a
  · exact .inr ⟨m, rfl⟩

end AgreesOrFails

theorem loadFromLink_degrades {flaky loader : Loader} (h : Degrades flaky loader) (p : Link) :
    AgreesOrFails (InnerNode.loadFromLink flaky p) (InnerNode.loadFromLink loader p) := by
  rcases h p.cid with he | ⟨e, he⟩
  · unfold InnerNode.loadFromLink
    rw [he]
    exact .refl _
  · exact .inr ⟨e, by simp only [InnerNode.loadFromLink, he]⟩

/-- `get_value` under a degraded loader: the same result, or an error. -/
theorem getValue_degrades {flaky loader : Loader} (h : Degrades flaky loader) (key : String) :
    ∀ (f : Nat) (node : Node) (hb : HashBits),
      AgreesOrFails (node.getValue flaky key f hb) (node.getValue loader key f hb)
  | 0, _, _ => .refl _
  | f + 1, node, hb => by
    simp only [Node.getValue]
    refine .bind (.refl _) fun ⟨idx, hb'⟩ => ?_
    split
    · exact .refl _
    refine .bind (.refl _) fun _ => .bind (.refl _) fun child => .bind (loadFromLink_degrades h child) fun inner => ?_
    cases inner with
    | node n value =>
      refine .bind (.refl _) fun name => ?_
      split
      · exact .refl _
      · exact getValue_degrades h key f n hb'
    | leaf link value => exact .refl _

/-! ## Enumeration -/

/-- The stream `y'` is `y`, or stops with an error after the first links
of `y`. -/
def Yield.Truncates (y' y : Yield) : Prop :=
  y' = y ∨ (∃ m, y'.stop = some (.err m)) ∧ y'.links <+: y.links

/-- Wherever the enumeration `o` yields, `o'` yields it or a truncation. -/
def Truncated (o' o : Option Yield) : Prop := ∀ y, o = some y → ∃ y', o' = some y' ∧ y'.Truncates y

theorem Truncated.refl (o : Option Yield) : Truncated o o := fun y hy => ⟨y, hy, .inl rfl⟩

/-- A stream run after another starts with the first one's links. -/
theorem Yield.links_andThen {y r : Yield} {k : Unit → Option Yield} (h : y.andThen k = some r) :
    y.links <+: r.links := by
  unfold Yield.andThen at h
  split at h
  · cases h; exact List.prefix_refl _
  · obtain ⟨z, -, rfl⟩ := Option.map_eq_some'.mp h
    exact List.prefix_append _ _

theorem Yield.Truncates.andThen {y' y : Yield} (hy : y'.Truncates y) (k' k : Unit → Option Yield)
    (hk : Truncated (k' ()) (k ())) : Truncated (y'.andThen k') (y.andThen k) := by
  intro r hr
  rcases hy with rfl | ⟨⟨m, hm⟩, hpre⟩
  · unfold Yield.andThen at hr ⊢
    cases hs : y'.stop with
    | some _ =>
      rw [hs] at hr
      exact ⟨r, hr, .inl rfl⟩
    | none =>
      rw [hs] at hr
      obtain ⟨z, hz, rfl⟩ := Option.map_eq_some'.mp hr
      obtain ⟨z', hz', hzz⟩ := hk z hz
      refine ⟨_, by rw [hz']; rfl, ?_⟩
      rcases hzz with rfl | ⟨hstop, hp⟩
      · exact .inl rfl
      · exact .inr ⟨hstop, (List.prefix_append_right_inj _).mpr hp⟩
  · exact ⟨y', by simp only [Yield.andThen, hm], .inr ⟨⟨m, hm⟩, hpre.trans (Yield.links_andThen hr)⟩⟩

theorem pointersChildren_degrades {each' each : Link → Option Yield} (h : ∀ p, Truncated (each' p) (each p)) :
    ∀ ps, Truncated (pointersChildren each' ps) (pointersChildren each ps)
  | [] => Truncated.refl _
  | p :: ps => fun r hr => by
    obtain ⟨y, hy, hr⟩ := Option.bind_eq_some.mp hr
    obtain ⟨y', hy', hyy⟩ := h p y hy
    obtain ⟨r', hr', hrr⟩ := hyy.andThen (fun _ => pointersChildren each' ps) (fun _ => pointersChildren each ps)
      (pointersChildren_degrades h ps) r hr
    exact ⟨r', by simp only [pointersChildren, hy', Option.some_bind, hr'], hrr⟩

theorem innerChildren_degrades {sub' sub : Node → Option Yield} (h : ∀ n, Truncated (sub' n) (sub n))
    (c : InnerNode) : Truncated (c.children sub') (c.children sub) := by
  cases c with
  | node n _ => exact h n
  | leaf _ v => cases v <;> first | exact h _ | exact Truncated.refl _

theorem pointerChildren_degrades {flaky loader : Loader} (h : Degrades flaky loader)
    {sub' sub : Node → Option Yield} (hs : ∀ n, Truncated (sub' n) (sub n)) (pad : Nat) (p : Link) :
    Truncated (pointerChildren flaky sub' pad p) (pointerChildren loader sub pad p) := by
  unfold pointerChildren
  split
  · exact Truncated.refl _
  · split
    · exact Truncated.refl _
    · rcases loadFromLink_degrades h p with he | ⟨m, he⟩
      · rw [he]
        split
        · exact Truncated.refl _
        · exact innerChildren_degrades hs _
      · rw [he]
        exact fun y _ => ⟨_, rfl, .inr ⟨⟨m, rfl⟩, List.nil_prefix⟩⟩

/-- `children` under a degraded loader: the same stream, or a truncation
of it that ends in an error. -/
theorem children_degrades {flaky loader : Loader} (h : Degrades flaky loader) :
    ∀ (f : Nat) (node : Node), Truncated (node.children flaky f) (node.children loader f)
  | 0, _ => fun _ => nofun
  | f + 1, node => pointersChildren_degrades (pointerChildren_degrades h (children_degrades h f) _) node.pointers

/-- **A failing loader never gives a wrong answer.** When `flaky` answers
as `loader` does or fails, on any tree, `Hamt::get` returns what it returns
under `loader` or an error, and wherever `Hamt::children` yields a stream
under `loader`, it yields under `flaky` that stream, or its first links and
then an error: never a wrong entry, a missed one, or `None` for a key that
is there. -/
theorem failing_loader_sound {flaky loader : Loader} (h : Degrades flaky loader) (root : Node) :
    (∀ key, root.get flaky key = root.get loader key ∨ ∃ m, root.get flaky key = .error (.err m)) ∧
      ∀ f y, root.children loader f = some y → ∃ y', root.children flaky f = some y' ∧
        (y' = y ∨ (∃ m, y'.stop = some (.err m)) ∧ y'.links <+: y.links) :=
  ⟨fun key => getValue_degrades h key _ _ _, fun f => children_degrades h f root⟩

/-- The sample blocks with the sub-shard `00` of `emptyKeyRoot` and the
sharded directory `d1` of `nestedRoot` lost. -/
def lossyLoader : Loader := fun c =>
  if c = 1 ∨ c = 3 then .error "block not found" else sampleLoader c

theorem lossyLoader_degrades : Degrades lossyLoader sampleLoader := fun c => by
  by_cases hc : c = 1 ∨ c = 3
  · exact .inr ⟨_, if_pos hc⟩
  · exact .inl (if_neg hc)

theorem failing_loader_sound_lossyLoader :
    Degrades lossyLoader sampleLoader ∧
    (∀ key, nestedRoot.get lossyLoader key = nestedRoot.get sampleLoader key ∨
        ∃ m, nestedRoot.get lossyLoader key = .error (.err m)) ∧
      ∀ f y, nestedRoot.children sampleLoader f = some y → ∃ y', nestedRoot.children lossyLoader f = some y' ∧
        (y' = y ∨ (∃ m, y'.stop = some (.err m)) ∧ y'.links <+: y.links) :=
  ⟨lossyLoader_degrades, failing_loader_sound lossyLoader_degrades nestedRoot⟩

example : nestedRoot.get lossyLoader "f1517" = .error (.err "block not found") ∧
    emptyKeyRoot.children lossyLoader maxDepth = some ⟨[], some (.err "block not found")⟩ := by
  decide

end Hamt

end Beetle
