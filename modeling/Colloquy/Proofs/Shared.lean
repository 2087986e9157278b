import Colloquy.Proofs.Loaded
import Colloquy.Proofs.Mirrored

/-!
# Sessions on one tree

Two sessions on one tree and one heap take turns (`Session.turns`). As long as no effect leads into
what the tree holds, a call on one of them leaves alone what the other one holds
(`Session.Apart.same`), so that one goes on as if it had the heap to itself (`Session.Apart.turns`),
and the tree stays as it is (`Session.tree_untouched`). So it is with trees all of whose effects
write at the top of the context (`Session.Tops.avoids`).
-/

namespace Colloquy

namespace Heap

/-! ## Heaps in which others go on -/

/-- The names of what is below a bound, and fresh ones in step from there on. -/
def rebased (f : Ref → Ref) (n m : ℕ) (r : Ref) : Ref := if r < n then f r else m + (r - n)

section rebased

variable {f : Ref → Ref} {n m : ℕ}

theorem rebased_lt {r : Ref} (hr : r < n) : rebased f n m r = f r := if_pos hr

theorem rebased_add (k : ℕ) : rebased f n m (n + k) = m + k := by
  rw [rebased, if_neg (Nat.not_lt.2 (Nat.le_add_right n k)), Nat.add_sub_cancel_left]

end rebased

/-- A heap still mirrors another one after it has grown and has kept the cells that do so. -/
theorem Mirrors.rebase {f : Ref → Ref} {S G : Ref → Prop} {h k k' : Heap} (H : Mirrors f S h k)
    (image : ∀ r, S r → r < h.size → G (f r))
    (tight : ∀ r, G r → ∀ q ∈ refsOf (k.cell r), q < k.size) (same : Same G k k')
    (grown : k.size ≤ k'.size) : Mirrors (rebased f h.size k'.size) S h k' where
  repeats := {
    cell := fun r hr => by
      rcases Nat.lt_or_ge r h.size with hs | hs
      · have hc : k.cell (f r) = (h.cell r).renamed f := H.repeats.cell r hr
        rw [rebased_lt hs, same _ (image r hr hs), hc]
        refine List.map_congr_left fun e he => congrArg (Prod.mk e.1) (Value.rename_congr ?_)
        intro q hq
        have hq := mem_refsOf.2 ⟨e, he, hq⟩
        have hf : f q ∈ refsOf (k.cell (f r)) := by
          rw [hc, refsOf_renamed]
          exact List.mem_map_of_mem hq
        refine (rebased_lt ?_).symm
        exact (H.lt_iff (H.repeats.closed r hr q hq)).1 (tight _ (image r hr hs) _ hf)
      · obtain ⟨i, rfl⟩ := Nat.exists_eq_add_of_le hs
        rw [rebased_add, cell_of_size_le (Nat.le_add_right _ _),
          cell_of_size_le (Nat.le_add_right _ _)]
        rfl
    closed := H.repeats.closed
    inj := fun r q hr hq he => by
      -- names below the bound lead to what was there, and all others do not
      have apart : ∀ p, S p → p < h.size → ∀ i, f p ≠ k'.size + i := fun p hp hs i =>
        Nat.ne_of_lt ((H.inside p hp hs).trans_le (grown.trans (Nat.le_add_right _ _)))
      rcases Nat.lt_or_ge r h.size with hs | hs
      · rw [rebased_lt hs] at he
        rcases Nat.lt_or_ge q h.size with hs' | hs'
        · rw [rebased_lt hs'] at he
          exact H.repeats.inj r q hr hq he
        · obtain ⟨i, rfl⟩ := Nat.exists_eq_add_of_le hs'
          rw [rebased_add] at he
          exact absurd he (apart r hr hs i)
      · obtain ⟨i, rfl⟩ := Nat.exists_eq_add_of_le hs
        rw [rebased_add] at he
        rcases Nat.lt_or_ge q h.size with hs' | hs'
        · rw [rebased_lt hs'] at he
          exact absurd he.symm (apart q hq hs' i)
        · obtain ⟨j, rfl⟩ := Nat.exists_eq_add_of_le hs'
          rw [rebased_add] at he
          rw [Nat.add_left_cancel he] }
  fresh i := ⟨(H.fresh i).1, rebased_add i⟩
  inside r hr hs := by
    rw [rebased_lt hs]
    exact (H.inside r hr hs).trans_le grown

end Heap

section session
variable [Text.Halves]

namespace Session

section inside

variable {G : Ref → Prop} {s : Session}

omit [Text.Halves] in
/-- A session mirrors itself under the same names. -/
theorem Inside.mirrors (hs : s.Inside G) :
    s.Mirrors id (fun r => G r ∨ s.store.context.heap.size ≤ r) s := by
  have hf := hs.fenced
  refine ⟨⟨⟨⟨⟨?_, fun k => ⟨.inr (Nat.le_add_right _ k), rfl⟩, fun _ _ => id⟩, ?_, ?_⟩, rfl, rfl⟩,
    rfl⟩, rfl, ?_, ?_⟩
  · refine ⟨fun r _ => ?_, fun r hr q hq => (hf.context.heap.closed r hr q hq).1, fun _ _ _ _ => id⟩
    simp only [Value.rename_id, List.map_id']
    rfl
  · exact (Value.rename_id _).symm
  · exact fun r hr => (hf.context.root r hr).1
  · exact fun e he r hr => ⟨(hf.tree e he r hr).1, rfl⟩
  · exact fun c hc e he r hr => ⟨(hf.offered c hc e he r hr).1, rfl⟩

omit [Text.Halves] in
/-- A session still mirrors another one when others have written to its heap elsewhere. -/
theorem Inside.mirrors_onHeap {f : Ref → Ref} {S : Ref → Prop} {v : Session} (hs : s.Inside G)
    (H : v.Mirrors f S s)
    (image : ∀ r, S r → r < v.store.context.heap.size → G (f r)) {h : Heap}
    (same : Heap.Same G s.store.context.heap h) (grown : s.store.context.heap.size ≤ h.size) :
    v.Mirrors (Heap.rebased f v.store.context.heap.size h.size) S (s.onHeap h) := by
  obtain ⟨w, rfl⟩ : ∃ w, s = { v with world := w } := ⟨_, H.rest⟩
  obtain ⟨st, rfl⟩ : ∃ st, w = { v.world with store := st } := ⟨_, H.world.rest⟩
  have Hc := H.world.store.context
  -- what the sessions refer to is there already, so it keeps its name
  have old : ∀ r, S r → f r < st.context.heap.size →
      Heap.rebased f v.store.context.heap.size h.size r = f r := fun r hr hf =>
    Heap.rebased_lt ((Hc.heap.lt_iff hr).1 hf)
  have kept : ∀ e : Effect, e.Kept f S → (∀ r, e.ref? = some r → r < st.context.heap.size) →
      e.Kept (Heap.rebased f v.store.context.heap.size h.size) S := by
    intro e he hlt r hr
    obtain ⟨hS, hf⟩ := he r hr
    exact ⟨hS, (old r hS (hf.symm ▸ hlt r hr)).trans hf⟩
  have heap : Heap.Mirrors (Heap.rebased f v.store.context.heap.size h.size) S
      v.store.context.heap h :=
    Hc.heap.rebase image (fun r hr q hq => (hs.fenced.context.heap.closed r (.inl hr) q hq).2) same
      grown
  refine ⟨⟨⟨⟨heap, ?_, Hc.rooted⟩, H.world.store.flags, H.world.store.quests⟩, rfl⟩, rfl, ?_, ?_⟩
  · change st.context.root = _
    rw [Hc.root]
    refine Value.rename_congr fun r hr => (old r (Hc.rooted r hr) ?_).symm
    refine (hs.fenced.context.root (f r) ?_).2
    rw [store, Hc.root, Value.ref?_rename, hr]
    rfl
  · exact fun e he => kept e (H.tree e he) fun r hr => (hs.fenced.tree e he r hr).2
  · exact fun c hc e he => kept e (H.offered c hc e he) fun r hr =>
      (hs.fenced.offered c hc e he r hr).2

end inside

/-- What mirrors the cells of a session mirrors those that a call adds to them. -/
theorem Mirrors.image_step {f : Ref → Ref} {S G : Ref → Prop} {u v : Session}
    (H : v.Mirrors f S u) (image : ∀ r, S r → r < v.store.context.heap.size → G (f r)) (c : Call)
    {r : Ref} (hr : S r) (hs : r < (v.step c).1.store.context.heap.size) :
    Since G u (u.step c).1 (f r) := by
  rcases Nat.lt_or_ge r v.store.context.heap.size with hl | hl
  · exact .inl (image r hr hl)
  · have hin := (H.step c).1.world.store.context.heap.inside r hr hs
    obtain ⟨i, rfl⟩ := Nat.exists_eq_add_of_le hl
    have hf : f (v.store.context.heap.size + i) = u.store.context.heap.size + i :=
      (H.world.store.context.heap.fresh i).2
    rw [hf] at hin ⊢
    exact .inr ⟨Nat.le_add_right _ _, hin⟩

/-! ## Turns -/

/-- Two sessions on one heap after a call on the first or on the second of them. -/
def turn (s u : Session) : Call ⊕ Call → Session × Session
  | .inl c => ((s.step c).1, u.onHeap (s.step c).1.store.context.heap)
  | .inr c => (s.onHeap (u.step c).1.store.context.heap, (u.step c).1)

/-- Two sessions on one heap after calls on them in turn. -/
def turns : Session → Session → List (Call ⊕ Call) → Session × Session
  | s, u, [] => (s, u)
  | s, u, t :: ts => turns (turn s u t).1 (turn s u t).2 ts

/-- What the calls on the second of two sessions come to. -/
def replies : Session → Session → List (Call ⊕ Call) → List (Except Fault StepResult)
  | _, _, [] => []
  | s, u, .inl c :: ts => replies (turn s u (.inl c)).1 (turn s u (.inl c)).2 ts
  | s, u, .inr c :: ts => (u.step c).2 :: replies (turn s u (.inr c)).1 (turn s u (.inr c)).2 ts

/-- No effect of calls on two sessions leads into some cells. -/
def BothMiss (N : Ref → Prop) : Session → Session → List (Call ⊕ Call) → Prop
  | _, _, [] => True
  | s, u, t :: ts => t.elim (s.Misses N) (u.Misses N) ∧
    BothMiss N (turn s u t).1 (turn s u t).2 ts

/-- Two sessions on one heap, each with cells of its own, that have nothing in common but what the
effects of trees write. -/
structure Apart (T G G' : Ref → Prop) (s u : Session) : Prop where
  heap : u.store.context.heap = s.store.context.heap
  left : s.Inside G
  right : u.Inside G'
  common : ∀ r, G r → G' r → T r
  held : ∀ r, T r → G r ∧ G' r
  roots : ∀ r, s.store.context.root.ref? = some r ∨ u.store.context.root.ref? = some r → ¬ T r

namespace Apart

variable {T G G' : Ref → Prop} {s u : Session}

omit [Text.Halves] in
theorem symm (a : Apart T G G' s u) : Apart T G' G u s :=
  ⟨a.heap.symm, a.right, a.left, fun r hr hr' => a.common r hr' hr, fun r hr => (a.held r hr).symm,
    fun r hr => a.roots r hr.symm⟩

/-- A call on one session leaves alone what the other one holds. -/
theorem same (a : Apart T G G' s u) {c : Call} (misses : s.Misses T c) :
    Heap.Same G' s.store.context.heap (s.step c).1.store.context.heap := by
  have bound : ∀ r, G' r → r < s.store.context.heap.size := fun r hr => a.heap ▸ a.right.bound r hr
  have hroot : ∀ r, s.store.context.root.ref? = some r → ¬ G' r := fun r hr hr' =>
    a.roots r (.inl hr) (a.common r ((a.left.fenced.context.root r hr).old) hr')
  refine step_same ⟨bound, hroot⟩ ((misses_outside a.left.fenced c).join (fun r hr => ?_) misses)
  by_cases hG : G r
  · exact .inr (a.common r hG hr)
  · exact .inl fun h => h.elim hG (Nat.not_le.2 (bound r hr))

/-- Two sessions are still apart after a call on one of them. -/
theorem step (a : Apart T G G' s u) {c : Call} (misses : s.Misses T c) :
    Apart T (Since G s (s.step c).1) G' (s.step c).1
      (u.onHeap (s.step c).1.store.context.heap) where
  heap := rfl
  left := a.left.step c
  right := a.right.onHeap (a.heap ▸ a.same misses) (a.heap ▸ (size_upheld.step s c).1)
  common r hr hr' := hr.elim (fun hr => a.common r hr hr') fun hr =>
    absurd (a.heap ▸ a.right.bound r hr') (Nat.not_lt.2 hr.1)
  held r hr := ⟨.inl (a.held r hr).1, (a.held r hr).2⟩
  roots r hr := by
    rw [(size_upheld.step s c).2] at hr
    exact a.roots r hr

/-- While no effect leads into what the tree holds, that stays as it is, and the second of two
sessions goes on as one does that has the heap to itself. -/
theorem turns : ∀ (ts : List (Call ⊕ Call)) {s u v : Session} {G G' : Ref → Prop} {f : Ref → Ref}
    {S : Ref → Prop}, Apart T G G' s u → v.Mirrors f S u →
    (∀ r, S r → r < v.store.context.heap.size → G' (f r)) → BothMiss T s u ts →
    Heap.Same T s.store.context.heap (Session.turns s u ts).2.store.context.heap ∧
      replies s u ts = v.outcomes (ts.filterMap Sum.getRight?) ∧
      ∃ f S, (v.steps (ts.filterMap Sum.getRight?)).Mirrors f S (Session.turns s u ts).2
  | [], s, u, v, G, G', f, S, a, H, _, _ => by
    refine ⟨fun r _ => ?_, rfl, f, S, H⟩
    exact congrArg (Heap.cell · r) a.heap
  | .inl c :: ts, s, u, v, G, G', f, S, a, H, image, ⟨hc, hts⟩ => by
    have hsame := a.same hc
    have hgrown := (size_upheld.step s c).1
    have a₁ := a.step hc
    have H₁ := a.right.mirrors_onHeap H image (a.heap ▸ hsame) (a.heap ▸ hgrown)
    obtain ⟨same, hr, hm⟩ := turns ts a₁ H₁ (fun r hr hs => by
      rw [Heap.rebased_lt hs]
      exact image r hr hs) hts
    refine ⟨Heap.Same.trans (fun r hr => hsame r (a.held r hr).2) same, hr, hm⟩
  | .inr c :: ts, s, u, v, G, G', f, S, a, H, image, ⟨hc, hts⟩ => by
    have hsame := a.symm.same hc
    have a₁ := (a.symm.step hc).symm
    obtain ⟨H₁, ho⟩ := H.step c
    obtain ⟨same, hr, hm⟩ := turns ts a₁ H₁ (fun r => H.image_step image c) hts
    refine ⟨Heap.Same.trans (fun r hr => ?_) same, ?_, hm⟩
    · exact a.heap ▸ hsame r (a.held r hr).1
    · exact congrArg₂ List.cons ho hr

end Apart

omit [Text.Halves] in
/-- Sessions that stand on one heap, each with a store of its own, are apart but for what their tree
holds. -/
theorem Stands.apart {s u : Session} (stands : s.Stands) (stands' : u.Stands)
    (tree : u.tree = s.tree) (heap : u.store.context.heap = s.store.context.heap)
    (own : ∀ r, s.Holds r → u.Holds r → s.tree.Holds s.store.context.heap r) :
    Apart (s.tree.Holds s.store.context.heap) s.Holds u.Holds s u where
  heap := heap
  left := stands.inside
  right := stands'.inside
  common := own
  held r hr := by
    refine ⟨hr.mono fun _ => .inr, ?_⟩
    unfold Holds
    rw [heap, tree]
    exact hr.mono fun _ => .inr
  roots := by
    rintro r (hr | hr)
    · exact (stands.root r hr).2
    · have hn := (stands'.root r hr).2
      rwa [heap, tree] at hn

/-! ## Trees that write at the top -/

/-- All effects of a session write entries of the table of its context. -/
structure Tops (s : Session) : Prop where
  tree : ∀ e ∈ s.tree.effects, e.IsTop
  offered : ∀ c ∈ s.offered, ∀ e ∈ c.1.effects, e.IsTop

theorem tops_upheld : Upheld fun s s' : Session => s.Tops → s'.Tops where
  refl _ := id
  trans h h' := h' ∘ h
  arrive s target h := by
    have hc := arrive_cases s target
    generalize s.arrive target = o at hc ⊢
    cases hc with
    | failed | nowhere | unclear => exact ⟨h.tree, h.offered⟩
    | shown visited =>
      have hn := Tree.mem_of_lookup (visit_some visited).found
      refine ⟨h.tree, fun c hc e he => h.tree e ?_⟩
      exact Tree.mem_effects_of_choice hn (List.mem_of_getElem? (mem_openIn hc)) he
  finish _ h := ⟨h.tree, nofun⟩
  settle _ _ _ _ h := ⟨h.tree, h.offered⟩
  overrun _ _ h := ⟨h.tree, nofun⟩
  resolve s index c _ h := by
    obtain ⟨ht, ho⟩ := resolve_kept s index c
    exact ⟨ht ▸ h.tree, ho ▸ h.offered⟩
  undo {s before} h hb := by
    obtain ⟨ht, -, -, ho⟩ := undo_kept s before
    exact ⟨ht ▸ (h hb).tree, ho ▸ (h hb).offered⟩

/-- Where all effects write at the top, no call leads into other cells. -/
theorem Tops.misses {N : Ref → Prop} {s : Session} (h : s.Tops)
    (root : ∀ r, s.store.context.root.ref? = some r → ¬ N r) (c : Call) : s.Misses N c := by
  intro w es hc
  cases hc with
  | choice =>
    refine Effect.avoidAll_of_isTop root fun e he => ?_
    obtain ⟨o, ho, he⟩ := mem_chosen he
    exact h.offered o ho e he
  | node out hops _ found _ =>
    have hs := tops_upheld.hops hops (tops_upheld.setsOut out h)
    have hr := (size_upheld.trans (size_upheld.setsOut out) (size_upheld.hops hops)).2
    refine Effect.avoidAll_of_isTop (hr ▸ root) fun e he => hs.tree e ?_
    exact Tree.mem_effects_of_node (Tree.mem_of_lookup found) he

theorem Tops.avoids {N : Ref → Prop} : ∀ (calls : List Call) {s : Session}, s.Tops →
    (∀ r, s.store.context.root.ref? = some r → ¬ N r) → s.Avoids N calls
  | [], _, _, _ => trivial
  | c :: calls, s, h, root =>
    ⟨h.misses root c, (tops_upheld.step s c h).avoids calls ((size_upheld.step s c).2 ▸ root)⟩

theorem Tops.bothMiss {N : Ref → Prop} : ∀ (ts : List (Call ⊕ Call)) {s u : Session}, s.Tops →
    u.Tops → (∀ r, s.store.context.root.ref? = some r → ¬ N r) →
    (∀ r, u.store.context.root.ref? = some r → ¬ N r) → BothMiss N s u ts
  | [], _, _, _, _, _, _ => trivial
  | .inl c :: ts, s, u, hs, hu, root, root' =>
    ⟨hs.misses root c, Tops.bothMiss ts (u := u.onHeap _) (tops_upheld.step s c hs)
      ⟨hu.tree, hu.offered⟩ ((size_upheld.step s c).2 ▸ root) root'⟩
  | .inr c :: ts, s, u, hs, hu, root, root' =>
    ⟨hu.misses root' c, Tops.bothMiss ts (s := s.onHeap _) ⟨hs.tree, hs.offered⟩
      (tops_upheld.step u c hu) root ((size_upheld.step u c).2 ▸ root')⟩

/-! ## Trees stay as they are -/

/-- While no effect leads into the tables that a tree holds, a run leaves the tree as it is, and a
second session on the tree with a store of its own goes on as if it were the only one: each of its
calls comes to the same, and so does its store. -/
theorem tree_untouched {s : Session} (stands : s.Stands) :
    (∀ calls, s.Avoids (s.tree.Holds s.store.context.heap) calls →
      (s.steps calls).tree = s.tree ∧
        s.tree.toDatum (s.steps calls).store.context.heap =
          s.tree.toDatum s.store.context.heap) ∧
    ∀ u : Session, u.Stands → u.tree = s.tree → u.store.context.heap = s.store.context.heap →
      (∀ r, s.Holds r → u.Holds r → s.tree.Holds s.store.context.heap r) →
      ∀ ts, BothMiss (s.tree.Holds s.store.context.heap) s u ts →
        let u' := (turns s u ts).2
        let alone := u.steps (ts.filterMap Sum.getRight?)
        s.tree.toDatum u'.store.context.heap = s.tree.toDatum s.store.context.heap ∧
          replies s u ts = u.outcomes (ts.filterMap Sum.getRight?) ∧
          u'.store.toDatum = alone.store.toDatum ∧
          u' = { alone with world := { alone.world with store := u'.store } } := by
  have bound : ∀ r, s.tree.Holds s.store.context.heap r → r < s.store.context.heap.size :=
    fun r hr => hr.bound stands.tight fun r ⟨e, he, hr⟩ => stands.held e he r hr
  refine ⟨fun calls avoids => ⟨tree_upheld.steps calls s, ?_⟩, ?_⟩
  · exact Tree.toDatum_same (steps_same ⟨bound, fun r hr => (stands.root r hr).2⟩ avoids)
  · intro u stands' tree heap own ts misses
    have apart := stands.apart stands' tree heap own
    obtain ⟨same, replied, f, S, H⟩ := apart.turns ts stands'.inside.mirrors
      (fun r hr hs => hr.resolve_right (Nat.not_le.2 hs)) misses
    refine ⟨Tree.toDatum_same same, replied, H.world.store.toDatum_eq, H.rest.trans ?_⟩
    rw [H.world.rest]
    rfl

end Session

end session

namespace Session

attribute [local instance] Text.noHalves

/-- A tree with a single node that has given effects, as data. -/
def telling (effects : List Datum) : Datum :=
  .object [("id", .text "t"), ("nodes", .object [("start", .object [("text", .text "hi"),
    ("effects", .list effects)])])]

/-- The effect that sets p to a given value, as data. -/
def filling (value : Datum) : Datum :=
  .object [("type", .text "context"), ("action", .text "set"), ("key", .text "p"), ("value", value)]

/-- The tree with a single node that has given effects, on its heap. -/
def told (effects : List Datum) : Tree × Heap :=
  (Tree.ofDatum #[] (telling effects)).toOption.getD default

/-- A session on a tree, with a new store on a heap. -/
def anew (t : Tree) (h : Heap) : Session := { tree := t, world := { store := .empty h } }

/-- Effects that set p to a table, and n beside it. -/
def pouch : List Datum := [filling (.object [("x", .int 1)]), .text "context.n=2"]

/-- The second of two sessions on one tree, with a store of its own. -/
def second : Session :=
  anew (told pouch).1 (anew (told pouch).1 (told pouch).2).store.context.heap

/-- The first of two sessions on one tree. -/
def first : Session := (anew (told pouch).1 (told pouch).2).onHeap second.store.context.heap

theorem tree_untouched_pouch :
    Tree.ofDatum #[] (telling pouch) = .ok (told pouch) ∧ first.Stands ∧ second.Stands ∧
      first.Avoids (first.tree.Holds first.store.context.heap) [.start, .start] ∧
      first.tree.toDatum (first.steps [.start, .start]).store.context.heap =
        first.tree.toDatum first.store.context.heap ∧
      (∀ r, first.Holds r → second.Holds r → first.tree.Holds first.store.context.heap r) ∧
      BothMiss (first.tree.Holds first.store.context.heap) first second
        [.inl .start, .inr .start, .inl .start] ∧
      replies first second [.inl .start, .inr .start, .inl .start] = second.outcomes [.start] := by
  have read : Tree.ofDatum #[] (telling pouch) = .ok (told pouch) := by decide +kernel
  have stands : (anew (told pouch).1 (told pouch).2).Stands :=
    stands_new (fun _ _ hq => absurd hq List.not_mem_nil) read (Context.empty_fresh _) rfl
  obtain ⟨stands₂, stands₁, own⟩ :
      second.Stands ∧ first.Stands ∧ ∀ r, first.Holds r → second.Holds r →
        first.tree.Holds first.store.context.heap r :=
    own_new (u := second) stands rfl (Context.empty_fresh _) rfl
  have tops : ∀ e ∈ (told pouch).1.effects, e.IsTop := by decide +kernel
  have tops₁ : first.Tops := ⟨tops, fun _ hc => absurd hc List.not_mem_nil⟩
  have tops₂ : second.Tops := ⟨tops, fun _ hc => absurd hc List.not_mem_nil⟩
  have root₁ := fun r hr => (stands₁.root r hr).2
  have avoids := tops₁.avoids [.start, .start] root₁
  have misses := Tops.bothMiss [.inl .start, .inr .start, .inl .start] tops₁ tops₂ root₁
    fun r hr => (stands₂.root r hr).2
  obtain ⟨alone, both⟩ := tree_untouched stands₁
  refine ⟨read, stands₁, stands₂, avoids, (alone _ avoids).2, own, misses, ?_⟩
  exact (both second stands₂ rfl rfl own _ misses).2.1

/-- The value that the tree holds is stored as it is, and the next effect writes into it. -/
theorem tree_touched :
    let effects := [filling (.object []), .text "context.p.x=1"]
    let s := anew (told effects).1 (told effects).2
    Tree.ofDatum #[] (telling effects) = .ok (told effects) ∧
      (s.step .start).2.isOk = true ∧
      s.tree.toDatum (s.steps [.start]).store.context.heap ≠
        s.tree.toDatum s.store.context.heap := by
  decide +kernel

end Session

end Colloquy
