import Colloquy.Proofs.Refs
import Colloquy.Proofs.Undone

/-!
# Where a write lands

Of the cells that are there, a write changes one, the last on its path that is there
(`Context.landing`, `Context.cell_write`). References that lead to each other only are a fence with
all fresh ones (`Heap.Fenced`): what stands within it stays there through writes, loads and effects,
and no effect on what is within leads out of it (`Effect.avoids_outside`).
-/

namespace Colloquy

namespace Heap

/-- Some cells are the same in two heaps. -/
def Same (N : Ref → Prop) (h h' : Heap) : Prop := ∀ r, N r → h'.cell r = h.cell r

theorem Same.trans {N : Ref → Prop} {h h₁ h₂ : Heap} (s : Same N h h₁) (s' : Same N h₁ h₂) :
    Same N h h₂ := fun r hr => (s' r hr).trans (s r hr)

/-- A reference that is among some leads to a cell that is there. -/
def There (G : Ref → Prop) (h : Heap) (r : Ref) : Prop := G r ∧ r < h.size

theorem There.grown {G : Ref → Prop} {h h' : Heap} {r : Ref} (hr : h.There G r)
    (hs : h.size ≤ h'.size) : h'.There G r := ⟨hr.1, hr.2.trans_le hs⟩

/-- References that lead to each other only, and to cells that are there; all fresh ones are among
them. -/
structure Fenced (G : Ref → Prop) (h : Heap) : Prop where
  closed : ∀ r, G r → ∀ q ∈ refsOf (h.cell r), h.There G q
  fresh : ∀ r, h.size ≤ r → G r

namespace Fenced

variable {G : Ref → Prop} {h : Heap}

theorem setIfInBounds (hG : Fenced G h) (r : Ref) {t : Table Value}
    (ht : ∀ q ∈ refsOf t, h.There G q) : Fenced G (Array.setIfInBounds h r t) where
  closed p hp q hq := by
    have hs : h.size ≤ (Array.setIfInBounds h r t).size := Array.size_setIfInBounds.ge
    rw [cell_setIfInBounds] at hq
    split_ifs at hq
    · exact (ht q hq).grown hs
    · exact (hG.closed p hp q hq).grown hs
  fresh p hp := hG.fresh p (by simpa using hp)

theorem append (hG : Fenced G h) {cells : List (Table Value)}
    (hc : ∀ t ∈ cells, ∀ q ∈ refsOf t, Heap.There G (h ++ cells.toArray) q) :
    Fenced G (h ++ cells.toArray) where
  closed p hp q hq := by
    rcases Nat.lt_or_ge p h.size with hs | hs
    · rw [cell_append_left hs] at hq
      refine (hG.closed p hp q hq).grown ?_
      rw [Array.size_append]
      exact Nat.le_add_right _ _
    · obtain ⟨i, rfl⟩ := Nat.exists_eq_add_of_le hs
      rw [cell_append_right] at hq
      rcases hi : cells[i]? with _ | t
      · rw [hi] at hq
        exact absurd hq List.not_mem_nil
      · rw [hi] at hq
        exact hc t (List.mem_of_getElem? hi) q hq
  fresh p hp := hG.fresh p (by
    rw [Array.size_append] at hp
    omega)

theorem putField (hG : Fenced G h) {r : Ref} (hr : G r) (name : String) {v : Value}
    (hv : v.In (h.There G)) : Fenced G (h.putField r name v) :=
  hG.setIfInBounds r fun q hq => (mem_refsOf_put hq).elim (hG.closed r hr q) (hv q)

theorem alloc (hG : Fenced G h) : Fenced G (h.alloc []).1 where
  closed p hp q hq := by
    rw [cell_alloc] at hq
    refine (hG.closed p hp q hq).grown ?_
    exact (Nat.le_succ _).trans (Array.size_push _).ge
  fresh p hp := hG.fresh p ((Nat.le_succ _).trans (by simpa [Heap.alloc] using hp))

/-- A graft refers to its own cells only. -/
theorem grafted_there (hG : Fenced G h) {src : Heap} {t u : Table Value}
    (hu : ∀ q ∈ refsOf u, q ∈ src.reach (refsOf t)) {q : Ref}
    (hq : q ∈ refsOf (u.renamed (h.grafted src t))) : (h.graft src t).1.There G q := by
  rw [refsOf_renamed] at hq
  obtain ⟨p, hp, rfl⟩ := List.mem_map.1 hq
  have hl : (h.graft src t).1.size = h.size + (src.reach (refsOf t)).length := by
    simp [graft_fst]
  refine ⟨hG.fresh _ (Nat.le_add_right _ _), hl ▸ ?_⟩
  exact Nat.add_lt_add_left (List.idxOf_lt_length_of_mem (hu p hp)) _

theorem graft (hG : Fenced G h) (src : Heap) (t : Table Value) : Fenced G (h.graft src t).1 := by
  rw [graft_fst]
  refine hG.append fun u hu q hq => ?_
  obtain ⟨p, hp, rfl⟩ := List.mem_map.1 hu
  exact hG.grafted_there ((reach_closed src (refsOf t)).2 p hp) hq

end Fenced

end Heap

namespace Context

/-- References that lead to each other only, the one of the context and all fresh ones among
them. -/
structure Fenced (G : Ref → Prop) (c : Context) : Prop where
  heap : Heap.Fenced G c.heap
  root : c.root.In (c.heap.There G)

/-- The cell that a write along a path changes: the last one on it that is there. -/
def landing (h : Heap) (r : Ref) : Path → Ref
  | [] => r
  | [_] => r
  | key :: rest =>
    match (h.cell r).get? (.text key) with
    | some (.map child) => landing h child rest
    | _ => r

section step

variable {h : Heap} {r child : Ref} {key k : String} {rest : Path}

theorem landing_through (hc : (h.cell r).get? (.text key) = some (.map child)) :
    landing h r (key :: k :: rest) = landing h child (k :: rest) := by
  simp only [landing, hc]

theorem landing_fresh (hn : ∀ child, (h.cell r).get? (.text key) ≠ some (.map child)) :
    landing h r (key :: k :: rest) = r := by
  simp only [landing]

theorem write_through (hc : (h.cell r).get? (.text key) = some (.map child)) (v : Value) :
    write h r (key :: k :: rest) v = write h child (k :: rest) v := by
  simp only [write, hc]

/-- A write puts a fresh table where there is none to go through. -/
theorem write_fresh (hn : ∀ child, (h.cell r).get? (.text key) ≠ some (.map child)) (v : Value) :
    (write h r (key :: k :: rest) v).1 =
      (write ((h.alloc []).1.putField r key (.map h.size)) h.size (k :: rest) v).1 := by
  simp only [write]
  rfl

end step

theorem landing_mem {G : Ref → Prop} {h : Heap} (hG : Heap.Fenced G h) :
    ∀ (p : Path) {r : Ref}, G r → G (landing h r p)
  | [], _, hr => hr
  | [_], _, hr => hr
  | key :: k :: rest, r, hr => by
    by_cases hc : ∃ child, (h.cell r).get? (.text key) = some (.map child)
    · obtain ⟨child, hc⟩ := hc
      rw [landing_through hc]
      exact landing_mem hG (k :: rest) (hG.closed r hr child (Heap.mem_refsOf_of_get? hc rfl)).1
    · rw [landing_fresh (not_exists.1 hc)]
      exact hr

theorem write_fenced {G : Ref → Prop} : ∀ (p : Path) {h : Heap} {r : Ref} {v : Value},
    Heap.Fenced G h → G r → v.In (h.There G) → Heap.Fenced G (write h r p v).1
  | [], _, _, _, hG, _, _ => hG
  | [key], _, _, _, hG, hr, hv => hG.putField hr key hv
  | key :: k :: rest, h, r, v, hG, hr, hv => by
    by_cases hc : ∃ child, (h.cell r).get? (.text key) = some (.map child)
    · obtain ⟨child, hc⟩ := hc
      rw [write_through hc]
      have hchild := (hG.closed r hr child (Heap.mem_refsOf_of_get? hc rfl)).1
      exact write_fenced (k :: rest) hG hchild hv
    · rw [write_fresh (not_exists.1 hc)]
      have hs : G h.size := hG.fresh h.size le_rfl
      have hone : (h.alloc []).1.size = h.size + 1 := Array.size_push _
      refine write_fenced (k :: rest) (hG.alloc.putField hr key fun q hq => ?_) hs fun q hq => ?_
      · obtain rfl : h.size = q := Option.some.inj hq
        exact ⟨hs, hone ▸ Nat.lt_succ_self _⟩
      · refine (hv q hq).grown ?_
        rw [Heap.putField, Array.size_setIfInBounds, hone]
        exact Nat.le_succ _

/-- A write leaves all other cells that are there as they are. -/
theorem cell_write : ∀ (p : Path) {h : Heap} {r q : Ref} (v : Value), q < h.size →
    q ≠ landing h r p → Heap.cell (write h r p v).1 q = h.cell q
  | [], _, _, _, _, _, _ => rfl
  | [key], h, r, q, v, _, hn => by
    change Heap.cell (h.setIfInBounds r _) q = h.cell q
    rw [Heap.cell_setIfInBounds, if_neg fun hc => hn hc.1.symm]
  | key :: k :: rest, h, r, q, v, hq, hn => by
    by_cases hc : ∃ child, (h.cell r).get? (.text key) = some (.map child)
    · obtain ⟨child, hc⟩ := hc
      rw [landing_through hc] at hn
      rw [write_through hc, cell_write (k :: rest) v hq hn]
    · have hn' := not_exists.1 hc
      rw [landing_fresh hn'] at hn
      -- what is fresh leads to what is fresh only, so the rest of the write lands there
      have hf : Heap.Fenced (h.size ≤ ·) ((h.alloc []).1.putField r key (.map h.size)) := by
        refine ⟨fun p hp q hq => ?_, fun p hp => ?_⟩
        · rw [Heap.putField, Heap.cell_setIfInBounds, Heap.cell_alloc, Heap.cell_alloc] at hq
          split_ifs at hq with hr
          · rw [Heap.cell_of_size_le (hr.1 ▸ hp)] at hq
            obtain rfl : q = h.size := List.mem_singleton.1 hq
            exact ⟨le_rfl, by simp [Heap.putField, Heap.alloc]⟩
          · rw [Heap.cell_of_size_le hp] at hq
            exact absurd hq List.not_mem_nil
        · exact (Nat.le_succ _).trans (by simpa [Heap.putField, Heap.alloc] using hp)
      have hl := landing_mem hf (k :: rest) (le_refl h.size)
      have hs : q < ((h.alloc []).1.putField r key (.map h.size)).size := by
        simp only [Heap.putField, Heap.alloc, Array.size_setIfInBounds, Array.size_push]
        exact hq.trans (Nat.lt_succ_self _)
      rw [write_fresh hn', cell_write (k :: rest) v hs (Nat.ne_of_lt (Nat.lt_of_lt_of_le hq hl)),
        Heap.putField, Heap.cell_setIfInBounds, if_neg fun hc => hn hc.1.symm, Heap.cell_alloc]

/-! ## Loading -/

/-- Loading a context into one that has a table where it has one replaces that table, and puts all
else into fresh cells. -/
theorem load_heap {c src : Context} (hr : c.root.ref?.isSome = src.root.ref?.isSome) :
    (c.load src).1.root.ref? = c.root.ref? ∧
      ((c.load src).1.heap = c.heap ∨ ∃ r, c.root = .map r ∧ (c.load src).1.heap =
        (c.heap.graft src.heap src.entries).1.setIfInBounds r
          (Table.ofList (c.heap.graft src.heap src.entries).2)) := by
  rcases hc : c.root with s | ds | r
  · rcases hs : src.root with _ | _ | q
    all_goals simp only [load, hc, loadDatum, true_or, and_self]
  · rcases hs : src.root with _ | _ | q
    all_goals simp only [load, hc, loadDatum, Value.ref?, true_or, and_self]
  · rcases hs : src.root with _ | _ | q
    · rw [hc, hs] at hr
      cases hr
    · rw [hc, hs] at hr
      cases hr
    · refine ⟨?_, .inr ⟨r, rfl, ?_⟩⟩
      · simp only [load, hc, hs, setEntries]
      · simp only [load, hc, hs, setEntries]

theorem load_size {c src : Context} (hr : c.root.ref?.isSome = src.root.ref?.isSome) :
    c.heap.size ≤ (c.load src).1.heap.size := by
  rcases (load_heap hr).2 with he | ⟨r, -, he⟩
  · exact he ▸ le_rfl
  · rw [he, Array.size_setIfInBounds]
    exact Heap.size_le_graft _ _ _

theorem load_same {N : Ref → Prop} {c src : Context}
    (hr : c.root.ref?.isSome = src.root.ref?.isSome) (bound : ∀ r, N r → r < c.heap.size)
    (root : ∀ r, c.root.ref? = some r → ¬ N r) : Heap.Same N c.heap (c.load src).1.heap := by
  rcases (load_heap hr).2 with he | ⟨r, hc, he⟩
  · rw [he]
    exact fun _ _ => rfl
  · intro q hq
    have hn : ¬ (r = q ∧ r < (c.heap.graft src.heap src.entries).1.size) := fun h =>
      root r (by rw [hc]; rfl) (h.1 ▸ hq)
    rw [he, Heap.cell_setIfInBounds, if_neg hn, Heap.graft_fst,
      Heap.cell_append_left (bound q hq)]

theorem load_fenced {G : Ref → Prop} {c src : Context}
    (hr : c.root.ref?.isSome = src.root.ref?.isSome) (hG : c.Fenced G) :
    (c.load src).1.Fenced G := by
  obtain ⟨hroot, hh⟩ := load_heap hr
  refine ⟨?_, fun r hr => (hG.root r (hroot ▸ hr)).grown (load_size ‹_›)⟩
  rcases hh with he | ⟨r, hc, he⟩
  · rw [he]
    exact hG.heap
  · have hin := (Heap.reach_closed src.heap (Heap.refsOf src.entries)).1
    rw [he]
    exact (hG.heap.graft src.heap src.entries).setIfInBounds r fun q hq =>
      hG.heap.grafted_there hin (Heap.mem_refsOf_ofList hq)

theorem walk_mem {G : Ref → Prop} {h : Heap} (hG : Heap.Fenced G h) : ∀ (p : Path) {v w : Value},
    v.In (h.There G) → walk h v p = some w → w.In (h.There G)
  | [], v, w, hv, hw => by
    cases v <;> cases hw <;> exact hv
  | key :: rest, v, w, hv, hw => by
    rcases v with _ | _ | r
    · cases hw
    · cases hw
    · rw [walk] at hw
      rcases hc : (h.cell r).get? (.text key) with _ | u
      · rw [hc] at hw
        cases hw
      · rw [hc] at hw
        refine walk_mem hG rest (fun q hq => ?_) hw
        exact hG.closed r (hv r rfl).1 q (Heap.mem_refsOf_of_get? hc hq)

end Context

/-! ## Effects -/

/-- The effects of a node and of its choices. -/
def Node.allEffects (n : Node) : List Effect := n.effects ++ n.choices.flatMap (·.effects)

/-- The effects of a tree: those of its nodes and of their choices. -/
def Tree.effects (t : Tree) : List Effect := t.nodes.flatMap Node.allEffects

theorem Tree.mem_effects_of_node {t : Tree} {n : Node} {e : Effect} (hn : n ∈ t.nodes)
    (he : e ∈ n.effects) : e ∈ t.effects :=
  List.mem_flatMap.2 ⟨n, hn, List.mem_append_left _ he⟩

theorem Tree.mem_effects_of_choice {t : Tree} {n : Node} {c : Choice} {e : Effect}
    (hn : n ∈ t.nodes) (hc : c ∈ n.choices) (he : e ∈ c.effects) : e ∈ t.effects :=
  List.mem_flatMap.2 ⟨n, hn, List.mem_append_right _ (List.mem_flatMap.2 ⟨c, hc, he⟩)⟩

/-- The reference in an effect. -/
def Effect.ref? : Effect → Option Ref
  | .write _ _ (.value v) => v.ref?
  | _ => none

namespace Effect

/-- An effect does not lead into some cells: where it writes is none of them. -/
def Avoids (N : Ref → Prop) (w : World) : Effect → Prop
  | .write path _ _ => ∀ r, w.store.context.root = .map r →
      ¬ N (Context.landing w.store.context.heap r (Path.split path))
  | _ => True

/-- Effects, up to the first that fails, do not lead into some cells. -/
def AvoidAll (N : Ref → Prop) : World → List Effect → Prop
  | _, [] => True
  | w, e :: es => e.Avoids N w ∧ ∀ w', e.apply w = (w', none) → AvoidAll N w' es

/-- What an effect writes is an entry of the table of the context. -/
def IsTop : Effect → Prop
  | .write path _ _ => (Path.split path).length = 1
  | _ => True

instance : DecidablePred IsTop
  | .write path _ _ => inferInstanceAs (Decidable ((Path.split path).length = 1))
  | .setFlag _ _ => isTrue trivial
  | .toggleFlag _ => isTrue trivial
  | .moveQuest _ _ => isTrue trivial
  | .malformed _ _ => isTrue trivial

theorem IsTop.avoids {N : Ref → Prop} {w : World}
    (root : ∀ r, w.store.context.root.ref? = some r → ¬ N r) :
    ∀ {e : Effect}, e.IsTop → e.Avoids N w
  | .write path _ _, top => fun r hr => by
    obtain ⟨key, hp⟩ := List.length_eq_one_iff.1 top
    rw [hp]
    exact root r (by rw [hr]; rfl)
  | .setFlag _ _, _ => trivial
  | .toggleFlag _, _ => trivial
  | .moveQuest _ _, _ => trivial
  | .malformed _ _, _ => trivial

theorem writeValue_context (w : World) (path : String) (op : Operation) (v : Value) :
    (writeValue w path op v).1.store.context = w.store.context ∨
      ∃ r, w.store.context.root = .map r ∧ (writeValue w path op v).1.store.context =
        ⟨(Context.write w.store.context.heap r (Path.split path) v).1, .map r⟩ := by
  unfold writeValue
  rcases hw : w.set path v with f | w'
  · exact .inl rfl
  · have hc : ∃ r, w.store.context.root = .map r ∧ w'.store.context =
        ⟨(Context.write w.store.context.heap r (Path.split path) v).1, .map r⟩ := by
      unfold World.set Store.set at hw
      rcases hs : w.store.context.set (Path.split path) v with f | ⟨c, replaced⟩
      · rw [hs] at hw
        cases hw
      · rw [hs] at hw
        cases hw
        unfold Context.set at hs
        split at hs
        · rename_i r hr
          cases hs
          exact ⟨r, hr, by simp [World.noteAll, hr]⟩
        · cases hs
        · cases hs
    refine .inr ?_
    simp only
    split_ifs
    · exact hc
    · exact hc

/-- An effect writes one value into the context, or leaves it as it is. -/
theorem apply_context (w : World) (e : Effect) :
    (e.apply w).1.store.context = w.store.context ∨
      ∃ path op source v r, e = .write path op source ∧
        ((∃ n, v = .ofNumber n) ∨ op = .set ∧ source.resolve w.store = some v) ∧
        w.store.context.root = .map r ∧ (e.apply w).1.store.context =
          ⟨(Context.write w.store.context.heap r (Path.split path) v).1, .map r⟩ := by
  cases e with
  | setFlag | toggleFlag | malformed => exact .inl rfl
  | moveQuest key t =>
    have hc := moveQuest_context w (.text key) t.status
    left
    simp only [apply]
    split
    · rename_i hm
      rwa [hm] at hc
    · rename_i hm
      rwa [hm] at hc
  | write path op source =>
    simp only [apply]
    unfold applyWrite
    split
    · rcases hv : source.resolve w.store with _ | v
      · exact .inl rfl
      · rcases writeValue_context w path .set v with h | ⟨r, hr, h⟩
        · exact .inl h
        · exact .inr ⟨path, .set, source, v, r, rfl, .inr ⟨rfl, hv⟩, hr, h⟩
    · split
      · rename_i n _
        have hw := writeValue_context (w.distinguish n).1 path op (.ofNumber (w.distinguish n).2)
        rw [distinguish_store] at hw
        rcases hw with h | ⟨r, hr, h⟩
        · exact .inl h
        · exact .inr ⟨path, op, source, _, r, rfl, .inl ⟨_, rfl⟩, hr, h⟩
      · exact .inl rfl

theorem apply_same {N : Ref → Prop} {w : World} {e : Effect} (h : e.Avoids N w)
    (bound : ∀ r, N r → r < w.store.context.heap.size) :
    Heap.Same N w.store.context.heap (e.apply w).1.store.context.heap := by
  rcases apply_context w e with he | ⟨path, op, source, v, r, rfl, -, hr, he⟩
  · rw [he]
    exact fun _ _ => rfl
  · intro q hq
    rw [he]
    refine Context.cell_write _ _ (bound q hq) ?_
    rintro rfl
    exact h r hr hq

theorem applyAll_same {N : Ref → Prop} : ∀ {es : List Effect} {w : World}, AvoidAll N w es →
    (∀ r, N r → r < w.store.context.heap.size) →
    Heap.Same N w.store.context.heap (applyAll w es).1.store.context.heap
  | [], _, _, _ => fun _ _ => rfl
  | e :: es, w, ⟨he, hes⟩, bound => by
    have hs := apply_same he bound
    have hg := (apply_grown w e).heap.size_le
    unfold applyAll
    rcases ha : e.apply w with ⟨w', _ | f⟩
    all_goals rw [ha] at hs hg
    · exact hs.trans (applyAll_same (hes w' ha) fun r hr => (bound r hr).trans_le hg)
    · exact hs

theorem avoidAll_of_isTop {N : Ref → Prop} : ∀ {es : List Effect} {w : World},
    (∀ r, w.store.context.root.ref? = some r → ¬ N r) → (∀ e ∈ es, e.IsTop) → AvoidAll N w es
  | [], _, _, _ => trivial
  | e :: es, w, root, tops => by
    rw [List.forall_mem_cons] at tops
    refine ⟨tops.1.avoids root, fun w' hw => avoidAll_of_isTop (fun r hr => root r ?_) tops.2⟩
    have hg := (apply_grown w e).root
    rw [hw] at hg
    exact hg ▸ hr

theorem resolve_in {G : Ref → Prop} {s : Store} {path : String} {op : Operation} {source : Source}
    (hG : s.context.Fenced G)
    (he : ∀ r, (Effect.write path op source).ref? = some r → s.context.heap.There G r) {v : Value}
    (hv : source.resolve s = some v) : v.In (s.context.heap.There G) := by
  cases source with
  | flag key =>
    cases hv
    exact Value.in_scalar _
  | context path => exact Context.walk_mem hG.heap _ hG.root hv
  | value v' =>
    cases hv
    exact he

theorem apply_fenced {G : Ref → Prop} {w : World} {e : Effect} (hG : w.store.context.Fenced G)
    (he : ∀ r, e.ref? = some r → w.store.context.heap.There G r) :
    (e.apply w).1.store.context.Fenced G := by
  have hs := (apply_grown w e).heap.size_le
  rcases apply_context w e with hc | ⟨path, op, source, v, r, rfl, hv, hr, hc⟩
  · rwa [hc]
  · have hroot := hG.root r (by rw [hr]; rfl)
    have hvalue : v.In (w.store.context.heap.There G) := by
      rcases hv with ⟨n, rfl⟩ | ⟨-, hv⟩
      · exact Value.in_scalar _
      · exact resolve_in hG he hv
    rw [hc] at hs ⊢
    refine ⟨Context.write_fenced _ hG.heap hroot.1 hvalue, fun q hq => ?_⟩
    exact Option.some.inj hq ▸ hroot.grown hs

/-- What leads out of a fence is not come to by an effect on what is within. -/
theorem avoids_outside {G : Ref → Prop} {w : World} (hG : w.store.context.Fenced G) :
    ∀ e : Effect, e.Avoids (fun r => ¬ G r) w
  | .write path _ _ => fun r hr hn =>
    hn (Context.landing_mem hG.heap _ (hG.root r (by rw [hr]; rfl)).1)
  | .setFlag _ _ => trivial
  | .toggleFlag _ => trivial
  | .moveQuest _ _ => trivial
  | .malformed _ _ => trivial

theorem applyAll_fenced {G : Ref → Prop} : ∀ {es : List Effect} {w : World},
    w.store.context.Fenced G →
    (∀ e ∈ es, ∀ r, e.ref? = some r → w.store.context.heap.There G r) →
    (applyAll w es).1.store.context.Fenced G ∧ AvoidAll (fun r => ¬ G r) w es
  | [], _, hG, _ => ⟨hG, trivial⟩
  | e :: es, w, hG, he => by
    rw [List.forall_mem_cons] at he
    have hs := apply_fenced hG he.1
    have hg := (apply_grown w e).heap.size_le
    unfold applyAll
    rcases ha : e.apply w with ⟨w', _ | f⟩
    all_goals rw [ha] at hs hg
    · have ih := applyAll_fenced hs fun e' he' r hr => (he.2 e' he' r hr).grown hg
      refine ⟨ih.1, avoids_outside hG e, fun w₁ hw => ?_⟩
      rw [ha] at hw
      cases hw
      exact ih.2
    · refine ⟨hs, avoids_outside hG e, fun w₁ hw => ?_⟩
      rw [ha] at hw
      cases hw

theorem Avoids.join {N N₁ N₂ : Ref → Prop} (hN : ∀ r, N r → N₁ r ∨ N₂ r) {w : World} {e : Effect}
    (h₁ : e.Avoids N₁ w) (h₂ : e.Avoids N₂ w) : e.Avoids N w := by
  cases e with
  | write => exact fun r hr hn => (hN _ hn).elim (h₁ r hr) (h₂ r hr)
  | setFlag | toggleFlag | moveQuest | malformed => trivial

theorem AvoidAll.join {N N₁ N₂ : Ref → Prop} (hN : ∀ r, N r → N₁ r ∨ N₂ r) :
    ∀ {es : List Effect} {w : World}, AvoidAll N₁ w es → AvoidAll N₂ w es → AvoidAll N w es
  | [], _, _, _ => trivial
  | _ :: _, _, ⟨h₁, h₁'⟩, ⟨h₂, h₂'⟩ =>
    ⟨h₁.join hN h₂, fun w' hw => (h₁' w' hw).join hN (h₂' w' hw)⟩

end Effect

end Colloquy
