import Colloquy.Store
import Mathlib.Algebra.BigOperators.Fin
import Mathlib.Data.Finset.Lattice.Fold
import Mathlib.Data.List.Perm.Subperm

/-!
# A graft shows what its source shows

Following references from a table leaves nothing out that can be reached (`reach_closed`): every
step takes a reference off the list or puts a cell's own in its place, each cell once, so the
entries of all cells bound the steps. A heap that repeats the reached cells of another under
other names shows the same data, marks of cycles included (`Repeats.view_eq`), and a graft is
such a heap (`repeats_graft`). So a context that is loaded from another one shows what that one
does (`Context.view_load`), as long as no two keys of its table are alike.
-/

namespace Colloquy

open scoped BigOperators

namespace Table

variable {α β : Type}

/-- No two keys of a table are alike. -/
def Keyed (t : Table α) : Prop := (t.map (·.1)).Pairwise fun k l => k.alike l = false

theorem keyed_nil : Keyed ([] : Table α) := List.Pairwise.nil

theorem keyed_congr {t : Table α} {u : Table β} (h : t.map (·.1) = u.map (·.1)) (ht : t.Keyed) :
    u.Keyed := by
  unfold Keyed at *
  rwa [← h]

theorem keys_put (t : Table α) (key : Scalar) (b : α) :
    (t.put key b).map (·.1) =
      if t.any (·.1.alike key) then t.map (·.1) else t.map (·.1) ++ [key] := by
  induction t with
  | nil => rfl
  | cons e t ih =>
    obtain ⟨k, a⟩ := e
    by_cases hk : k.alike key
    · simp [put, hk]
    · simp only [put, hk, Bool.false_eq_true, if_false, List.map_cons, ih, List.any_cons,
        Bool.false_or]
      split <;> rfl

theorem keyed_put {t : Table α} (h : t.Keyed) (key : Scalar) (b : α) : (t.put key b).Keyed := by
  unfold Keyed at *
  rw [keys_put]
  split
  · exact h
  · rename_i hn
    simp only [Bool.not_eq_true, List.any_eq_false] at hn
    refine List.pairwise_append.2 ⟨h, List.pairwise_singleton _ _, ?_⟩
    intro k hk l hl
    obtain ⟨e, he, rfl⟩ := List.mem_map.1 hk
    rw [List.mem_singleton.1 hl]
    exact hn e he

theorem keyed_putAll {t : Table α} (h : t.Keyed) (u : Table α) : (t.putAll u).Keyed := by
  unfold putAll
  induction u generalizing t with
  | nil => exact h
  | cons e u ih => exact ih (keyed_put h e.1 e.2)

theorem keyed_ofList (es : List (Scalar × α)) : (ofList es).Keyed :=
  keyed_putAll keyed_nil es

theorem put_eq_append {t : Table α} {key : Scalar} (h : ∀ e ∈ t, e.1.alike key = false) (b : α) :
    t.put key b = t ++ [(key, b)] := by
  induction t with
  | nil => rfl
  | cons e t ih =>
    obtain ⟨k, a⟩ := e
    rw [List.forall_mem_cons] at h
    simp only [put, h.1, Bool.false_eq_true, if_false, ih h.2, List.cons_append]

theorem putAll_eq_append : ∀ (u t : Table α), (t ++ u).Keyed → t.putAll u = t ++ u
  | [], t, _ => by simp [putAll]
  | (k, a) :: u, t, h => by
    have hk : ∀ e ∈ t, e.1.alike k = false := by
      intro e he
      simp only [Keyed, List.map_append, List.map_cons, List.pairwise_append] at h
      exact h.2.2 e.1 (List.mem_map_of_mem he) k List.mem_cons_self
    have ih := putAll_eq_append u (t ++ [(k, a)]) (by simpa using h)
    calc t.putAll ((k, a) :: u) = (t.put k a).putAll u := rfl
      _ = (t ++ [(k, a)]).putAll u := by rw [put_eq_append hk]
      _ = t ++ (k, a) :: u := by rw [ih]; simp

/-- Putting the entries of a table into an empty one gives the table back. -/
theorem ofList_eq {t : Table α} (h : t.Keyed) : ofList t = t :=
  putAll_eq_append t [] h

end Table

theorem Value.rename_map (f : Ref → Ref) (r : Ref) : (Value.map r).rename f = .map (f r) := rfl

namespace Heap

/-! ## Cells -/

theorem cell_of_size_le {h : Heap} {r : Ref} (hr : h.size ≤ r) : h.cell r = [] := by
  simp [cell, hr]

theorem cell_setIfInBounds (h : Heap) (r q : Ref) (t : Table Value) :
    Heap.cell (h.setIfInBounds r t) q = if r = q ∧ r < h.size then t else h.cell q := by
  unfold cell
  rw [Array.getElem?_setIfInBounds]
  by_cases hrq : r = q
  · subst hrq
    by_cases hr : r < h.size <;> simp [hr]
  · simp [hrq]

theorem cell_append_left {h : Heap} {r : Ref} (hr : r < h.size) (g : Array (Table Value)) :
    Heap.cell (h ++ g) r = h.cell r := by
  simp [cell, Array.getElem?_append_left hr]

theorem cell_append_right (h : Heap) (cells : List (Table Value)) (i : ℕ) :
    Heap.cell (h ++ cells.toArray) (h.size + i) = (cells[i]?).getD [] := by
  simp [cell, Array.getElem?_append_right (Nat.le_add_right h.size i)]

theorem mem_refsOf {t : Table Value} {r : Ref} : r ∈ refsOf t ↔ ∃ e ∈ t, e.2.ref? = some r := by
  simp [refsOf, List.mem_filterMap]

theorem length_refsOf_le (t : Table Value) : (refsOf t).length ≤ t.length :=
  List.length_filterMap_le _ _

/-! ## What is reached -/

/-- The number of entries in the cells that have not been seen. -/
def ahead (h : Heap) (seen : List Ref) : ℕ :=
  ∑ r ∈ (Finset.range h.size).filter (· ∉ seen), (h.cell r).length

theorem sum_length_cells : ∀ l : List (Table Value),
    ∑ r ∈ Finset.range l.length, ((l[r]?).getD []).length = (l.map List.length).sum
  | [] => rfl
  | t :: l => by
    rw [List.length_cons, Finset.sum_range_succ']
    simp [sum_length_cells l, Nat.add_comm]

theorem edgeCount_eq (h : Heap) : h.edgeCount = (h.toList.map List.length).sum := by
  unfold edgeCount
  rw [← Array.foldl_toList, List.sum_eq_foldl, List.foldl_map]

theorem ahead_nil (h : Heap) : h.ahead [] = h.edgeCount := by
  rw [edgeCount_eq, ← sum_length_cells]
  simp [ahead, cell]

/-- Seeing a cell takes its entries from those that are ahead. -/
theorem ahead_append {h : Heap} {seen : List Ref} {r : Ref} (hr : r ∉ seen) :
    h.ahead (seen ++ [r]) + (h.cell r).length = h.ahead seen := by
  by_cases hs : r < h.size
  · have hm : r ∈ (Finset.range h.size).filter (· ∉ seen) := by simp [hs, hr]
    have he : (Finset.range h.size).filter (· ∉ seen ++ [r])
        = ((Finset.range h.size).filter (· ∉ seen)).erase r := by
      ext q
      simp only [List.mem_append, List.mem_singleton, not_or, Finset.mem_filter, Finset.mem_erase]
      tauto
    unfold ahead
    rw [he, Finset.sum_erase_add _ _ hm]
  · have he : (Finset.range h.size).filter (· ∉ seen ++ [r])
        = (Finset.range h.size).filter (· ∉ seen) := by
      ext q
      simp only [List.mem_append, List.mem_singleton, not_or, Finset.mem_filter, Finset.mem_range]
      constructor
      · tauto
      · rintro ⟨hq, hn⟩
        exact ⟨hq, hn, fun e => hs (e ▸ hq)⟩
    unfold ahead
    rw [he, cell_of_size_le (Nat.not_lt.1 hs)]
    rfl

/-- With enough steps, what is seen and what is to come are reached, and so is all that a reached
cell refers to. -/
theorem reachFrom_closed (h : Heap) : ∀ (n : ℕ) (todo seen : List Ref),
    todo.length + h.ahead seen < n →
    (∀ r ∈ seen, ∀ q ∈ refsOf (h.cell r), q ∈ seen ∨ q ∈ todo) →
    (∀ r, r ∈ seen ∨ r ∈ todo → r ∈ h.reachFrom n todo seen) ∧
      ∀ r ∈ h.reachFrom n todo seen, ∀ q ∈ refsOf (h.cell r), q ∈ h.reachFrom n todo seen
  | 0, _, _, hn, _ => absurd hn (by omega)
  | n + 1, [], seen, _, hi => by simpa [reachFrom] using hi
  | n + 1, r :: todo, seen, hn, hi => by
    simp only [List.length_cons] at hn
    by_cases hr : r ∈ seen
    · have ih := reachFrom_closed h n todo seen (by omega) (by
        intro p hp q hq
        rcases hi p hp q hq with hs | ht
        · exact .inl hs
        · rcases List.mem_cons.1 ht with rfl | ht
          · exact .inl hr
          · exact .inr ht)
      simp only [reachFrom, hr, if_true]
      refine ⟨fun q hq => ih.1 q ?_, ih.2⟩
      rcases hq with hs | ht
      · exact .inl hs
      · rcases List.mem_cons.1 ht with rfl | ht
        · exact .inl hr
        · exact .inr ht
    · have ha := ahead_append (h := h) hr
      have hl := length_refsOf_le (h.cell r)
      have ih := reachFrom_closed h n (refsOf (h.cell r) ++ todo) (seen ++ [r])
        (by rw [List.length_append]; omega) (by
          intro p hp q hq
          simp only [List.mem_append, List.mem_singleton] at hp ⊢
          rcases hp with hp | rfl
          · rcases hi p hp q hq with hs | ht
            · exact .inl (.inl hs)
            · rcases List.mem_cons.1 ht with rfl | ht
              · exact .inl (.inr rfl)
              · exact .inr (.inr ht)
          · exact .inr (.inl hq))
      simp only [reachFrom, hr, if_false]
      refine ⟨fun q hq => ih.1 q ?_, ih.2⟩
      simp only [List.mem_append, List.mem_singleton]
      rcases hq with hs | ht
      · exact .inl (.inl hs)
      · rcases List.mem_cons.1 ht with rfl | ht
        · exact .inl (.inr rfl)
        · exact .inr (.inr ht)

theorem reach_closed (h : Heap) (todo : List Ref) :
    (∀ r ∈ todo, r ∈ h.reach todo) ∧
      ∀ r ∈ h.reach todo, ∀ q ∈ refsOf (h.cell r), q ∈ h.reach todo := by
  have hc := reachFrom_closed h (todo.length + h.edgeCount + 1) todo []
    (by rw [ahead_nil]; omega) (by simp)
  exact ⟨fun r hr => hc.1 r (.inr hr), hc.2⟩

/-! ## Views -/

theorem length_le_size {h : Heap} {path : List Ref} (hd : path.Nodup) (hp : ∀ r ∈ path, r < h.size) :
    path.length ≤ h.size := by
  have hs := List.subperm_of_subset hd (fun r hr => List.mem_range.2 (hp r hr))
  simpa using hs.length_le

/-- A view that is given a level for every cell that is not on its path has enough of them. -/
theorem viewBelow_add (h : Heap) (m : ℕ) : ∀ (n : ℕ) (path : List Ref) (v : Value), path.Nodup →
    (∀ r ∈ path, r < h.size) → h.size < n + path.length →
    h.viewBelow (n + m) path v = h.viewBelow n path v
  | n, path, .scalar s, _, _, _ => by cases n <;> cases m <;> rfl
  | n, path, .list xs, _, _, _ => by cases n <;> cases m <;> rfl
  | 0, path, .map r, hd, hp, hn => by
    have := length_le_size hd hp
    omega
  | n + 1, path, .map r, hd, hp, hn => by
    rw [Nat.succ_add_eq_add_succ, Nat.add_succ]
    simp only [viewBelow]
    split
    · rfl
    · rename_i hr
      rw [List.idxOf?_eq_none_iff] at hr
      by_cases hs : r < h.size
      · have ih := fun v => viewBelow_add h m n (r :: path) v (List.nodup_cons.2 ⟨hr, hd⟩)
          (List.forall_mem_cons.2 ⟨hs, hp⟩) (by rw [List.length_cons]; omega)
        simp only [ih]
      · rw [cell_of_size_le (Nat.not_lt.1 hs)]
        rfl

theorem viewBelow_eq_view (h : Heap) {n : ℕ} (hn : h.size < n) (v : Value) :
    h.viewBelow n [] v = h.view v := by
  obtain ⟨m, rfl⟩ := Nat.exists_eq_add_of_le (show h.size + 1 ≤ n by omega)
  exact viewBelow_add h m (h.size + 1) [] v List.nodup_nil (by simp) (by simp)

/-- A heap holds the cells of another that are among given ones under other names, and these refer
to each other only. -/
structure Repeats (h h' : Heap) (f : Ref → Ref) (S : Ref → Prop) : Prop where
  cell : ∀ r, S r → h'.cell (f r) = (h.cell r).map fun (k, v) => (k, v.rename f)
  closed : ∀ r, S r → ∀ q ∈ refsOf (h.cell r), S q
  inj : ∀ r q, S r → S q → f r = f q → r = q

theorem idxOf?_map {f : Ref → Ref} {r : Ref} : ∀ {path : List Ref},
    (∀ q ∈ path, f q = f r → q = r) → (path.map f).idxOf? (f r) = path.idxOf? r
  | [], _ => rfl
  | q :: path, h => by
    rw [List.forall_mem_cons] at h
    simp only [List.map_cons, List.idxOf?_cons, idxOf?_map h.2, beq_iff_eq]
    by_cases hq : q = r
    · simp [hq]
    · have hf : f q ≠ f r := fun e => hq (h.1 e)
      simp [hq, hf]

theorem Repeats.viewBelow_eq {h h' : Heap} {f : Ref → Ref} {S : Ref → Prop}
    (H : Repeats h h' f S) : ∀ (n : ℕ) (path : List Ref) (v : Value), (∀ r ∈ path, S r) →
      (∀ r, v.ref? = some r → S r) →
      h'.viewBelow n (path.map f) (v.rename f) = h.viewBelow n path v
  | n, path, .scalar s, _, _ => by cases n <;> rfl
  | n, path, .list xs, _, _ => by cases n <;> rfl
  | 0, path, .map r, _, _ => rfl
  | n + 1, path, .map r, hp, hv => by
    have hr : S r := hv r rfl
    have hi := idxOf?_map (f := f) (r := r) fun q hq => H.inj q r (hp q hq) hr
    rw [Value.rename_map]
    simp only [viewBelow, hi, H.cell r hr]
    split
    · rfl
    · simp only [List.map_map, Datum.map.injEq]
      refine List.map_congr_left fun e he => ?_
      have ih := H.viewBelow_eq n (r :: path) e.2 (List.forall_mem_cons.2 ⟨hr, hp⟩)
        fun q hq => H.closed r hr q (mem_refsOf.2 ⟨e, he, hq⟩)
      simp only [Function.comp_apply, ← ih, List.map_cons]

theorem Repeats.view_eq {h h' : Heap} {f : Ref → Ref} {S : Ref → Prop} (H : Repeats h h' f S)
    {v : Value} (hv : ∀ r, v.ref? = some r → S r) : h'.view (v.rename f) = h.view v := by
  have he := H.viewBelow_eq (max h.size h'.size + 1) [] v (by simp) hv
  rw [← viewBelow_eq_view h (n := max h.size h'.size + 1) (by omega),
    ← viewBelow_eq_view h' (n := max h.size h'.size + 1) (by omega)]
  exact he

/-! ## Grafts -/

/-- The name that a graft gives to a cell of its source. -/
def grafted (h src : Heap) (t : Table Value) (r : Ref) : Ref :=
  h.size + (src.reach (refsOf t)).idxOf r

theorem graft_snd (h src : Heap) (t : Table Value) :
    (h.graft src t).2 = t.map fun (k, v) => (k, v.rename (h.grafted src t)) := rfl

theorem graft_fst (h src : Heap) (t : Table Value) :
    (h.graft src t).1 = h ++ ((src.reach (refsOf t)).map fun r =>
      (src.cell r).map fun (k, v) => (k, v.rename (h.grafted src t))).toArray := rfl

theorem size_le_graft (h src : Heap) (t : Table Value) : h.size ≤ (h.graft src t).1.size := by
  rw [graft_fst, Array.size_append]
  exact Nat.le_add_right _ _

theorem repeats_graft (h src : Heap) (t : Table Value) :
    Repeats src (h.graft src t).1 (h.grafted src t) (· ∈ src.reach (refsOf t)) where
  cell r hr := by
    rw [graft_fst, grafted, cell_append_right, List.getElem?_map,
      List.getElem?_eq_getElem (List.idxOf_lt_length_of_mem hr), List.getElem_idxOf]
    rfl
  closed := (reach_closed src (refsOf t)).2
  inj r q hr _ he := (List.idxOf_inj hr).1 (Nat.add_left_cancel he)

/-- Writing to an old cell leaves what was grafted as it is. -/
theorem repeats_graft_set {h : Heap} {r : Ref} (hr : r < h.size) (src : Heap)
    (t u : Table Value) :
    Repeats src ((h.graft src t).1.setIfInBounds r u) (h.grafted src t)
      (· ∈ src.reach (refsOf t)) where
  cell q hq := by
    have hne : r ≠ h.grafted src t q := (hr.trans_le (Nat.le_add_right _ _)).ne
    rw [cell_setIfInBounds, if_neg (fun hc => hne hc.1), (repeats_graft h src t).cell q hq]
  closed := (repeats_graft h src t).closed
  inj := (repeats_graft h src t).inj

/-- No two keys of a cell are alike. -/
def Keyed (h : Heap) : Prop := ∀ r, (h.cell r).Keyed

end Heap

namespace Context

/-- A context that is loaded from another one shows what that one shows. -/
theorem view_load {c src : Context} {r q : Ref} (hc : c.root = .map r) (hr : r < c.heap.size)
    (hs : src.root = .map q) (hk : (src.heap.cell q).Keyed) :
    (c.load src).1.view = src.view := by
  have he : src.entries = src.heap.cell q := by rw [entries, hs]
  have ht : Table.ofList (c.heap.graft src.heap src.entries).2
      = (c.heap.graft src.heap src.entries).2 := by
    refine Table.ofList_eq (Table.keyed_congr ?_ (he ▸ hk))
    rw [Heap.graft_snd, List.map_map]
    rfl
  have hl : (c.load src).1 = ⟨(c.heap.graft src.heap src.entries).1.setIfInBounds r
      (c.heap.graft src.heap src.entries).2, .map r⟩ := by
    simp only [load, hc, hs, setEntries, ht]
  have hR := Heap.repeats_graft_set hr src.heap src.entries (c.heap.graft src.heap src.entries).2
  have hroot := (Heap.reach_closed src.heap (Heap.refsOf src.entries)).1
  rw [hl]
  simp only [view, hs, entries]
  rw [Heap.cell_setIfInBounds, if_pos ⟨rfl, hr.trans_le (Heap.size_le_graft _ _ _)⟩,
    Heap.graft_snd, Heap.viewTable, List.map_map, Heap.viewTable, ← he]
  simp only [Datum.map.injEq]
  refine List.map_congr_left fun e hm => ?_
  have := hR.view_eq (v := e.2) fun p hp => hroot p (Heap.mem_refsOf.2 ⟨e, hm, hp⟩)
  simp only [Function.comp_apply, ← this]
  rfl

end Context

end Colloquy
