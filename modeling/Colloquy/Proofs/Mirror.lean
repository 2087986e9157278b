import Colloquy.Context.Equality
import Colloquy.Proofs.Refs

/-!
# Heaps that mirror each other

A heap mirrors another one when it repeats those of its cells that matter under other names, and
gives names in step to the cells that are to come (`Heap.Mirrors`). Whatever is written, held or
grafted on both sides keeps them so (`Context.write_mirrors`, `Heap.hold_mirrors`,
`Heap.graft_mirrors`), and what is read, compared or measured is the same on both
(`Context.walk_mirrors`, `Heap.Repeats.equalWithin_eq`, `Heap.Repeats.depth_eq`). So one context
that mirrors another shows what that one shows, and loads what it loads (`Context.Mirrors`).
-/

namespace Colloquy

namespace Heap

/-- A heap holds the cells of another that are among given ones under other names, and the cells
that are to come get their names in step. -/
structure Mirrors (f : Ref → Ref) (S : Ref → Prop) (h h' : Heap) : Prop where
  repeats : Repeats h h' f S
  fresh : ∀ k, S (h.size + k) ∧ f (h.size + k) = h'.size + k
  inside : ∀ r, S r → r < h.size → f r < h'.size

namespace Mirrors

variable {f : Ref → Ref} {S : Ref → Prop} {h h' : Heap}

theorem lt_iff (H : Mirrors f S h h') {r : Ref} (hr : S r) : f r < h'.size ↔ r < h.size := by
  refine ⟨fun hf => ?_, H.inside r hr⟩
  by_contra hn
  obtain ⟨k, rfl⟩ := Nat.exists_eq_add_of_le (Nat.not_lt.1 hn)
  rw [(H.fresh k).2] at hf
  exact absurd hf (Nat.not_lt.2 (Nat.le_add_right _ _))

theorem next (H : Mirrors f S h h') : S h.size ∧ f h.size = h'.size := H.fresh 0

theorem setIfInBounds (H : Mirrors f S h h') {r : Ref} (hr : S r) {t : Table Value}
    (ht : ∀ q ∈ refsOf t, S q) :
    Mirrors f S (Array.setIfInBounds h r t) (Array.setIfInBounds h' (f r) (t.renamed f)) where
  repeats := {
    cell := fun p hp => by
      have hc : (f r = f p ∧ f r < h'.size) ↔ (r = p ∧ r < h.size) := by
        rw [H.lt_iff hr]
        exact and_congr_left fun _ => ⟨H.repeats.inj r p hr hp, congrArg f⟩
      rw [cell_setIfInBounds, cell_setIfInBounds, if_congr hc rfl rfl]
      split_ifs
      · rfl
      · exact H.repeats.cell p hp
    closed := fun p hp q hq => by
      rw [cell_setIfInBounds] at hq
      split_ifs at hq
      · exact ht q hq
      · exact H.repeats.closed p hp q hq
    inj := H.repeats.inj }
  fresh := by simpa using H.fresh
  inside := by simpa using H.inside

theorem append (H : Mirrors f S h h') {cells : List (Table Value)}
    (hc : ∀ t ∈ cells, ∀ q ∈ refsOf t, S q) :
    Mirrors f S (h ++ cells.toArray) (h' ++ (cells.map (Table.renamed f)).toArray) where
  repeats := {
    cell := fun p hp => by
      rcases Nat.lt_or_ge p h.size with hs | hs
      · rw [cell_append_left hs, cell_append_left (H.inside p hp hs)]
        exact H.repeats.cell p hp
      · obtain ⟨i, rfl⟩ := Nat.exists_eq_add_of_le hs
        rw [(H.fresh i).2, cell_append_right, cell_append_right, List.getElem?_map]
        cases cells[i]? <;> rfl
    closed := fun p hp q hq => by
      rcases Nat.lt_or_ge p h.size with hs | hs
      · rw [cell_append_left hs] at hq
        exact H.repeats.closed p hp q hq
      · obtain ⟨i, rfl⟩ := Nat.exists_eq_add_of_le hs
        rw [cell_append_right] at hq
        rcases hi : cells[i]? with _ | t
        · rw [hi] at hq
          exact absurd hq List.not_mem_nil
        · rw [hi] at hq
          exact hc t (List.mem_of_getElem? hi) q hq
    inj := H.repeats.inj }
  fresh k := by
    simp only [Array.size_append, List.size_toArray, List.length_map, Nat.add_assoc]
    exact H.fresh (cells.length + k)
  inside r hr hs := by
    simp only [Array.size_append, List.size_toArray, List.length_map] at hs ⊢
    rcases Nat.lt_or_ge r h.size with hl | hl
    · exact (H.inside r hr hl).trans_le (Nat.le_add_right _ _)
    · obtain ⟨i, rfl⟩ := Nat.exists_eq_add_of_le hl
      rw [(H.fresh i).2]
      exact Nat.add_lt_add_left (Nat.lt_of_add_lt_add_left hs) _

theorem alloc (H : Mirrors f S h h') {t : Table Value} (ht : ∀ q ∈ refsOf t, S q) :
    Mirrors f S (h.alloc t).1 (h'.alloc (t.renamed f)).1 := by
  have hc : ∀ u ∈ [t], ∀ q ∈ refsOf u, S q := by simpa using ht
  simpa [Heap.alloc] using H.append hc

theorem putField (H : Mirrors f S h h') {r : Ref} (hr : S r) (name : String) {v : Value}
    (hv : v.In S) : Mirrors f S (h.putField r name v) (h'.putField (f r) name (v.rename f)) := by
  have hc : h'.cell (f r) = (h.cell r).renamed f := H.repeats.cell r hr
  rw [Heap.putField, Heap.putField, hc, Table.put_renamed]
  exact H.setIfInBounds hr fun q hq => (mem_refsOf_put hq).elim (H.repeats.closed r hr q) (hv q)

end Mirrors

/-! ## Data on a heap -/

section hold

variable {f : Ref → Ref} {S : Ref → Prop}

mutual

theorem hold_mirrors : ∀ (d : Datum) {h h' : Heap}, Mirrors f S h h' →
    Mirrors f S (h.hold d).1 (h'.hold d).1 ∧ (h'.hold d).2 = (h.hold d).2.rename f ∧
      (h.hold d).2.In S
  | .scalar _, _, _, H => ⟨H, rfl, nofun⟩
  | .list _, _, _, H => ⟨H, rfl, nofun⟩
  | .back _, _, _, H => ⟨H, rfl, nofun⟩
  | .map es, h, h', H => by
    obtain ⟨H₁, ht, hs⟩ := holdEntries_mirrors es H
    obtain ⟨hsize, hname⟩ := H₁.next
    simp only [hold, ht]
    refine ⟨H₁.alloc hs, ?_, fun r hr => ?_⟩
    · exact congrArg Value.map hname.symm
    · exact Option.some.inj hr ▸ hsize

theorem holdEntries_mirrors : ∀ (es : List (Scalar × Datum)) {h h' : Heap}, Mirrors f S h h' →
    Mirrors f S (h.holdEntries es).1 (h'.holdEntries es).1 ∧
      (h'.holdEntries es).2 = Table.renamed f (h.holdEntries es).2 ∧
      ∀ q ∈ refsOf (h.holdEntries es).2, S q
  | [], _, _, H => ⟨H, rfl, nofun⟩
  | (k, d) :: es, h, h', H => by
    obtain ⟨H₁, hv, hs⟩ := hold_mirrors d H
    obtain ⟨H₂, ht, hs'⟩ := holdEntries_mirrors es H₁
    simp only [holdEntries, hv, ht]
    refine ⟨H₂, rfl, fun q hq => ?_⟩
    obtain ⟨e, he, hr⟩ := mem_refsOf.1 hq
    rcases List.mem_cons.1 he with rfl | he
    · exact hs q hr
    · exact hs' q (mem_refsOf.2 ⟨e, he, hr⟩)

end

end hold

/-! ## Equality and depth -/

theorem allM_congr {α : Type} {p q : α → Option Bool} : ∀ {l : List α}, (∀ a ∈ l, p a = q a) →
    l.allM p = l.allM q
  | [], _ => rfl
  | a :: l, h => by
    rw [List.forall_mem_cons] at h
    simp only [List.allM, h.1, allM_congr h.2]

theorem allM_map {α β : Type} (g : α → β) (p : β → Option Bool) : ∀ l : List α,
    (l.map g).allM p = l.allM fun a => p (g a)
  | [] => rfl
  | a :: l => by simp only [List.map_cons, List.allM, allM_map g p l]

namespace Repeats

variable {f : Ref → Ref} {S : Ref → Prop} {h h' : Heap}

theorem in_of_mem (H : Repeats h h' f S) {r : Ref} (hr : S r) {e : Scalar × Value}
    (he : e ∈ h.cell r) : e.2.In S := fun q hq =>
  H.closed r hr q (mem_refsOf.2 ⟨e, he, hq⟩)

theorem in_of_get? (H : Repeats h h' f S) {r : Ref} (hr : S r) {key : Scalar} {v : Value}
    (hv : (h.cell r).get? key = some v) : v.In S := fun q hq =>
  H.closed r hr q (mem_refsOf_of_get? hv hq)

/-- What is compared is the same in a heap that repeats another one. -/
theorem equalWithin_eq (H : Repeats h h' f S) : ∀ (n : ℕ) {v w : Value}, v.In S → w.In S →
    h'.equalWithin n (v.rename f) (w.rename f) = h.equalWithin n v w := by
  intro n
  induction n with
  | zero =>
    intro v w _ _
    cases v <;> cases w <;> rfl
  | succ n ih =>
    intro v w hv hw
    cases v with
    | scalar => cases w <;> rfl
    | list => cases w <;> rfl
    | map r =>
      cases w with
      | scalar | list => rfl
      | map q =>
        have hr : h'.cell (f r) = (h.cell r).renamed f := H.cell r (hv r rfl)
        have hq : h'.cell (f q) = (h.cell q).renamed f := H.cell q (hw q rfl)
        simp only [Value.rename, equalWithin, hr, hq, Table.length_renamed]
        refine if_congr Iff.rfl ((allM_map _ _ _).trans (allM_congr fun e he => ?_)) rfl
        have hv' := H.in_of_mem (hv r rfl) he
        simp only [Table.get?_renamed]
        rcases hg : (h.cell q).get? e.1 with _ | u
        · rfl
        · have hu := H.in_of_get? (hw q rfl) hg
          simp only [Option.map_some, Value.rename_inj H.inj hu hv', ih hu hv']

theorem mem_map_iff (H : Repeats h h' f S) {r : Ref} {seen : List Ref} (hr : S r)
    (hs : ∀ q ∈ seen, S q) : f r ∈ seen.map f ↔ r ∈ seen := by
  refine ⟨fun h => ?_, List.mem_map_of_mem⟩
  obtain ⟨q, hq, he⟩ := List.mem_map.1 h
  exact H.inj q r (hs q hq) hr he ▸ hq

theorem depthFrom_eq (H : Repeats h h' f S) : ∀ (n : ℕ) {todo : List (Ref × ℕ)} {seen : List Ref},
    (∀ e ∈ todo, S e.1) → (∀ r ∈ seen, S r) →
    h'.depthFrom n (todo.map fun e => (f e.1, e.2)) (seen.map f) = h.depthFrom n todo seen
  | 0, _, _, _, _ => rfl
  | _ + 1, [], _, _, _ => rfl
  | n + 1, (r, d) :: todo, seen, ht, hs => by
    rw [List.forall_mem_cons] at ht
    have hc : h'.cell (f r) = (h.cell r).renamed f := H.cell r ht.1
    have hn : ∀ e ∈ (refsOf (h.cell r)).map (·, d + 1) ++ todo, S e.1 := by
      intro e he
      rcases List.mem_append.1 he with he | he
      · obtain ⟨q, hq, rfl⟩ := List.mem_map.1 he
        exact H.closed r ht.1 q hq
      · exact ht.2 e he
    have h₁ := H.depthFrom_eq n ht.2 hs
    have h₂ := H.depthFrom_eq n hn (List.forall_mem_cons.2 ⟨ht.1, hs⟩)
    rw [List.map_append, List.map_map, List.map_cons] at h₂
    simp only [List.map_cons, depthFrom, H.mem_map_iff ht.1 hs, hc, depthOfLists_renamed,
      refsOf_renamed, List.map_map, h₁]
    split_ifs
    · rfl
    · exact congrArg _ h₂

theorem reachFrom_eq (H : Repeats h h' f S) : ∀ (n : ℕ) {todo seen : List Ref},
    (∀ r ∈ todo, S r) → (∀ r ∈ seen, S r) →
    h'.reachFrom n (todo.map f) (seen.map f) = (h.reachFrom n todo seen).map f ∧
      ∀ r ∈ h.reachFrom n todo seen, S r
  | 0, _, _, _, hs => ⟨rfl, hs⟩
  | _ + 1, [], _, _, hs => ⟨rfl, hs⟩
  | n + 1, r :: todo, seen, ht, hs => by
    rw [List.forall_mem_cons] at ht
    have hc : h'.cell (f r) = (h.cell r).renamed f := H.cell r ht.1
    have hn : ∀ q ∈ refsOf (h.cell r) ++ todo, S q := fun q hq =>
      (List.mem_append.1 hq).elim (H.closed r ht.1 q) (ht.2 q)
    have hs' : ∀ q ∈ seen ++ [r], S q := fun q hq =>
      (List.mem_append.1 hq).elim (hs q) fun hq => List.mem_singleton.1 hq ▸ ht.1
    have h₁ := H.reachFrom_eq n ht.2 hs
    have h₂ := H.reachFrom_eq n hn hs'
    rw [List.map_append, List.map_append] at h₂
    simp only [List.map_cons, reachFrom, H.mem_map_iff ht.1 hs, hc, refsOf_renamed]
    split_ifs
    · exact h₁
    · exact h₂

end Repeats

/-! ## Steps to spare -/

theorem ahead_cons {h : Heap} {seen : List Ref} {r : Ref} (hr : r ∉ seen) :
    h.ahead (r :: seen) + (h.cell r).length = h.ahead seen := by
  have he : ∀ q, q ∈ r :: seen ↔ q ∈ seen ++ [r] := fun q => by simp [or_comm]
  rw [← ahead_append hr]
  simp only [ahead, he]

/-- Where every entry ahead has a step, more steps measure the same depth. -/
theorem depthFrom_add (h : Heap) (m : ℕ) : ∀ (n : ℕ) (todo : List (Ref × ℕ)) (seen : List Ref),
    todo.length + h.ahead seen < n → h.depthFrom (n + m) todo seen = h.depthFrom n todo seen
  | 0, _, _, hn => absurd hn (Nat.not_lt_zero _)
  | n + 1, [], seen, _ => by rw [Nat.succ_add]; rfl
  | n + 1, (r, d) :: todo, seen, hn => by
    rw [List.length_cons] at hn
    rw [Nat.succ_add, depthFrom, depthFrom]
    split_ifs with hr
    · exact depthFrom_add h m n todo seen (by omega)
    · have ha := ahead_cons (h := h) hr
      have hl := length_refsOf_le (h.cell r)
      rw [depthFrom_add h m n _ (r :: seen) (by
        rw [List.length_append, List.length_map]
        omega)]

/-- Where every entry ahead has a step, more steps reach the same cells. -/
theorem reachFrom_add (h : Heap) (m : ℕ) : ∀ (n : ℕ) (todo seen : List Ref),
    todo.length + h.ahead seen < n → h.reachFrom (n + m) todo seen = h.reachFrom n todo seen
  | 0, _, _, hn => absurd hn (Nat.not_lt_zero _)
  | n + 1, [], seen, _ => by rw [Nat.succ_add]; rfl
  | n + 1, r :: todo, seen, hn => by
    rw [List.length_cons] at hn
    rw [Nat.succ_add, reachFrom, reachFrom]
    split_ifs with hr
    · exact reachFrom_add h m n todo seen (by omega)
    · have ha := ahead_append (h := h) hr
      have hl := length_refsOf_le (h.cell r)
      exact reachFrom_add h m n _ (seen ++ [r]) (by
        rw [List.length_append]
        omega)

namespace Repeats

variable {f : Ref → Ref} {S : Ref → Prop} {h h' : Heap}

/-- What is measured is the same in a heap that repeats another one. -/
theorem depth_eq (H : Repeats h h' f S) {v : Value} (hv : v.In S) :
    h'.depth (v.rename f) = h.depth v := by
  cases v with
  | scalar | list => rfl
  | map r =>
    have ht : ∀ e ∈ [(r, 0)], S e.1 := by simpa using hv r rfl
    have hd := H.depthFrom_eq (h.edgeCount + 2 + (h'.edgeCount + 2)) ht
      (List.forall_mem_nil S)
    rw [depthFrom_add h _ _ _ _ (by rw [ahead_nil, List.length_singleton]; omega), Nat.add_comm]
      at hd
    rw [List.map_nil, depthFrom_add h' _ _ _ _ (by
      rw [ahead_nil, List.length_map, List.length_singleton]
      omega)] at hd
    exact hd

/-- What is reached is the same in a heap that repeats another one, under its names there. -/
theorem reach_eq (H : Repeats h h' f S) {todo : List Ref} (ht : ∀ r ∈ todo, S r) :
    h'.reach (todo.map f) = (h.reach todo).map f ∧ ∀ r ∈ h.reach todo, S r := by
  have hr := H.reachFrom_eq (todo.length + h.edgeCount + 1 + (todo.length + h'.edgeCount + 1)) ht
    (List.forall_mem_nil S)
  rw [reachFrom_add h _ _ _ _ (by rw [ahead_nil]; omega), Nat.add_comm] at hr
  rw [List.map_nil, reachFrom_add h' _ _ _ _ (by rw [ahead_nil, List.length_map]; omega)] at hr
  rw [reach, List.length_map]
  exact hr

end Repeats

/-! ## Grafts -/

theorem idxOf_map {f : Ref → Ref} {r : Ref} : ∀ {rs : List Ref}, (∀ q ∈ rs, f q = f r → q = r) →
    (rs.map f).idxOf (f r) = rs.idxOf r
  | [], _ => rfl
  | q :: rs, h => by
    rw [List.forall_mem_cons] at h
    have hq : (f q == f r) = (q == r) := by
      rw [Bool.eq_iff_iff, beq_iff_eq, beq_iff_eq]
      exact ⟨h.1, congrArg f⟩
    simp only [List.map_cons, List.idxOf_cons, hq, idxOf_map h.2]

/-- A graft of what repeats another heap mirrors the graft of that one, whatever the names are under
which it does so. -/
theorem graft_mirrors {f g : Ref → Ref} {S T : Ref → Prop} {h h' src src' : Heap}
    (H : Mirrors f S h h') (R : Repeats src src' g T) {t : Table Value}
    (ht : ∀ q ∈ refsOf t, T q) :
    Mirrors f S (h.graft src t).1 (h'.graft src' (t.renamed g)).1 ∧
      (h'.graft src' (t.renamed g)).2 = Table.renamed f (h.graft src t).2 ∧
      ∀ q ∈ refsOf (h.graft src t).2, S q := by
  obtain ⟨hreach, hT⟩ := R.reach_eq ht
  have hclosed := reach_closed src (refsOf t)
  rw [← refsOf_renamed] at hreach
  -- the cells of a graft are named in step, whatever they are copies of
  have hname : ∀ u : Table Value, (∀ q ∈ refsOf u, q ∈ src.reach (refsOf t)) →
      (u.renamed g).renamed (h'.grafted src' (t.renamed g)) =
        (u.renamed (h.grafted src t)).renamed f := by
    intro u hu
    refine Table.renamed_comm fun q hq => ?_
    have hi : (src'.reach (refsOf (t.renamed g))).idxOf (g q) = (src.reach (refsOf t)).idxOf q := by
      rw [hreach]
      exact idxOf_map fun p hp => R.inj p q (hT p hp) (hT q (hu q hq))
    rw [grafted, hi, grafted, (H.fresh _).2]
  have hrefs : ∀ u : Table Value, ∀ q ∈ refsOf (u.renamed (h.grafted src t)), S q := by
    intro u q hq
    rw [refsOf_renamed] at hq
    obtain ⟨p, -, rfl⟩ := List.mem_map.1 hq
    exact (H.fresh _).1
  refine ⟨?_, hname t hclosed.1, hrefs t⟩
  have hcells : (src'.reach (refsOf (t.renamed g))).map (fun r =>
      (src'.cell r).renamed (h'.grafted src' (t.renamed g))) =
        ((src.reach (refsOf t)).map fun r => (src.cell r).renamed (h.grafted src t)).map
          (Table.renamed f) := by
    rw [hreach, List.map_map, List.map_map]
    refine List.map_congr_left fun r hr => ?_
    have hc : src'.cell (g r) = (src.cell r).renamed g := R.cell r (hT r hr)
    simp only [Function.comp_apply, hc, hname _ (hclosed.2 r hr)]
  have hown : ∀ u ∈ (src.reach (refsOf t)).map fun r => (src.cell r).renamed (h.grafted src t),
      ∀ q ∈ refsOf u, S q := by
    intro u hu
    obtain ⟨r, -, rfl⟩ := List.mem_map.1 hu
    exact hrefs _
  have hm := H.append hown
  rw [← hcells] at hm
  exact hm

end Heap

namespace Context

open Heap (Repeats refsOf)

/-! ## Reading and writing -/

section heap

variable {f : Ref → Ref} {S : Ref → Prop} {h h' : Heap}

theorem walk_nil (h : Heap) (v : Value) : walk h v [] = some v := by
  unfold walk
  rfl

theorem walk_mirrors (H : Repeats h h' f S) : ∀ (p : Path) {v : Value}, v.In S →
    walk h' (v.rename f) p = (walk h v p).map (·.rename f) ∧
      ∀ w, walk h v p = some w → w.In S
  | [], v, hv => by
    rw [walk_nil, walk_nil]
    refine ⟨rfl, fun w he => ?_⟩
    cases he
    exact hv
  | key :: rest, v, hv => by
    cases v with
    | scalar | list =>
      simp only [Value.rename, walk, Option.map_none, reduceCtorEq, false_implies, implies_true,
        and_self]
    | map r =>
      have hc : h'.cell (f r) = (h.cell r).renamed f := H.cell r (hv r rfl)
      simp only [Value.rename, walk, hc, Table.get?_renamed]
      rcases hg : (h.cell r).get? (.text key) with _ | u
      · simp only [Option.map_none, reduceCtorEq, false_implies, implies_true, and_self]
      · exact walk_mirrors H rest (H.in_of_get? (hv r rfl) hg)

theorem write_mirrors : ∀ (p : Path) {h h' : Heap} {r : Ref} {v : Value},
    Heap.Mirrors f S h h' → S r → v.In S →
    Heap.Mirrors f S (write h r p v).1 (write h' (f r) p (v.rename f)).1 ∧
      (write h' (f r) p (v.rename f)).2 = (write h r p v).2
  | [], _, _, _, _, H, _, _ => ⟨H, rfl⟩
  | [key], _, _, _, _, H, hr, hv => ⟨H.putField hr key hv, rfl⟩
  | key :: k :: rest, h, h', r, v, H, hr, hv => by
    have hc : h'.cell (f r) = (h.cell r).renamed f := H.repeats.cell r hr
    obtain ⟨hs, hn⟩ := H.next
    have hfresh : Heap.Mirrors f S ((h.alloc []).1.putField r key (.map h.size))
        ((h'.alloc []).1.putField (f r) key (.map h'.size)) := by
      have ha := (H.alloc (t := []) (fun q hq => absurd hq List.not_mem_nil)).putField hr key
        (v := .map h.size) fun q hq => Option.some.inj hq ▸ hs
      rwa [Value.rename_map, hn] at ha
    have ih := write_mirrors (k :: rest) hfresh hs hv
    rw [hn] at ih
    simp only [write, hc, Table.get?_renamed]
    -- what had to be replaced is reported alike
    have hl (other : Option Value) :=
      congrArg (fun l => if other.isNone || other = some (.scalar .null) then l else key :: l) ih.2
    rcases hg : (h.cell r).get? (.text key) with _ | (s | ds | child)
    · exact ⟨ih.1, hl none⟩
    · exact ⟨ih.1, hl (some (.scalar s))⟩
    · exact ⟨ih.1, hl (some (.list ds))⟩
    · exact write_mirrors (k :: rest) H (H.repeats.in_of_get? hr hg child rfl) hv

end heap

theorem load_tables {c src : Context} {r q : Ref} (hc : c.root = .map r) (hs : src.root = .map q) :
    c.load src = (setEntries { c with heap := (c.heap.graft src.heap src.entries).1 }
      (Table.ofList (c.heap.graft src.heap src.entries).2), none) := by
  simp only [load, hc, hs]

theorem load_other {c src : Context} (h : ∀ r q, c.root = .map r → src.root ≠ .map q) :
    c.load src = c.loadDatum (src.heap.view src.root) := by
  unfold load
  split
  · rename_i hc hs
    exact absurd hs (h _ _ hc)
  · rfl

/-- A context repeats another one: its heap does, and its value is that of the other one under its
name there. -/
structure Repeats (f : Ref → Ref) (S : Ref → Prop) (c c' : Context) : Prop where
  heap : Heap.Repeats c.heap c'.heap f S
  root : c'.root = c.root.rename f
  rooted : c.root.In S

namespace Repeats

variable {f : Ref → Ref} {S : Ref → Prop} {c c' : Context}

theorem entries_eq (R : c.Repeats f S c') :
    c'.entries = c.entries.renamed f ∧ ∀ q ∈ refsOf c.entries, S q := by
  rw [entries, entries, R.root]
  rcases hr : c.root with s | ds | r
  · exact ⟨rfl, fun q hq => absurd hq List.not_mem_nil⟩
  · exact ⟨rfl, fun q hq => absurd hq List.not_mem_nil⟩
  · have hS : S r := R.rooted r (by rw [hr]; rfl)
    exact ⟨R.heap.cell r hS, R.heap.closed r hS⟩

theorem view_eq (R : c.Repeats f S c') : c'.view = c.view := by
  obtain ⟨he, hS⟩ := R.entries_eq
  have hv := R.heap.view_eq R.rooted
  have ht : c'.heap.viewTable (c.entries.renamed f) = c.heap.viewTable c.entries := by
    unfold Heap.viewTable Table.renamed
    rw [List.map_map]
    refine List.map_congr_left fun e hm => ?_
    have hw := R.heap.view_eq (v := e.2) fun q hq => hS q (Heap.mem_refsOf.2 ⟨e, hm, hq⟩)
    simp only [Function.comp_apply, hw]
  rw [view, view, he, ht, R.root]
  rcases hr : c.root with s | ds | r
  · rwa [hr] at hv
  · rwa [hr] at hv
  · rfl

end Repeats

/-- A context mirrors another one: its heap does, and its value is that of the other one under its
name there. -/
structure Mirrors (f : Ref → Ref) (S : Ref → Prop) (c c' : Context) : Prop where
  heap : Heap.Mirrors f S c.heap c'.heap
  root : c'.root = c.root.rename f
  rooted : c.root.In S

namespace Mirrors

variable {f : Ref → Ref} {S : Ref → Prop} {c c' : Context}

theorem get?_eq (H : c.Mirrors f S c') (p : Path) :
    c'.get? p = (c.get? p).map (·.rename f) ∧ ∀ v, c.get? p = some v → v.In S := by
  have hw := walk_mirrors H.heap.repeats p H.rooted
  rw [← H.root] at hw
  exact hw

theorem isCopyable_eq (H : c.Mirrors f S c') : c'.isCopyable = c.isCopyable := by
  rw [isCopyable, isCopyable, H.root, H.heap.repeats.depth_eq H.rooted]

theorem repeats (H : c.Mirrors f S c') : c.Repeats f S c' := ⟨H.heap.repeats, H.root, H.rooted⟩

theorem set_mirrors (H : c.Mirrors f S c') (p : Path) {v : Value} (hv : v.In S) :
    (∃ fault, c.set p v = .error fault ∧ c'.set p (v.rename f) = .error fault) ∨
      ∃ d d' replaced, c.set p v = .ok (d, replaced) ∧ c'.set p (v.rename f) = .ok (d', replaced) ∧
        d.Mirrors f S d' := by
  obtain ⟨h, root⟩ := c
  obtain ⟨h', root'⟩ := c'
  obtain ⟨H, rfl, hr⟩ := H
  rcases root with s | ds | r
  · left
    rcases p with _ | ⟨key, _ | ⟨k, rest⟩⟩
    all_goals exact ⟨_, rfl, rfl⟩
  · left
    rcases p with _ | ⟨key, _ | ⟨k, rest⟩⟩
    all_goals exact ⟨_, rfl, rfl⟩
  · right
    obtain ⟨hw, hl⟩ := write_mirrors p H (hr r rfl) hv
    refine ⟨⟨(write h r p v).1, .map r⟩, ⟨(write h' (f r) p (v.rename f)).1, .map (f r)⟩, _, rfl,
      ?_, hw, rfl, hr⟩
    rw [← hl]
    rfl

theorem setEntries_mirrors (H : c.Mirrors f S c') {t : Table Value} (ht : ∀ q ∈ refsOf t, S q) :
    (c.setEntries t).Mirrors f S (c'.setEntries (t.renamed f)) := by
  obtain ⟨h, root⟩ := c
  obtain ⟨h', root'⟩ := c'
  obtain ⟨H, rfl, hr⟩ := H
  rcases root with s | ds | r
  · exact ⟨H, rfl, hr⟩
  · exact ⟨H, rfl, hr⟩
  · exact ⟨H.setIfInBounds (hr r rfl) ht, rfl, hr⟩

theorem loadData_mirrors (H : c.Mirrors f S c') (t : Table Datum) :
    (c.loadData t).Mirrors f S (c'.loadData t) := by
  obtain ⟨hh, ht, hS⟩ := Heap.holdEntries_mirrors t H.heap
  have hc : Mirrors f S { c with heap := (c.heap.holdEntries t).1 }
      { c' with heap := (c'.heap.holdEntries t).1 } := ⟨hh, H.root, H.rooted⟩
  have he := hc.setEntries_mirrors hS
  rw [← ht] at he
  exact he

theorem loadDatum_mirrors (H : c.Mirrors f S c') (d : Datum) :
    (c.loadDatum d).1.Mirrors f S (c'.loadDatum d).1 ∧ (c'.loadDatum d).2 = (c.loadDatum d).2 := by
  unfold loadDatum
  rw [H.root]
  rcases hr : c.root with s | ds | r
  · exact ⟨H, rfl⟩
  · exact ⟨⟨H.heap, rfl, fun q hq => absurd hq nofun⟩, rfl⟩
  · simp only [Value.rename]
    split_ifs
    · exact ⟨H.loadData_mirrors _, rfl⟩
    · exact ⟨H.loadData_mirrors [], rfl⟩

/-- Loading contexts of which one repeats the other keeps contexts so that mirror each other. -/
theorem load_mirrors {g : Ref → Ref} {T : Ref → Prop} (H : c.Mirrors f S c') {src src' : Context}
    (R : src.Repeats g T src') :
    (c.load src).1.Mirrors f S (c'.load src').1 ∧ (c'.load src').2 = (c.load src).2 := by
  by_cases ht : ∃ r q, c.root = .map r ∧ src.root = .map q
  · obtain ⟨r, q, hr, hs⟩ := ht
    obtain ⟨he, hT⟩ := R.entries_eq
    obtain ⟨hh, ht, hS⟩ := Heap.graft_mirrors H.heap R.heap hT
    have hc : Mirrors f S { c with heap := (c.heap.graft src.heap src.entries).1 }
        { c' with heap := (c'.heap.graft src'.heap src'.entries).1 } := by
      rw [he]
      exact ⟨hh, H.root, H.rooted⟩
    have hm := hc.setEntries_mirrors fun q hq => hS q (Heap.mem_refsOf_ofList hq)
    rw [load_tables hr hs, load_tables (H.root.trans (by rw [hr]; rfl))
      (R.root.trans (by rw [hs]; rfl)), he, ht, Table.ofList_renamed]
    rw [he] at hm
    exact ⟨hm, rfl⟩
  · have hv := R.heap.view_eq R.rooted
    rw [← R.root] at hv
    rw [load_other fun r q hr hs => ht ⟨r, q, hr, hs⟩, load_other (c := c'), hv]
    · exact H.loadDatum_mirrors _
    · intro r q hr hs
      obtain ⟨r, hr⟩ := Value.eq_map_of_rename (H.root.symm.trans hr)
      obtain ⟨q, hs⟩ := Value.eq_map_of_rename (R.root.symm.trans hs)
      exact ht ⟨r, q, hr, hs⟩

end Mirrors

end Context

end Colloquy
