import Colloquy.Proofs.Apart
import Colloquy.Proofs.Beside

/-!
# Laws of reading and writing at paths

A context is a tree if no table in it is reached by two ways (`Context.IsTree`), which is to say
that none is inside itself and each stands in one place (`Context.IsTree.forest`,
`isTree_of_forest`). There a write is read back, is not seen at any path that parts from its own
(`Context.walk_write_apart`), and makes no difference to a later one at the same path
(`Context.write_write`); writing what is read changes nothing (`Context.write_get`). Each is an
induction along the path, and where a write finds no table to go through, it goes on in the new one.
-/

namespace Colloquy

open Heap

/-- A key has one entry only. -/
theorem Table.eq_of_mem {α : Type} {k : Scalar} {a b : α} : ∀ {t : Table α}, Table.Keyed t →
    (k, a) ∈ t → (k, b) ∈ t → a = b
  | [], _, ha, _ => absurd ha List.not_mem_nil
  | e :: t, keyed, ha, hb => by
    have other : ∀ {c : α}, (k, c) ∈ t → e.1 ≠ k := by
      rintro c hc rfl
      have hn := List.rel_of_pairwise_cons keyed (List.mem_map_of_mem (f := (·.1)) hc)
      rw [Scalar.alike_self] at hn
      cases hn
    rcases List.mem_cons.1 ha with ha' | ha'
    · rcases List.mem_cons.1 hb with hb' | hb'
      · exact (Prod.mk.inj (ha'.trans hb'.symm)).2
      · exact absurd (ha' ▸ rfl) (other hb')
    · rcases List.mem_cons.1 hb with hb' | hb'
      · exact absurd (hb' ▸ rfl) (other ha')
      · exact eq_of_mem (List.Pairwise.of_cons keyed) ha' hb'

/-! ## Ways through a heap -/

namespace Heap

/-- A table that is referred to once stands under one key. -/
theorem key_eq_of_nodup {k l : Scalar} {u : Ref} : ∀ {t : Table Value}, (refsOf t).Nodup →
    (k, .map u) ∈ t → (l, .map u) ∈ t → k = l
  | [], _, hk, _ => absurd hk List.not_mem_nil
  | e :: t, nodup, hk, hl => by
    rw [refsOf_cons, List.nodup_append'] at nodup
    obtain ⟨-, ht, apart⟩ := nodup
    have other : ∀ {k}, (k, .map u) ∈ t → e.2 ≠ .map u := fun hk he =>
      apart (by rw [he]; exact List.mem_singleton_self u) (mem_refsOf.2 ⟨_, hk, rfl⟩)
    rcases List.mem_cons.1 hk with hk' | hk'
    · rcases List.mem_cons.1 hl with hl' | hl'
      · exact (Prod.mk.inj (hk'.trans hl'.symm)).1
      · exact absurd (hk' ▸ rfl) (other hl')
    · rcases List.mem_cons.1 hl with hl' | hl'
      · exact absurd (hl' ▸ rfl) (other hk')
      · exact key_eq_of_nodup ht hk' hl'

/-- A way from one cell to another, by the keys of the entries that it takes. -/
inductive Route (h : Heap) : Ref → List Scalar → Ref → Prop
  | here (r : Ref) : Route h r [] r
  | step {r c u : Ref} {k : Scalar} {ks : List Scalar} (entry : (k, .map c) ∈ h.cell r)
      (rest : Route h c ks u) : Route h r (k :: ks) u

namespace Route

variable {h : Heap} {r c u : Ref} {k : Scalar} {ks ls : List Scalar}

theorem append (w : h.Route r ks c) (w' : h.Route c ls u) : h.Route r (ks ++ ls) u := by
  induction w with
  | here => exact w'
  | step entry _ ih => exact .step entry (ih w')

theorem snoc (w : h.Route r ks c) (entry : (k, .map u) ∈ h.cell c) : h.Route r (ks ++ [k]) u :=
  w.append (.step entry (.here u))

/-- A way that goes anywhere takes a last entry. -/
theorem last (w : h.Route r ks u) : ks = [] ∧ u = r ∨
    ∃ front k p, ks = front ++ [k] ∧ h.Route r front p ∧ (k, .map u) ∈ h.cell p := by
  induction w with
  | here r => exact .inl ⟨rfl, rfl⟩
  | @step r c u k ks entry _ ih =>
    right
    rcases ih with ⟨rfl, rfl⟩ | ⟨front, l, p, rfl, w, hl⟩
    · exact ⟨[], k, r, rfl, .here r, entry⟩
    · exact ⟨k :: front, l, p, rfl, .step entry w, hl⟩

theorem leads (w : h.Route r ks u) : h.Leads r u := by
  induction w with
  | here r => exact .refl h r
  | step entry _ ih => exact (Leads.next (.refl h _) (mem_refsOf.2 ⟨_, entry, rfl⟩)).trans ih

theorem of_leads (l : h.Leads r u) : ∃ ks, h.Route r ks u := by
  refine l.closed (P := fun x => ∃ ks, h.Route r ks x) ⟨[], .here r⟩ fun x ⟨ks, w⟩ q hq => ?_
  obtain ⟨⟨k, v⟩, he, hr⟩ := mem_refsOf.1 hq
  obtain rfl := Value.eq_map_of_ref? hr
  exact ⟨ks ++ [k], w.snoc he⟩

/-- A way leads to one cell only, as no two entries of a table have the same key. -/
theorem unique (keyed : h.Keyed) (w : h.Route r ks c) : h.Route r ks u → c = u := by
  induction w with
  | here =>
    rintro ⟨⟩
    rfl
  | step entry _ ih =>
    intro w'
    cases w' with
    | step entry' rest' =>
      obtain ⟨⟩ := Table.eq_of_mem (keyed _) entry entry'
      exact ih rest'

end Route

end Heap

/-! ## Trees -/

namespace Context

/-- No table of a context is reached by two ways. -/
def IsTree (c : Context) : Prop :=
  ∀ r, c.root = .map r → ∀ ks ls u, c.heap.Route r ks u → c.heap.Route r ls u → ks = ls

/-- A value that is there and has no table in common with a context. -/
structure IsApart (c : Context) (v : Value) : Prop where
  there : v.In (· < c.heap.size)
  apart : ∀ r u x, c.root = .map r → v.ref? = some u → c.heap.Leads u x → ¬ c.heap.Leads r x

section tree

variable {G : Ref → Prop} {c : Context} {r : Ref}

/-- The cells that are reached from a reference, and all fresh ones. -/
def Owned (h : Heap) (r x : Ref) : Prop := h.Leads r x ∨ h.size ≤ x

theorem owned_fenced (whole : c.Whole) (hr : c.root = .map r) : c.Fenced (Owned c.heap r) where
  heap := {
    closed := by
      rintro x (hx | hx) q hq
      · exact ⟨.inl (hx.next hq), whole.tight x q hq⟩
      · rw [cell_of_size_le hx] at hq
        exact absurd hq List.not_mem_nil
    fresh := fun _ => .inr }
  root q hq := by
    rw [hr] at hq
    cases hq
    exact ⟨.inl (.refl _ r), whole.sound.root r (by rw [hr]; rfl)⟩

/-- In a tree no table is inside itself, and each stands in one place. -/
theorem IsTree.forest (tree : c.IsTree) (whole : c.Whole) (hr : c.root = .map r) :
    c.heap.ForestOn (Owned c.heap r) where
  acyclic := by
    rintro x (hx | hx) q hq hl
    · obtain ⟨ks, w⟩ := Route.of_leads hx
      obtain ⟨⟨k, v⟩, he, hv⟩ := mem_refsOf.1 hq
      obtain rfl := Value.eq_map_of_ref? hv
      obtain ⟨ls, w'⟩ := Route.of_leads hl
      have same := tree r hr _ _ x w (w.append (.step he w'))
      simp at same
    · rw [cell_of_size_le hx] at hq
      exact absurd hq List.not_mem_nil
  nodup := by
    rintro x (hx | hx)
    · obtain ⟨ks, w⟩ := Route.of_leads hx
      have keyed := List.Pairwise.and_mem.1 (List.pairwise_map.1 (whole.sound.keyed x))
      refine List.Pairwise.filterMap _ ?_ keyed
      rintro ⟨k, v⟩ ⟨l, v'⟩ ⟨hk, hl, hkl⟩ u hu _ hu' rfl
      obtain rfl := Value.eq_map_of_ref? hu
      obtain rfl := Value.eq_map_of_ref? hu'
      obtain ⟨-, same⟩ := List.append_inj' (tree r hr _ _ u (w.snoc hk) (w.snoc hl)) rfl
      obtain rfl := List.singleton_inj.1 same
      rw [Scalar.alike_self] at hkl
      cases hkl
    · rw [cell_of_size_le hx]
      exact List.nodup_nil
  parent := by
    rintro x y u (hx | hx) (hy | hy) hxu hyu
    · obtain ⟨ks, w⟩ := Route.of_leads hx
      obtain ⟨ls, w'⟩ := Route.of_leads hy
      obtain ⟨⟨k, v⟩, he, hv⟩ := mem_refsOf.1 hxu
      obtain rfl := Value.eq_map_of_ref? hv
      obtain ⟨⟨l, v⟩, he', hv⟩ := mem_refsOf.1 hyu
      obtain rfl := Value.eq_map_of_ref? hv
      obtain ⟨rfl, -⟩ := List.append_inj' (tree r hr _ _ u (w.snoc he) (w'.snoc he')) rfl
      exact w.unique whole.sound.keyed w'
    · rw [cell_of_size_le hy] at hyu
      exact absurd hyu List.not_mem_nil
    · rw [cell_of_size_le hx] at hxu
      exact absurd hxu List.not_mem_nil
    · rw [cell_of_size_le hx] at hxu
      exact absurd hxu List.not_mem_nil

theorem isTree_of_forest (hG : c.Fenced G) (H : c.heap.ForestOn G) : c.IsTree := by
  intro r hr ks
  have inside : ∀ {ls x}, c.heap.Route r ls x → G x := fun w =>
    (w.leads.there hG.heap (hG.root r (by rw [hr]; rfl))).1
  have start : ∀ {ls k p}, c.heap.Route r ls p → (k, .map r) ∉ c.heap.cell p := fun w hk =>
    H.acyclic _ (inside w) r (mem_refsOf.2 ⟨_, hk, rfl⟩) w.leads
  -- two ways to a cell come through the one cell that holds it, so they are taken back together
  induction ks using List.reverseRecOn with
  | nil =>
    intro ls u w w'
    cases w
    rcases w'.last with ⟨rfl, -⟩ | ⟨front, k, p, -, w', hk⟩
    · rfl
    · exact absurd hk (start w')
  | append_singleton ks k ih =>
    intro ls u w w'
    rcases w.last with ⟨he, -⟩ | ⟨front, k', p, he, w, hk⟩
    · simp at he
    obtain ⟨rfl, hkk⟩ := List.append_inj' he rfl
    obtain rfl := List.singleton_inj.1 hkk
    rcases w'.last with ⟨-, rfl⟩ | ⟨front', l, p', rfl, w', hl⟩
    · exact absurd hk (start w)
    obtain rfl : p = p' := H.parent p p' u (inside w) (inside w') (mem_refsOf.2 ⟨_, hk, rfl⟩)
      (mem_refsOf.2 ⟨_, hl, rfl⟩)
    rw [ih _ _ w w', key_eq_of_nodup (H.nodup p (inside w)) hk hl]

end tree

/-! ## Writes -/

variable {G : Ref → Prop}

section step

variable {h : Heap} {r child : Ref} {key : String}

/-- What is written under one key is not seen under another one. -/
theorem walk_write_beside (H : ForestOn G h) (hG : Heap.Fenced G h) (hr : h.There G r)
    {k l : String} (hne : k ≠ l) (rest p : Path) (v : Value) :
    walk (write h r (l :: rest) v).1 (.map r) (k :: p) = walk h (.map r) (k :: p) := by
  have way : walk h (.map r) [] = some (.map r) := walk_nil h _
  have bound : ∀ x, Along h (.map r) (k :: p) x → x < h.size := fun x hx => by
    obtain ⟨r', hr', hl⟩ := leads_along hx
    cases hr'
    exact (hl.there hG hr).2
  have cut := cut_forest H hG hr.1 (p := p) hne way
  obtain ⟨K, -⟩ := write_kept hG hr (.inl (.inl rfl)) bound cut rest v
  exact (K.walk_eq H.acyclic hr.1 hne way fun x hx => .inl hx).2

/-- A write through a table leaves the cell that the table is in as it is. -/
theorem cell_write_through (H : AcyclicOn G h) (hr : h.There G r)
    (hc : (h.cell r).get? (.text key) = some (.map child)) (p : Path) (v : Value) :
    Heap.cell (write h child p v).1 r = h.cell r :=
  cell_write p v hr.2 fun he =>
    H r hr.1 child (mem_refsOf_of_get? hc rfl) (he ▸ leads_landing p child)

theorem walk_grow_size (hr : r < h.size) {q : Path} (hq : q ≠ []) :
    walk (grow h r key) (.map h.size) q = none := by
  obtain ⟨l, q, rfl⟩ := List.exists_cons_of_ne_nil hq
  rw [walk_cons, cell_grow_size hr]
  rfl

theorem walk_through (h : Heap) {v : Value} (hv : ∀ child, v ≠ .map child) {q : Path}
    (hq : q ≠ []) : walk h v q = none := by
  obtain ⟨l, q, rfl⟩ := List.exists_cons_of_ne_nil hq
  cases v with
  | scalar | list => rfl
  | map child => exact absurd rfl (hv child)

end step

theorem walk_write_apart : ∀ {p q : Path} {h : Heap} {r : Ref} (v : Value), ForestOn G h →
    Heap.Fenced G h → h.There G r → ¬ p <+: q → ¬ q <+: p →
    walk (write h r p v).1 (.map r) q = walk h (.map r) q
  | [], _, _, _, _, _, _, _, hp, _ => absurd List.nil_prefix hp
  | _ :: _, [], _, _, _, _, _, _, _, hq => absurd List.nil_prefix hq
  | [key], l :: q, h, r, v, H, hG, hr, hp, _ => by
    have hkl : l ≠ key := fun he => hp (he ▸ List.prefix_append [l] q)
    exact walk_write_beside H hG hr hkl [] q v
  | key :: k :: rest, l :: q, h, r, v, H, hG, hr, hp, hq => by
    by_cases hkl : l = key
    · subst hkl
      have hp' : ¬ k :: rest <+: q := fun hc => hp (List.cons_prefix_cons.2 ⟨rfl, hc⟩)
      have hq' : ¬ q <+: k :: rest := fun hc => hq (List.cons_prefix_cons.2 ⟨rfl, hc⟩)
      have hne : q ≠ [] := fun he => hq' (he ▸ List.nil_prefix)
      by_cases hc : ∃ child, (h.cell r).get? (.text l) = some (.map child)
      · obtain ⟨child, hc⟩ := hc
        have hchild := hG.closed r hr.1 child (mem_refsOf_of_get? hc rfl)
        rw [write_through hc, walk_cons, walk_cons, cell_write_through H.acyclic hr hc, hc,
          Option.bind_some, Option.bind_some]
        exact walk_write_apart v H hG hchild hp' hq'
      · -- nothing is read there before, and nothing of the new table after
        have hn := not_exists.1 hc
        have forest : ForestOn G (grow h r l) := grow_forest H hG hr.1 hr.2
        have ih := walk_write_apart v forest (grow_fenced hG hr.1) (grow_there hG) hp' hq'
        rw [write_grow hn, walk_cons, walk_cons, cell_write_grow hr.2, Table.get?_put_self,
          Option.bind_some, ih, walk_grow_size hr.2 hne]
        rcases hw : (h.cell r).get? (.text l) with _ | w
        · rfl
        · exact (walk_through h (fun child he => hn child (he ▸ hw)) hne).symm
    · exact walk_write_beside H hG hr hkl (k :: rest) q v

/-- Of two writes at one path the second counts. -/
theorem write_write : ∀ (p : Path) {h : Heap} {r : Ref} (v w : Value), AcyclicOn G h →
    Heap.Fenced G h → h.There G r → (write (write h r p v).1 r p w).1 = (write h r p w).1
  | [], _, _, _, _, _, _, _ => rfl
  | [key], h, r, v, w, _, _, hr => by
    change Heap.putField (h.putField r key v) r key w = h.putField r key w
    rw [putField, putField, cell_setIfInBounds, if_pos ⟨rfl, hr.2⟩, Table.put_put,
      Array.setIfInBounds_setIfInBounds]
    rfl
  | key :: k :: rest, h, r, v, w, H, hG, hr => by
    by_cases hc : ∃ child, (h.cell r).get? (.text key) = some (.map child)
    · obtain ⟨child, hc⟩ := hc
      have hchild := hG.closed r hr.1 child (mem_refsOf_of_get? hc rfl)
      have hc' := hc
      rw [← cell_write_through H hr hc (k :: rest) v] at hc'
      rw [write_through hc, write_through hc, write_through hc']
      exact write_write (k :: rest) v w H hG hchild
    · -- the second write goes through the table that the first one has put there
      have hn := not_exists.1 hc
      have hc' : (Heap.cell (write (grow h r key) h.size (k :: rest) v).1 r).get? (.text key) =
          some (.map h.size) := by
        rw [cell_write_grow hr.2, Table.get?_put_self]
      rw [write_grow hn, write_grow hn, write_through hc']
      exact write_write (k :: rest) v w (grow_acyclic H hr.1 hr.2) (grow_fenced hG hr.1)
        (grow_there hG)

theorem setIfInBounds_cell (h : Heap) (r : Ref) : h.setIfInBounds r (h.cell r) = h := by
  refine Array.ext_getElem? fun i => ?_
  rw [Array.getElem?_setIfInBounds]
  split_ifs with hi hs
  · subst hi
    simp [cell, hs]
  · subst hi
    rw [Array.getElem?_eq_none (Nat.le_of_not_lt hs)]
  · rfl

/-- Writing what is there changes nothing. -/
theorem write_get {h : Heap} {u : Value} : ∀ {p : Path} {r : Ref}, p ≠ [] →
    walk h (.map r) p = some u → write h r p u = (h, [])
  | [], _, hp, _ => absurd rfl hp
  | [key], r, _, hu => by
    rw [walk_cons] at hu
    obtain ⟨w, hk, hw⟩ := Option.bind_eq_some_iff.1 hu
    rw [walk_nil] at hw
    cases hw
    change (h.putField r key u, ([] : List String)) = (h, [])
    rw [putField, Table.put_get? hk, setIfInBounds_cell]
  | key :: k :: rest, r, _, hu => by
    rw [walk_cons] at hu
    obtain ⟨w, hk, hw⟩ := Option.bind_eq_some_iff.1 hu
    cases w with
    | scalar | list => cases hw
    | map child =>
      rw [write_through hk]
      exact write_get (List.cons_ne_nil k rest) hw

/-! ## What is shown after a write -/

section shown

variable {c : Context} {r : Ref} {p q : Path} {v u : Value}

/-- A value that has nothing in common with a context is the same after it was written there. -/
theorem IsApart.view_write (apart : c.IsApart v) (tight : c.heap.Tight) (hr : c.root = .map r)
    (p : Path) (w : Value) : (write c.heap r p w).1.view v = c.heap.view v := by
  refine view_same (N := fun x => ∃ u, v.ref? = some u ∧ c.heap.Leads u x)
    (fun x ⟨u, hu, hl⟩ y hy => ⟨u, hu, hl.next hy⟩) (fun x ⟨u, hu, hl⟩ => ?_)
    fun u hu => ⟨u, hu, .refl _ u⟩
  refine cell_write _ w ?_ fun he => ?_
  · exact hl.closed (P := (· < c.heap.size)) (apart.there u hu) fun x _ => tight x
  · exact apart.apart r u x hr hu hl (he ▸ leads_landing _ r)

theorem view_write_apart (H : ForestOn G c.heap) (hG : c.Fenced G) (hr : c.root = .map r)
    (hpq : ¬ p <+: q) (hqp : ¬ q <+: p) (hq : c.get? q = some u) (v : Value) :
    (write c.heap r p v).1.view u = c.heap.view u := by
  obtain ⟨m, k, l, p', t, y, -, rfl, F⟩ := exists_fork H hG hr hqp hpq hq
  obtain ⟨K, -⟩ := write_kept F.fenced ⟨F.inside, F.bound F.self⟩ F.self (fun _ hx => F.bound hx)
    F.cut t v
  rw [← write_append F.way] at K
  exact F.view_kept K

end shown

end Context

/-! ## Stores -/

namespace Store

/-- A store that is made from data is a tree. -/
theorem ofDatum_isTree {h : Heap} {d : Datum} {s : Store} (made : ofDatum h d = .ok s) :
    s.context.IsTree := by
  obtain ⟨r, -, hG, forest⟩ := ofDatum_forest made
  exact Context.isTree_of_forest hG forest

theorem ofDatum_whole {h : Heap} (keyed : h.Keyed) (tight : h.Tight) {d : Datum} (hd : d.Keyed)
    {s : Store} (made : ofDatum h d = .ok s) : s.context.Whole := by
  rcases ofDatum_new keyed tight hd with ⟨f, -, he⟩ | ⟨v, s', -, he, N⟩
  · rw [made] at he
    cases he
  · rw [made] at he
    cases he
    exact N.there

theorem set_map (flags : Table Datum) (h : Heap) (r : Ref) (quests : Table Quest) (p : String)
    (v : Value) : set ⟨flags, ⟨h, .map r⟩, quests⟩ p v =
      .ok (⟨flags, ⟨(Context.write h r (Path.split p) v).1, .map r⟩, quests⟩,
        (Context.write h r (Path.split p) v).2) := rfl

section write

variable {s s' : Store} {path : String} {v : Value} {replaced : List String}

theorem exists_set (whole : s.context.Whole) (path : String) (v : Value) :
    ∃ s' replaced, s.set path v = .ok (s', replaced) := by
  obtain ⟨r, hr⟩ := whole.table
  obtain ⟨flags, ⟨h, root⟩, quests⟩ := s
  obtain rfl : root = .map r := hr
  exact ⟨_, _, set_map flags h r quests path v⟩

/-- In a tree, what is written at a path is read there. -/
theorem get?_set (whole : s.context.Whole) (tree : s.context.IsTree)
    (h : s.set path v = .ok (s', replaced)) : s'.get? path = some v := by
  obtain ⟨r, hr⟩ := whole.table
  have hG := Context.owned_fenced whole hr
  have H := tree.forest whole hr
  obtain ⟨flags, ⟨heap, root⟩, quests⟩ := s
  obtain rfl : root = .map r := hr
  rw [set_map] at h
  cases h
  exact Context.walk_write _ v (Path.split_ne_nil path) H.acyclic hG.heap (hG.root r rfl)

/-- In a tree, of two writes at one path the second counts. -/
theorem set_set (whole : s.context.Whole) (tree : s.context.IsTree)
    (h : s.set path v = .ok (s', replaced)) (u : Value) :
    ∃ s'' r₁ r₂, s'.set path u = .ok (s'', r₁) ∧ s.set path u = .ok (s'', r₂) := by
  obtain ⟨r, hr⟩ := whole.table
  have hG := Context.owned_fenced whole hr
  have H := tree.forest whole hr
  obtain ⟨flags, ⟨heap, root⟩, quests⟩ := s
  obtain rfl : root = .map r := hr
  rw [set_map] at h
  cases h
  refine ⟨_, _, (Context.write heap r (Path.split path) u).2, set_map flags _ r quests path u, ?_⟩
  rw [set_map, Context.write_write _ v u H.acyclic hG.heap (hG.root r rfl)]

end write

/-- In a store whose context is a tree, a value that has no table in common with it can be written
at any path, and is read there then. Nothing that is read at a path that parts from it changes;
another value that is written there afterwards leaves the store that it does without the first one.
Writing what is read at a path changes nothing, and no write touches the flags or the quests. -/
theorem set_laws {s : Store} (whole : s.context.Whole) (tree : s.context.IsTree) (p : String)
    {v : Value} (apart : s.context.IsApart v) :
    ∃ s' replaced, s.set p v = .ok (s', replaced) ∧
      (s'.get? p = some v ∧ s'.context.heap.view v = s.context.heap.view v) ∧
      (∀ q, ¬ Path.split p <+: Path.split q → ¬ Path.split q <+: Path.split p →
        s'.get? q = s.get? q ∧ s'.shown? q = s.shown? q) ∧
      (∀ w, ∃ s'' r₁ r₂, s'.set p w = .ok (s'', r₁) ∧ s.set p w = .ok (s'', r₂)) ∧
      (∀ u, s.get? p = some u → s.set p u = .ok (s, [])) ∧
      s'.flags = s.flags ∧ s'.quests = s.quests := by
  obtain ⟨r, hr⟩ := whole.table
  obtain ⟨flags, ⟨h, root⟩, quests⟩ := s
  obtain rfl : root = .map r := hr
  have hG := Context.owned_fenced whole rfl
  have H := tree.forest whole rfl
  have start : h.There (Context.Owned h r) r := hG.root r rfl
  refine ⟨_, _, set_map flags h r quests p v, ⟨?_, ?_⟩, fun q hpq hqp => ?_, fun w => ?_,
    fun u hu => ?_, rfl, rfl⟩
  · exact Context.walk_write _ v (Path.split_ne_nil p) H.acyclic hG.heap start
  · exact apart.view_write whole.tight rfl _ v
  · have same := Context.walk_write_apart v H hG.heap start hpq hqp
    refine ⟨same, (congrArg (Option.map _) same).trans (Option.map_congr fun u hu => ?_)⟩
    exact Context.view_write_apart H hG rfl hpq hqp hu v
  · refine ⟨_, _, (Context.write h r (Path.split p) w).2, set_map flags _ r quests p w, ?_⟩
    rw [set_map, Context.write_write _ v w H.acyclic hG.heap start]
  · rw [set_map, Context.write_get (Path.split_ne_nil p) hu]

theorem vault_whole : vault.context.Whole := by
  refine ofDatum_whole (fun r => ?_) (fun r q hq => ?_) ?_ vault_made
  · exact Table.keyed_nil
  · cases hq
  · simp [hoard, Datum.object, Datum.Keyed, Datum.EntriesKeyed, Table.Keyed]
    decide +kernel

/-- The store with the gold and the bag, on a heap with a lamp. -/
def litVault : Store :=
  ⟨[], ⟨#[[(.text "oil", .scalar (.int 2))],
    [(.text "gold", .scalar (.int 3)), (.text "bag", .map 2)], []], .map 1⟩, []⟩

/-- The lamp is put where there was gold; the bag is as it was. -/
theorem set_laws_litVault : ∃ s' replaced,
    litVault.set "gold.lamp" (.map 0) = .ok (s', replaced) ∧
      s'.get? "gold . lamp" = some (.map 0) ∧ s'.shown? "bag" = some (.object []) := by
  have made : ofDatum #[[(.text "oil", .scalar (.int 2))]] hoard = .ok litVault := rfl
  have whole : litVault.context.Whole := by
    refine ofDatum_whole (fun r => ?_) (fun r q hq => ?_) ?_ made
    · rcases r with _ | r
      · exact List.pairwise_singleton _ _
      · exact Table.keyed_nil
    · rcases r with _ | r <;> cases hq
    · simp [hoard, Datum.object, Datum.Keyed, Datum.EntriesKeyed, Table.Keyed]
      decide +kernel
  have apart : litVault.context.IsApart (.map 0) := by
    obtain ⟨r, hr, hG, -⟩ := ofDatum_forest made
    refine ⟨fun u hu => Option.some.inj hu ▸ by decide, fun r' u x hr' hu hl hl' => ?_⟩
    cases hu
    have hx := hl.eq_of_nil rfl
    have hin := hl'.there hG.heap (hG.root r' (by rw [hr']; rfl))
    exact absurd hin.1 (hx ▸ by decide)
  obtain ⟨s', replaced, hs, ⟨hget, -⟩, frame, -⟩ := set_laws whole (ofDatum_isTree made)
    "gold.lamp" apart
  refine ⟨s', replaced, hs, ?_, ?_⟩
  · have same : Path.split "gold . lamp" = Path.split "gold.lamp" := by decide +kernel
    rw [get?, same]
    exact hget
  · exact (frame "bag" (by decide +kernel) (by decide +kernel)).2.trans (by decide +kernel)

end Store

/-! ## Effects -/

/-- An effect that writes a scalar sets it and does nothing else, unless the scalar has to be put
into words and cannot. -/
theorem Effect.writeValue_set {w : World} {path : String} {x : Scalar} {s : Store}
    {replaced : List String} (h : w.store.set path (.scalar x) = .ok (s, replaced)) (op : Operation)
    (worded : w.isHeard = true → x.isShowable = true) :
    ∃ w', writeValue w path op (.scalar x) = (w', none) ∧ w'.store = s ∧
      w'.isHeard = w.isHeard := by
  have hw : w.set path (.scalar x) = .ok ({ w with store := s }.noteAll
      (replaced.map fun key => .valueReplaced key path)) := by rw [World.set, h]; rfl
  have hd : s.context.heap.view (.scalar x) = .scalar x := rfl
  simp only [writeValue, hw, World.noteAll, hd]
  split_ifs with hc
  · rw [Bool.and_eq_true] at hc
    have hs := worded hc.1
    rw [Datum.isShowable, hs] at hc
    exact absurd hc.2 (by decide)
  · exact ⟨_, rfl, rfl, rfl⟩

end Colloquy
