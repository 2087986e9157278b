import Colloquy.Proofs.Held
import Colloquy.Tree.Reading

/-!
# Loaded trees and new stores

What is made on top of a heap leaves all that is in it as it was and refers to new cells only
(`Heap.Atop`). So it is with the values of the effects of a tree that is read from data
(`Tree.ofDatum_atop`), and with the context of a store that is made from data
(`Store.ofDatum_fresh`, `Store.make_fresh`). A session on a loaded tree with a new store stands by
itself (`Session.stands_new`), and next to any other one on that tree it has a store of its own
(`Session.own_new`).
-/

namespace Colloquy

namespace Heap

/-- A heap that is made on top of another one: what was there is as it was, and what is new refers
to what is new. -/
structure Atop (h h' : Heap) : Prop where
  size_le : h.size ≤ h'.size
  old : Same (· < h.size) h h'
  new : Fenced (h.size ≤ ·) h'

namespace Atop

variable {h h' : Heap}

theorem refl (h : Heap) : h.Atop h where
  size_le := le_rfl
  old _ _ := rfl
  new := {
    closed := fun r hr q hq => by
      rw [cell_of_size_le hr] at hq
      exact absurd hq List.not_mem_nil
    fresh := fun _ => id }

theorem tight (H : h.Atop h') (ht : h.Tight) : h'.Tight := by
  intro r q hq
  rcases Nat.lt_or_ge r h.size with hr | hr
  · rw [H.old r hr] at hq
    exact (ht r q hq).trans_le H.size_le
  · exact (H.new.closed r hr q hq).2

theorem alloc (H : h.Atop h') {t : Table Value} (ht : ∀ q ∈ refsOf t, h'.There (h.size ≤ ·) q) :
    h.Atop (h'.alloc t).1 := by
  have hs : h'.size ≤ (h'.alloc t).1.size := (Nat.le_succ _).trans (Array.size_push _).ge
  have he : (h'.alloc t).1 = h' ++ [t].toArray := by simp [Heap.alloc]
  refine ⟨H.size_le.trans hs, fun r hr => ?_, he ▸ H.new.append fun u hu q hq => ?_⟩
  · rw [he, cell_append_left (hr.trans_le H.size_le)]
    exact H.old r hr
  · rw [List.mem_singleton.1 hu] at hq
    exact (ht q hq).grown (he ▸ hs)

theorem setIfInBounds (H : h.Atop h') {r : Ref} (hr : h.size ≤ r) {t : Table Value}
    (ht : ∀ q ∈ refsOf t, h'.There (h.size ≤ ·) q) : h.Atop (Array.setIfInBounds h' r t) where
  size_le := H.size_le.trans Array.size_setIfInBounds.ge
  old q hq := by
    have hn : ¬ (r = q ∧ r < h'.size) := fun hc => Nat.not_le.2 hq (hc.1 ▸ hr)
    rw [cell_setIfInBounds, if_neg hn]
    exact H.old q hq
  new := H.new.setIfInBounds r ht

end Atop

mutual

theorem hold_atop {h : Heap} : ∀ (d : Datum) {h' : Heap}, h.Atop h' → h.Atop (h'.hold d).1 ∧
    h'.size ≤ (h'.hold d).1.size ∧ (h'.hold d).2.In ((h'.hold d).1.There (h.size ≤ ·))
  | .scalar _, _, H => ⟨H, le_rfl, nofun⟩
  | .list _, _, H => ⟨H, le_rfl, nofun⟩
  | .back _, _, H => ⟨H, le_rfl, nofun⟩
  | .map es, h', H => by
    obtain ⟨H₁, hs, ht⟩ := holdEntries_atop es H
    have hl : ((h'.holdEntries es).1.alloc (h'.holdEntries es).2).1.size =
      (h'.holdEntries es).1.size + 1 := Array.size_push _
    refine ⟨H₁.alloc ht, ?_, fun r hr => ?_⟩
    · exact hs.trans ((Nat.le_succ _).trans hl.ge)
    · obtain rfl : (h'.holdEntries es).1.size = r := Option.some.inj hr
      exact ⟨H₁.size_le, hl.symm ▸ Nat.lt_succ_self _⟩

theorem holdEntries_atop {h : Heap} : ∀ (es : List (Scalar × Datum)) {h' : Heap}, h.Atop h' →
    h.Atop (h'.holdEntries es).1 ∧ h'.size ≤ (h'.holdEntries es).1.size ∧
      ∀ q ∈ refsOf (h'.holdEntries es).2, (h'.holdEntries es).1.There (h.size ≤ ·) q
  | [], _, H => ⟨H, le_rfl, nofun⟩
  | (k, d) :: es, h', H => by
    obtain ⟨H₁, hs, hv⟩ := hold_atop d H
    obtain ⟨H₂, hs', ht⟩ := holdEntries_atop es H₁
    refine ⟨H₂, hs.trans hs', fun q hq => ?_⟩
    obtain ⟨e, he, hr⟩ := mem_refsOf.1 hq
    rcases List.mem_cons.1 he with rfl | he
    · exact (hv q hr).grown hs'
    · exact ht q (mem_refsOf.2 ⟨e, he, hr⟩)

end

end Heap

/-! ## New stores -/

/-- A context that is made on top of a heap. -/
structure Context.Fresh (h : Heap) (c : Context) : Prop where
  heap : h.Atop c.heap
  root : c.root.In (c.heap.There (h.size ≤ ·))

namespace Context

theorem ofDatum_fresh {h : Heap} {d : Datum} {c : Context} (hc : ofDatum h d = .ok c) :
    c.Fresh h := by
  unfold ofDatum at hc
  split_ifs at hc
  cases hc
  obtain ⟨H, -, hv⟩ := Heap.hold_atop d (.refl h)
  exact ⟨H, hv⟩

theorem empty_fresh (h : Heap) : (empty h).Fresh h := by
  have hs : (h.alloc []).1.size = h.size + 1 := Array.size_push _
  refine ⟨(Heap.Atop.refl h).alloc nofun, fun r hr => ?_⟩
  obtain rfl : h.size = r := Option.some.inj hr
  exact ⟨le_rfl, hs.symm ▸ Nat.lt_succ_self _⟩

theorem Fresh.setEntries {h : Heap} {c : Context} (H : c.Fresh h) {t : Table Value}
    (ht : ∀ q ∈ Heap.refsOf t, c.heap.There (h.size ≤ ·) q) : (c.setEntries t).Fresh h := by
  rcases c with ⟨heap, _ | _ | r⟩
  · exact H
  · exact H
  · refine ⟨H.heap.setIfInBounds (H.root r rfl).1 ht, fun q hq => ?_⟩
    exact (H.root q hq).grown Array.size_setIfInBounds.ge

theorem Fresh.loadData {h : Heap} {c : Context} (H : c.Fresh h) (t : Table Datum) :
    (c.loadData t).Fresh h := by
  obtain ⟨Hh, hs, ht⟩ := Heap.holdEntries_atop t H.heap
  have Hc : Context.Fresh h ⟨(c.heap.holdEntries t).1, c.root⟩ :=
    ⟨Hh, fun r hr => (H.root r hr).grown hs⟩
  exact Hc.setEntries ht

theorem Fresh.loadDatum {h : Heap} {c : Context} (H : c.Fresh h) (d : Datum) :
    (c.loadDatum d).1.Fresh h := by
  unfold Context.loadDatum
  split
  · split_ifs
    · exact H.loadData _
    · exact H.loadData []
  · exact ⟨H.heap, nofun⟩
  · exact H

end Context

namespace Store

theorem make_fresh {h : Heap} {flags : Table Datum} {context : Datum} {quests : Table Quest}
    {s : Store} (hs : make h flags context quests = .ok s) : s.context.Fresh h := by
  unfold make at hs
  rcases hc : Context.ofDatum h context with f | c
  · rw [hc] at hs
    cases hs
  · rw [hc] at hs
    cases hs
    exact Context.ofDatum_fresh hc

theorem restoreData_fresh {h : Heap} {s : Store} (H : s.context.Fresh h) (d : Datum) :
    (s.restoreData d).1.context.Fresh h := by
  rcases restoreData_context s d with he | ⟨part, -, he⟩
  · exact he ▸ H
  · exact he ▸ H.loadDatum part

theorem ofDatum_fresh {h : Heap} {d : Datum} {s : Store} (hs : ofDatum h d = .ok s) :
    s.context.Fresh h := by
  have H : (empty h).context.Fresh h := Context.empty_fresh h
  have hr := restoreData_fresh H d
  unfold ofDatum at hs
  split at hs
  · rename_i he
    cases hs
    rwa [he] at hr
  · cases hs

end Store

/-! ## Loaded trees -/

section loaded
variable [Text.Halves]

namespace Effect

omit [Text.Halves] in
/-- The value that an effect writes is a new one, and it is there. -/
def Within (h h' : Heap) (e : Effect) : Prop := ∀ r, e.ref? = some r → h'.There (h.size ≤ ·) r

omit [Text.Halves] in
/-- A value that an effect writes is given by a scalar. -/
def GivesScalar : Effect → Prop
  | .write _ _ (.value v) => ∃ s, v = .scalar s
  | _ => True

omit [Text.Halves] in
theorem GivesScalar.ref?_eq : ∀ {e : Effect}, e.GivesScalar → e.ref? = none
  | .write _ _ (.value _), ⟨_, rfl⟩ => rfl
  | .write _ _ (.flag _), _ => rfl
  | .write _ _ (.context _), _ => rfl
  | .setFlag _ _, _ => rfl
  | .toggleFlag _, _ => rfl
  | .moveQuest _ _, _ => rfl
  | .malformed _ _, _ => rfl

omit [Text.Halves] in
theorem givesScalar_keyed {source kind : String} {make : String → Effect} {key : List Char}
    (hm : ∀ key, (make key).GivesScalar) : (keyed source kind make key).GivesScalar := by
  unfold keyed
  split
  · trivial
  · exact hm _

omit [Text.Halves] in
/-- An effect in words writes no list and no table. -/
theorem givesScalar_ofText (source : String) : (ofText source).GivesScalar := by
  have hleads : ∀ l ∈ leads, ∀ key, (l.2.2 key).GivesScalar := by
    simp only [leads, List.forall_mem_cons]
    exact ⟨fun _ => trivial, fun _ => trivial, fun _ => trivial, fun _ => trivial,
      fun _ => trivial, fun _ => trivial, nofun⟩
  unfold ofText
  simp only
  split
  · rename_i e he
    obtain ⟨⟨lead, kind, make⟩, hl, hk⟩ := List.exists_of_findSome?_eq_some he
    obtain ⟨key, -, rfl⟩ := Option.map_eq_some_iff.1 hk
    exact givesScalar_keyed (hleads _ hl)
  · split
    · unfold assignment
      split
      · split
        · trivial
        · unfold Source.ofChars
          split
          · trivial
          · split
            · trivial
            · exact ⟨_, rfl⟩
      · trivial
    · trivial

theorem ofAction_cases (es : Table Datum) (space : Space) (key : String) :
    (∃ e : Effect, e.ref? = none ∧ ∀ g, ofAction g es space key = (g, e)) ∨
      ∃ fs op, Table.field es "value" = .map fs ∧ ∀ g, ofAction g es space key =
        ((g.hold (.map fs)).1, .write key op (.value (g.hold (.map fs)).2)) := by
  cases space with
  | flag =>
    refine .inl ⟨(ofAction #[] es .flag key).2, ?_, fun g => ?_⟩
    · simp only [ofAction]
      split <;> rfl
    · simp only [ofAction]
      split <;> rfl
  | quest =>
    refine .inl ⟨(ofAction #[] es .quest key).2, ?_, fun g => ?_⟩
    · simp only [ofAction]
      split <;> rfl
    · simp only [ofAction]
      split <;> rfl
  | context =>
    simp only [ofAction]
    rcases Operation.ofDatum? (Table.field es "action") with _ | op
    · exact .inl ⟨_, rfl, fun _ => rfl⟩
    · simp only
      rcases Table.field es "value" with s | xs | fs | n
      · exact .inl ⟨.write key op (.value (.scalar s)), rfl, fun _ => rfl⟩
      · exact .inl ⟨.write key op (.value (.list xs)), rfl, fun _ => rfl⟩
      · exact .inr ⟨fs, op, rfl, fun _ => rfl⟩
      · exact .inl ⟨.write key op (.value (.scalar .null)), rfl, fun _ => rfl⟩

/-- Data is an effect without a table that is the same on every heap, or one that writes the table
given in it. -/
theorem ofDatum_cases (d : Datum) :
    (∃ e : Effect, e.ref? = none ∧ ∀ g, ofDatum g d = (g, e)) ∨
      ∃ es fs path op, d = .map es ∧ Table.field es "value" = .map fs ∧ ∀ g, ofDatum g d =
        ((g.hold (.map fs)).1, .write path op (.value (g.hold (.map fs)).2)) := by
  unfold ofDatum
  split
  · exact .inl ⟨_, (givesScalar_ofText _).ref?_eq, fun _ => rfl⟩
  · rename_i es
    unfold ofTable
    split
    · exact .inl ⟨_, rfl, fun _ => rfl⟩
    · rename_i space key _ _
      split_ifs
      · exact .inl ⟨_, rfl, fun _ => rfl⟩
      · rcases ofAction_cases es space key with h | ⟨fs, op, hv, h⟩
        · exact .inl h
        · exact .inr ⟨es, fs, key, op, rfl, hv, h⟩
    · exact .inl ⟨_, rfl, fun _ => rfl⟩
  · exact .inl ⟨_, rfl, fun _ => rfl⟩

/-- The value of an effect that is read is put on top of the heap. -/
theorem ofDatum_atop {h h' : Heap} (H : h.Atop h') (d : Datum) : h.Atop (ofDatum h' d).1 ∧
    h'.size ≤ (ofDatum h' d).1.size ∧ (ofDatum h' d).2.Within h (ofDatum h' d).1 := by
  rcases ofDatum_cases d with ⟨e, hr, he⟩ | ⟨-, fs, path, op, -, -, he⟩
  · rw [he]
    refine ⟨H, le_rfl, fun r hr' => ?_⟩
    rw [hr] at hr'
    cases hr'
  · rw [he]
    exact Heap.hold_atop (.map fs) H

end Effect

namespace Reading

/-- A part of a tree is read on top of a heap, where some effects are already: the effects of the
part are then. -/
def Yields {α : Type} (h : Heap) (given : List Effect) (m : Step α) (effects : α → List Effect) :
    Prop :=
  ∀ r a r', m r = .ok a r' → h.Atop r.heap → (∀ e ∈ given, e.Within h r.heap) →
    h.Atop r'.heap ∧ r.heap.size ≤ r'.heap.size ∧ ∀ e ∈ effects a, e.Within h r'.heap

section rules

variable {α β : Type} {h : Heap} {given : List Effect} {m : Step α} {k : α → Step β}
  {effects : α → List Effect} {effects' : β → List Effect}

omit [Text.Halves] in
theorem yields_pure {a : α} (ha : ∀ e ∈ effects a, e ∈ given) :
    Yields h given (pure a) effects := by
  rintro r _ _ ⟨⟩ H hg
  exact ⟨H, le_rfl, fun e he => hg e (ha e he)⟩

omit [Text.Halves] in
theorem yields_throw {f : Fault} : Yields h given (throw f : Step α) effects := nofun

omit [Text.Halves] in
theorem Yields.bind (hm : Yields h given m effects)
    (hk : ∀ a, Yields h (effects a ++ given) (k a) effects') :
    Yields h given (m >>= k) effects' := by
  intro r b r' hb H hg
  simp only [Bind.bind, EStateM.bind] at hb
  rcases hr : m r with ⟨a, r₁⟩ | ⟨f, r₁⟩
  · rw [hr] at hb
    obtain ⟨H₁, hs, ha⟩ := hm r a r₁ hr H hg
    obtain ⟨H₂, hs', hb'⟩ := hk a r₁ b r' hb H₁ fun e he => (List.mem_append.1 he).elim (ha e)
      fun he q hq => (hg e he q hq).grown hs
    exact ⟨H₂, hs.trans hs', hb'⟩
  · rw [hr] at hb
    cases hb

omit [Text.Halves] in
theorem yields_noteAll (ns : List Notice) : Yields h given (noteAll ns) fun _ => [] := by
  rintro r _ _ ⟨⟩ H _
  exact ⟨H, le_rfl, List.forall_mem_nil _⟩

omit [Text.Halves] in
theorem yields_mapM {γ : Type} {f : γ → Step α} (hf : ∀ c given, Yields h given (f c) effects) :
    ∀ (cs : List γ) (given : List Effect), Yields h given (cs.mapM f) (·.flatMap effects)
  | [], given => yields_pure (List.forall_mem_nil _)
  | c :: cs, given => by
    rw [List.mapM_cons]
    refine (hf c given).bind fun a => (yields_mapM hf cs _).bind fun as => yields_pure ?_
    simp only [List.flatMap_cons, List.mem_append]
    tauto

end rules

variable {h : Heap}

theorem yields_guard (d : Datum) (given : List Effect) : Yields h given (guard d) fun _ => [] := by
  unfold guard
  split
  · exact (yields_noteAll _).bind fun _ => yields_pure (List.forall_mem_nil _)
  · exact yields_throw

theorem yields_deed (d : Datum) (given : List Effect) :
    Yields h given (deed d) fun d => [d.effect] := by
  intro r a r' ha H _
  obtain ⟨H', hs, he⟩ := Effect.ofDatum_atop H d
  cases ha
  exact ⟨H', hs, List.forall_mem_singleton.2 he⟩

omit [Text.Halves] in
theorem mem_flatMap_deed {ds : List Deed} {e : Effect} :
    e ∈ ds.flatMap (fun d => [d.effect]) ↔ e ∈ ds.map (·.effect) := by
  simp [eq_comm]

theorem yields_choice (es : Table Datum) (given : List Effect) :
    Yields h given (choice es) Choice.effects := by
  unfold choice
  refine (yields_mapM yields_guard _ _).bind fun gs => (yields_mapM yields_deed _ _).bind fun ds =>
    yields_pure fun e he => ?_
  exact List.mem_append_left _ (mem_flatMap_deed.2 he)

theorem yields_choices (id : String) : ∀ (i : ℕ) (ds : List Datum) (given : List Effect),
    Yields h given (choices id i ds) (·.flatMap Choice.effects)
  | _, [], _ => yields_pure (List.forall_mem_nil _)
  | i, .map es :: ds, given => by
    refine (yields_choice es given).bind fun c => (yields_choices id (i + 1) ds _).bind fun cs =>
      yields_pure ?_
    simp only [List.flatMap_cons, List.mem_append]
    tauto
  | _, .scalar _ :: _, _ => yields_throw
  | _, .list _ :: _, _ => yields_throw
  | _, .back _ :: _, _ => yields_throw

theorem yields_nodeWith (id : Scalar) (cs : List Choice) (es : Table Datum)
    (given : List Effect) :
    Yields h (cs.flatMap Choice.effects ++ given) (nodeWith id cs es) Node.allEffects := by
  unfold nodeWith
  refine (yields_mapM yields_guard _ _).bind fun gs => (yields_mapM yields_deed _ _).bind fun ds =>
    yields_pure fun e he => ?_
  rcases List.mem_append.1 he with he | he
  · exact List.mem_append_left _ (mem_flatMap_deed.2 he)
  · exact List.mem_append_right _ (List.mem_append_right _ (List.mem_append_left _ he))

theorem yields_node (id : Scalar) (d : Datum) (given : List Effect) :
    Yields h given (node id d) Node.allEffects := by
  unfold node
  split
  · split
    · exact (yields_choices _ 0 _ _).bind fun cs => yields_nodeWith id cs _ _
    · exact yields_throw
  · exact yields_throw

theorem yields_nodes : ∀ (es : List (Scalar × Datum)) (given : List Effect),
    Yields h given (nodes es) (·.flatMap Node.allEffects)
  | [], _ => yields_pure (List.forall_mem_nil _)
  | (k, d) :: es, given => by
    refine (yields_node k d given).bind fun n => (yields_nodes es _).bind fun ns => yields_pure ?_
    simp only [List.flatMap_cons, List.mem_append]
    tauto

omit [Text.Halves] in
theorem yields_table (d : Datum) (given : List Effect) :
    Yields h given (table d) fun _ => [] := by
  unfold table
  split
  · exact yields_pure (List.forall_mem_nil _)
  · exact yields_throw

theorem yields_treeWith (initial metadata : Table Datum) (ns : List Node) (es : Table Datum)
    (given : List Effect) : Yields h (ns.flatMap Node.allEffects ++ given)
      (treeWith initial metadata ns es) Tree.effects := by
  unfold treeWith
  simp only
  split
  · exact yields_pure fun e he => List.mem_append_left _ he
  · refine (yields_noteAll _).bind fun _ => yields_pure fun e he => ?_
    exact List.mem_append_right _ (List.mem_append_left _ he)
  · exact yields_throw

/-- The effects of a tree that is read are read on top of the heap. -/
theorem yields_tree (d : Datum) : Yields h [] (tree d) Tree.effects := by
  unfold tree
  split
  · split
    · refine (yields_table _ _).bind fun initial => (yields_table _ _).bind fun metadata =>
        (yields_nodes _ _).bind fun ns => yields_treeWith initial metadata ns _ _
    · exact yields_throw
  · exact yields_throw

end Reading

theorem Tree.ofDatum_atop {h h' : Heap} {d : Datum} {t : Tree} (ht : ofDatum h d = .ok (t, h')) :
    h.Atop h' ∧ ∀ e ∈ t.effects, e.Within h h' := by
  unfold ofDatum at ht
  split at ht
  · rename_i t₁ r hr
    cases ht
    obtain ⟨H, -, he⟩ := Reading.yields_tree d _ _ _ hr (.refl h) (List.forall_mem_nil _)
    exact ⟨H, he⟩
  · cases ht

/-! ## Sessions with stores of their own -/

namespace Session

/-- A session on a loaded tree with a new store stands by itself. -/
theorem stands_new {h h' : Heap} (tight : h.Tight) {d : Datum} {s : Session}
    (loaded : Tree.ofDatum h d = .ok (s.tree, h')) (new : s.store.context.Fresh h')
    (idle : s.offered = []) : s.Stands := by
  obtain ⟨H, he⟩ := Tree.ofDatum_atop loaded
  have tight' := H.tight tight
  have held : ∀ r, s.tree.Holds s.store.context.heap r → r < h'.size := fun r hr =>
    hr.within (fun r ⟨e, he', hr⟩ => (he e he' r hr).2) fun r hr q hq => by
      rw [new.heap.old r hr] at hq
      exact tight' r q hq
  refine ⟨new.heap.tight tight', fun r hr => ?_, fun e he' r hr => ?_, by simp [idle]⟩
  · obtain ⟨hle, hlt⟩ := new.root r hr
    exact ⟨hlt, fun hh => Nat.not_lt.2 hle (held r hh)⟩
  · exact (he e he' r hr).2.trans_le new.heap.size_le

omit [Text.Halves] in
/-- Next to any session, another one on its tree with a new store stands by itself and has nothing
in common with it but what the tree holds. -/
theorem own_new {s u : Session} (stands : s.Stands) (tree : u.tree = s.tree)
    (new : u.store.context.Fresh s.store.context.heap) (idle : u.offered = []) :
    u.Stands ∧ (s.onHeap u.store.context.heap).Stands ∧
      ∀ r, (s.onHeap u.store.context.heap).Holds r → u.Holds r →
        s.tree.Holds u.store.context.heap r := by
  have H := new.heap
  have below : ∀ r, s.Holds r → r < s.store.context.heap.size := stands.inside.bound
  -- what a session reaches on its own heap is all that it reaches on one atop
  have back : ∀ {A : Ref → Prop}, (∀ r, A r → r < s.store.context.heap.size) → ∀ r,
      u.store.context.heap.Below A r → s.store.context.heap.Below A r := fun hA r hr =>
    hr.within (fun r hr => .here hr) fun r hr q hq => by
      rw [H.old r (hr.bound stands.tight hA)] at hq
      exact .step hr hq
  have hheld : ∀ r, (∃ e ∈ s.tree.effects, e.ref? = some r) → r < s.store.context.heap.size :=
    fun r ⟨e, he, hr⟩ => stands.held e he r hr
  have held : ∀ r, s.tree.Holds u.store.context.heap r → s.tree.Holds s.store.context.heap r :=
    back hheld
  refine ⟨⟨H.tight stands.tight, fun r hr => ?_, fun e he r hr => ?_, by simp [idle]⟩,
    ⟨H.tight stands.tight, fun r hr => ?_, fun e he r hr => ?_, stands.offered⟩, fun r hr hr' => ?_⟩
  · obtain ⟨hle, hlt⟩ := new.root r hr
    refine ⟨hlt, fun hh => Nat.not_lt.2 hle ?_⟩
    exact (held r (tree ▸ hh)).bound stands.tight hheld
  · exact (stands.held e (tree ▸ he) r hr).trans_le H.size_le
  · obtain ⟨hlt, hn⟩ := stands.root r hr
    exact ⟨hlt.trans_le H.size_le, fun hh => hn (held r hh)⟩
  · exact (stands.held e he r hr).trans_le H.size_le
  · have hlt : r < s.store.context.heap.size := below r (back (fun r hr => below r (.here hr)) r hr)
    have hor : s.tree.Holds u.store.context.heap r ∨ s.store.context.heap.size ≤ r := by
      refine hr'.within (B := fun r => s.tree.Holds u.store.context.heap r ∨
        s.store.context.heap.size ≤ r) (fun r hr => ?_) fun r hr q hq => ?_
      · exact hr.elim (fun hr => .inr (new.root r hr).1) fun hr => .inl (.here (tree ▸ hr))
      · exact hr.elim (fun hr => .inl (.step hr hq)) fun hr => .inr (H.new.closed r hr q hq).1
    exact hor.resolve_right (Nat.not_le.2 hlt)

end Session

end loaded

end Colloquy
