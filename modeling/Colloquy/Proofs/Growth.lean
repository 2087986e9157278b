import Colloquy.Proofs.Graft
import Colloquy.Script.Effect

/-!
# Stores grow

No write takes a cell away, gives a table two keys that are alike, or moves the context to another
cell (`Context.Grown`). Effects only write, so whatever they do to a store, its context has grown
(`Effect.applyAll_grown`). A context is sound when its table is a cell and the keys of all cells
are apart (`Context.Sound`): contexts made from data are (`Store.sound_ofDatum`), and they stay so
as they grow. Loading another context is growth too (`Context.load_grown`).
-/

namespace Colloquy

namespace Heap

/-- No cell of a heap is lost in another, and if the keys of all cells were apart they still are. -/
structure Grown (h h' : Heap) : Prop where
  size_le : h.size ≤ h'.size
  keyed : h.Keyed → h'.Keyed

theorem Grown.refl (h : Heap) : h.Grown h := ⟨le_rfl, id⟩

theorem Grown.trans {h h₁ h₂ : Heap} (g : h.Grown h₁) (g' : h₁.Grown h₂) : h.Grown h₂ :=
  ⟨g.size_le.trans g'.size_le, g'.keyed ∘ g.keyed⟩

theorem keyed_setIfInBounds {h : Heap} (hk : h.Keyed) (r : Ref) {t : Table Value} (ht : t.Keyed) :
    Heap.Keyed (h.setIfInBounds r t) := by
  intro q
  rw [cell_setIfInBounds]
  split_ifs
  · exact ht
  · exact hk q

theorem keyed_append {h : Heap} (hk : h.Keyed) {cells : List (Table Value)}
    (hc : ∀ t ∈ cells, t.Keyed) : Heap.Keyed (h ++ cells.toArray) := by
  intro r
  rcases Nat.lt_or_ge r h.size with hr | hr
  · rw [cell_append_left hr]
    exact hk r
  · obtain ⟨i, rfl⟩ := Nat.exists_eq_add_of_le hr
    rw [cell_append_right]
    rcases hi : cells[i]? with _ | t
    · exact Table.keyed_nil
    · exact hc t (List.mem_of_getElem? hi)

theorem alloc_grown (h : Heap) {t : Table Value} (ht : t.Keyed) : h.Grown (h.alloc t).1 where
  size_le := by simp [alloc]
  keyed hk := by
    have hc : ∀ u ∈ [t], u.Keyed := by simpa using ht
    simpa [alloc] using keyed_append hk hc

theorem putField_grown (h : Heap) (r : Ref) (name : String) (v : Value) :
    h.Grown (h.putField r name v) where
  size_le := by simp [putField]
  keyed hk := keyed_setIfInBounds hk r (Table.keyed_put (hk r) _ _)

theorem graft_grown (h : Heap) {src : Heap} (hs : src.Keyed) (t : Table Value) :
    h.Grown (h.graft src t).1 where
  size_le := size_le_graft h src t
  keyed hk := by
    rw [graft_fst]
    refine keyed_append hk fun u hu => ?_
    obtain ⟨r, -, rfl⟩ := List.mem_map.1 hu
    refine Table.keyed_congr ?_ (hs r)
    simp

end Heap

/-! ## Data on a heap -/

namespace Datum

mutual

/-- No two keys of a table in a datum are alike. -/
def Keyed : Datum → Prop
  | .list xs => ItemsKeyed xs
  | .map es => Table.Keyed es ∧ EntriesKeyed es
  | _ => True
termination_by structural d => d

def ItemsKeyed : List Datum → Prop
  | [] => True
  | x :: xs => x.Keyed ∧ ItemsKeyed xs
termination_by structural xs => xs

def EntriesKeyed : List (Scalar × Datum) → Prop
  | [] => True
  | (_, x) :: es => x.Keyed ∧ EntriesKeyed es
termination_by structural es => es

end

theorem itemsKeyed_iff {xs : List Datum} : ItemsKeyed xs ↔ ∀ x ∈ xs, x.Keyed := by
  induction xs with
  | nil => simp [ItemsKeyed]
  | cons x xs ih => simp [ItemsKeyed, ih]

theorem entriesKeyed_iff {es : List (Scalar × Datum)} :
    EntriesKeyed es ↔ ∀ e ∈ es, e.2.Keyed := by
  induction es with
  | nil => simp [EntriesKeyed]
  | cons e es ih => simp [EntriesKeyed, ih]

end Datum

namespace Table

theorem mem_of_get? {α : Type} {key : Scalar} {a : α} : ∀ {t : Table α},
    t.get? key = some a → ∃ k, (k, a) ∈ t
  | (k, b) :: t, h => by
    unfold get? at h
    split_ifs at h with hk
    · obtain rfl := Option.some.inj h
      exact ⟨k, List.mem_cons_self⟩
    · obtain ⟨l, hl⟩ := mem_of_get? h
      exact ⟨l, List.mem_cons_of_mem _ hl⟩

theorem keyed_of_get? {es : Table Datum} (he : Datum.EntriesKeyed es) {key : Scalar} {x : Datum}
    (h : es.get? key = some x) : x.Keyed := by
  obtain ⟨k, hk⟩ := mem_of_get? h
  exact Datum.entriesKeyed_iff.1 he (k, x) hk

theorem mem_put {α : Type} {key : Scalar} {b : α} {e : Scalar × α} : ∀ {t : Table α},
    e ∈ t.put key b → e ∈ t ∨ e.2 = b
  | [], h => by
    rw [put, List.mem_singleton] at h
    exact .inr (by rw [h])
  | (k, a) :: t, h => by
    unfold put at h
    split_ifs at h
    all_goals rcases List.mem_cons.1 h with rfl | ht
    · exact .inr rfl
    · exact .inl (List.mem_cons_of_mem _ ht)
    · exact .inl List.mem_cons_self
    · rcases mem_put ht with ht | hb
      · exact .inl (List.mem_cons_of_mem _ ht)
      · exact .inr hb

theorem entriesKeyed_put {t : Table Datum} (ht : Datum.EntriesKeyed t) (key : Scalar) {d : Datum}
    (hd : d.Keyed) : Datum.EntriesKeyed (t.put key d) := by
  rw [Datum.entriesKeyed_iff] at *
  intro e he
  rcases mem_put he with he | he
  · exact ht e he
  · exact he ▸ hd

theorem entriesKeyed_putAll : ∀ (u : Table Datum) {t : Table Datum}, Datum.EntriesKeyed t →
    Datum.EntriesKeyed u → Datum.EntriesKeyed (t.putAll u)
  | [], _, ht, _ => ht
  | (k, _) :: u, _, ht, hu => entriesKeyed_putAll u (entriesKeyed_put ht k hu.1) hu.2

theorem keyed_pairOf? {d x : Datum} {k : Scalar} (hd : d.Keyed) (h : pairOf? d = .ok (k, x)) :
    x.Keyed := by
  unfold pairOf? at h
  split at h
  case h_1 =>
    obtain ⟨rfl, rfl⟩ := Prod.mk.inj (Except.ok.inj h)
    exact hd.2.1
  case h_6 =>
    split at h
    · obtain ⟨-, rfl⟩ := Prod.mk.inj (Except.ok.inj h)
      trivial
    · exact absurd h nofun
  case h_4 =>
    obtain ⟨-, rfl⟩ := Prod.mk.inj (Except.ok.inj h)
    trivial
  all_goals exact absurd h nofun

theorem keyed_putPairs : ∀ (ds : List Datum) {t : Table Datum}, t.Keyed →
    Datum.EntriesKeyed t → Datum.ItemsKeyed ds →
    (t.putPairs ds).1.Keyed ∧ Datum.EntriesKeyed (t.putPairs ds).1
  | [], _, ht, he, _ => ⟨ht, he⟩
  | d :: ds, t, ht, he, hd => by
    unfold putPairs
    rcases hp : pairOf? d with f | ⟨k, x⟩
    · exact ⟨ht, he⟩
    · exact keyed_putPairs ds (keyed_put ht k x) (entriesKeyed_put he k (keyed_pairOf? hd.1 hp))
        hd.2

theorem keyed_update {d : Datum} (hd : d.Keyed) :
    (update [] d).1.Keyed ∧ Datum.EntriesKeyed (update [] d).1 := by
  unfold update
  split
  · exact ⟨keyed_putAll keyed_nil _, entriesKeyed_putAll _ trivial hd.2⟩
  · exact keyed_putPairs _ keyed_nil trivial hd
  · refine keyed_putPairs _ keyed_nil trivial (Datum.itemsKeyed_iff.2 fun x hx => ?_)
    obtain ⟨c, -, rfl⟩ := List.mem_map.1 hx
    trivial
  · exact ⟨keyed_nil, trivial⟩
  · exact ⟨keyed_nil, trivial⟩

end Table

namespace Heap

theorem keys_holdEntries : ∀ (es : List (Scalar × Datum)) (h : Heap),
    (h.holdEntries es).2.map (·.1) = es.map (·.1)
  | [], _ => rfl
  | (k, d) :: es, h => by
    simp only [holdEntries, List.map_cons, keys_holdEntries es]

mutual

theorem hold_grown : ∀ (d : Datum) (h : Heap), d.Keyed → h.Grown (h.hold d).1
  | .scalar _, h, _ => .refl h
  | .list _, h, _ => .refl h
  | .back _, h, _ => .refl h
  | .map es, h, hd => by
    rw [Datum.Keyed] at hd
    simp only [hold]
    refine (holdEntries_grown es h hd.2).trans (alloc_grown _ ?_)
    exact Table.keyed_congr (keys_holdEntries es h).symm hd.1

theorem holdEntries_grown : ∀ (es : List (Scalar × Datum)) (h : Heap), Datum.EntriesKeyed es →
    h.Grown (h.holdEntries es).1
  | [], h, _ => .refl h
  | (_, d) :: es, h, hd => by
    rw [Datum.EntriesKeyed] at hd
    simp only [holdEntries]
    exact (hold_grown d h hd.1).trans (holdEntries_grown es _ hd.2)

end

end Heap

/-! ## Contexts -/

namespace Context

open Heap (Grown)

/-- What a context becomes when its heap grows and its table stays where it is. -/
structure Grown (c c' : Context) : Prop where
  heap : c.heap.Grown c'.heap
  root : c'.root.ref? = c.root.ref?

theorem Grown.refl (c : Context) : c.Grown c := ⟨.refl c.heap, rfl⟩

theorem Grown.trans {c c₁ c₂ : Context} (g : c.Grown c₁) (g' : c₁.Grown c₂) : c.Grown c₂ :=
  ⟨g.heap.trans g'.heap, g'.root.trans g.root⟩

/-- The table of a context is a cell of its heap, and the keys of all cells are apart. -/
structure Sound (c : Context) : Prop where
  root : ∀ r, c.root.ref? = some r → r < c.heap.size
  keyed : c.heap.Keyed

theorem Sound.grown {c c' : Context} (h : c.Sound) (g : c.Grown c') : c'.Sound where
  root r hr := (h.root r (g.root ▸ hr)).trans_le g.heap.size_le
  keyed := g.heap.keyed h.keyed

theorem write_grown : ∀ (p : Path) (h : Heap) (r : Ref) (v : Value), h.Grown (write h r p v).1
  | [], h, _, _ => .refl h
  | [key], h, r, v => Heap.putField_grown h r key v
  | key :: k :: rest, h, r, v => by
    simp only [write]
    split
    · exact write_grown (k :: rest) h _ v
    · exact ((Heap.alloc_grown h Table.keyed_nil).trans (Heap.putField_grown _ r key _)).trans
        (write_grown (k :: rest) _ _ v)

theorem set_grown {c c' : Context} {p : Path} {v : Value} {replaced : List String}
    (h : c.set p v = .ok (c', replaced)) : c.Grown c' := by
  unfold set at h
  split at h
  · obtain ⟨rfl, -⟩ := Prod.mk.inj (Except.ok.inj h)
    exact ⟨write_grown _ _ _ v, rfl⟩
  · exact absurd h nofun
  · exact absurd h nofun

theorem setEntries_grown (c : Context) {t : Table Value} (ht : t.Keyed) :
    c.Grown (c.setEntries t) := by
  unfold setEntries
  split
  · exact ⟨⟨by simp, fun hk => Heap.keyed_setIfInBounds hk _ ht⟩, rfl⟩
  · exact .refl c

/-- Loading another context is growth, if the keys of that one are apart and both are tables or
neither is. -/
theorem load_grown {c src : Context} (hs : src.heap.Keyed)
    (hr : c.root.ref?.isSome = src.root.ref?.isSome) : c.Grown (c.load src).1 := by
  unfold load
  split
  · refine Grown.trans ?_ (setEntries_grown _ (Table.keyed_ofList _))
    exact ⟨Heap.graft_grown c.heap hs src.entries, rfl⟩
  · rename_i hn
    unfold loadDatum
    split
    · rename_i r hc
      rw [hc] at hr
      rcases hq : src.root with _ | _ | q
      · rw [hq] at hr
        exact absurd hr nofun
      · rw [hq] at hr
        exact absurd hr nofun
      · exact (hn r q hc hq).elim
    · rename_i hc
      exact ⟨.refl _, by rw [hc]; rfl⟩
    · exact .refl c

end Context

/-! ## Stores made from data -/

namespace Context

theorem sound_empty {h : Heap} (hk : h.Keyed) : (empty h).Sound where
  root r hr := by
    obtain rfl := Option.some.inj hr
    simp [empty, Heap.alloc]
  keyed := (Heap.alloc_grown h Table.keyed_nil).keyed hk

theorem loadData_grown (c : Context) {t : Table Datum} (ht : t.Keyed)
    (he : Datum.EntriesKeyed t) : c.Grown (c.loadData t) := by
  have hh : c.Grown { c with heap := (c.heap.holdEntries t).1 } :=
    ⟨Heap.holdEntries_grown t c.heap he, rfl⟩
  refine hh.trans (setEntries_grown _ ?_)
  exact Table.keyed_congr (Heap.keys_holdEntries t c.heap).symm ht

theorem loadDatum_grown (c : Context) {d : Datum} (hd : d.Keyed) : c.Grown (c.loadDatum d).1 := by
  unfold loadDatum
  split
  · split_ifs
    · obtain ⟨ht, he⟩ := Table.keyed_update hd
      exact loadData_grown c ht he
    · exact loadData_grown c Table.keyed_nil trivial
  · rename_i hc
    exact ⟨.refl _, by rw [hc]; rfl⟩
  · exact .refl c

end Context

namespace Store

/-- What is restored from data leaves the context as it is, or loads a part of the data into it. -/
theorem restoreData_context (s : Store) (d : Datum) :
    (s.restoreData d).1.context = s.context ∨ ∃ part, (d.Keyed → part.Keyed) ∧
      (s.restoreData d).1.context = (s.context.loadDatum part).1 := by
  rcases d with _ | _ | es | _
  case map =>
    have hp : (Datum.map es).Keyed → ((Table.get? es (.text "context")).getD (.map [])).Keyed := by
      intro hd
      rcases hg : Table.get? es (.text "context") with _ | x
      · exact ⟨Table.keyed_nil, trivial⟩
      · exact Table.keyed_of_get? hd.2 hg
    simp only [restoreData]
    split
    · exact .inl rfl
    · split
      · exact .inl rfl
      · right
        refine ⟨_, hp, ?_⟩
        split <;> rename_i hl <;> rw [hl]
  all_goals exact .inl rfl

theorem restoreData_grown (s : Store) {d : Datum} (hd : d.Keyed) :
    s.context.Grown (s.restoreData d).1.context := by
  rcases restoreData_context s d with he | ⟨part, hp, he⟩
  · exact he ▸ .refl _
  · exact he ▸ Context.loadDatum_grown s.context (hp hd)

theorem sound_ofDatum {h : Heap} (hk : h.Keyed) {d : Datum} (hd : d.Keyed) {s : Store}
    (hs : ofDatum h d = .ok s) : s.context.Sound := by
  have hg := restoreData_grown (Store.empty h) hd
  unfold ofDatum at hs
  split at hs
  · rename_i s' hr
    obtain rfl := Except.ok.inj hs
    rw [hr] at hg
    exact (Context.sound_empty hk).grown hg
  · exact absurd hs nofun

end Store

/-! ## Effects -/

theorem World.set_grown {w w' : World} {path : String} {v : Value} (h : w.set path v = .ok w') :
    w.store.context.Grown w'.store.context := by
  unfold World.set Store.set at h
  rcases hc : w.store.context.set (Path.split path) v with f | ⟨c, replaced⟩
  · rw [hc] at h
    exact absurd h nofun
  · rw [hc] at h
    obtain rfl := Except.ok.inj h
    exact Context.set_grown hc

namespace Effect

theorem writeValue_grown (w : World) (path : String) (op : Operation) (v : Value) :
    w.store.context.Grown (writeValue w path op v).1.store.context := by
  unfold writeValue
  rcases hw : w.set path v with f | w'
  · exact .refl _
  · have hg := World.set_grown hw
    simp only
    split_ifs
    · exact hg
    · exact hg

theorem distinguish_store (w : World) (n : Number) : (w.distinguish n).1.store = w.store := by
  unfold World.distinguish
  split <;> rfl

theorem applyWrite_grown (w : World) (path : String) (op : Operation) (source : Source) :
    w.store.context.Grown (applyWrite w path op source).1.store.context := by
  unfold applyWrite
  split
  · split
    · exact writeValue_grown w path _ _
    · exact .refl _
  · split
    · rename_i n _
      have hw := writeValue_grown (w.distinguish n).1 path op (.ofNumber (w.distinguish n).2)
      rwa [distinguish_store] at hw
    · exact .refl _

theorem moveQuest_context (w : World) (key : Datum) (status : Quest.Status) :
    (w.moveQuest key status).1.store.context = w.store.context := by
  unfold World.moveQuest
  split
  · rfl
  · split <;> rfl

theorem apply_grown (w : World) : ∀ e : Effect,
    w.store.context.Grown (e.apply w).1.store.context
  | .setFlag _ _ => .refl _
  | .toggleFlag _ => .refl _
  | .write path op source => applyWrite_grown w path op source
  | .moveQuest key t => by
    have hc := moveQuest_context w (.text key) t.status
    simp only [apply]
    split
    · rename_i w' q hm
      rw [hm] at hc
      exact hc ▸ .refl _
    · rename_i w' f hm
      rw [hm] at hc
      exact hc ▸ .refl _
  | .malformed _ _ => .refl _

theorem applyAll_grown : ∀ (es : List Effect) (w : World),
    w.store.context.Grown (applyAll w es).1.store.context
  | [], _ => .refl _
  | e :: es, w => by
    have he := apply_grown w e
    unfold applyAll
    split
    · rename_i w' ha
      rw [ha] at he
      exact he.trans (applyAll_grown es w')
    · exact he

end Effect

end Colloquy
