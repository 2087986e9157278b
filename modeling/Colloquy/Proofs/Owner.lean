import Colloquy.Proofs.Loaded
import Colloquy.Proofs.Mirrored

/-!
# Stores and what is done with them

An owner has a store, the snapshots that were taken of it, and the effects that were read for it.
Whatever is done with these (`Owner.act`), a store that is whole stays so (`Owner.Whole.act`), and
what its context does not lead to is left alone (`Owner.act_within`). Owners that mirror each other
go on doing so (`Owner.Mirrors.act`).
-/

namespace Colloquy

/-- What an owner does. Values are given as data, so that they are fresh; a value from the store
itself is shared. An effect is applied at a given time, with the payload of its sum given. -/
inductive Act where
  | setFlag (key : Scalar) (value : Bool)
  | toggleFlag (key : Scalar)
  | set (path : String) (value : Datum)
  | share (path source : String)
  | moveQuest (key : Scalar) (status : Quest.Status) (time : Datum)
  | restoreData (d : Datum)
  | readEffect (d : Datum)
  | apply (i : ℕ) (clock : Clock) (payload : ℕ)
  | snapshot
  | restore (i : ℕ)

/-- No two keys of a table in the data of an act are alike. -/
def Act.Keyed : Act → Prop
  | .set _ d | .restoreData d | .readEffect d => d.Keyed
  | _ => True

/-- A store, with the snapshots that were taken of it and the effects that were read for it. -/
structure Owner (σ : Type) where
  store : σ
  snapshots : List σ := []
  effects : List Effect := []

namespace Owner

def map {σ τ : Type} (g : σ → τ) (o : Owner σ) : Owner τ :=
  { store := g o.store, snapshots := o.snapshots.map g, effects := o.effects }

section act
variable [Text.Halves]

/-- Writes a value into the store, which is on a heap that the value has been put on. -/
def write (o : Owner Store) (h : Heap) (path : String) (v : Value) : Owner Store × Option Fault :=
  match Store.set { o.store with context := { o.store.context with heap := h } } path v with
  | .ok (store, _) => ({ o with store }, none)
  | .error f => (o, some f)

/-- An act, with the snapshots kept as values. -/
def act (o : Owner Store) : Act → Owner Store × Option Fault
  | .setFlag key value => ({ o with store := o.store.setFlag key value }, none)
  | .toggleFlag key => ({ o with store := (o.store.toggleFlag key).1 }, none)
  | .set path d =>
    let (heap, v) := o.store.context.heap.hold d
    o.write heap path v
  | .share path source =>
    match o.store.get? source with
    | some v => o.write o.store.context.heap path v
    | none => (o, none)
  | .moveQuest key status time =>
    ({ o with store := (o.store.moveQuest key status time).1 }, none)
  | .restoreData d =>
    let (store, f) := o.store.restoreData d
    ({ o with store }, f)
  | .readEffect d =>
    let (heap, e) := Effect.ofDatum o.store.context.heap d
    let context := { o.store.context with heap }
    ({ o with store := { o.store with context }, effects := o.effects ++ [e] }, none)
  | .apply i clock payload =>
    match o.effects[i]? with
    | some e =>
      let (w, f) := e.apply { store := o.store, clock, payload }
      ({ o with store := w.store }, f)
    | none => (o, none)
  | .snapshot =>
    match o.store.snapshot with
    | .ok old => ({ o with snapshots := o.snapshots ++ [old] }, none)
    | .error f => (o, some f)
  | .restore i =>
    match o.snapshots[i]? with
    | some old =>
      let (store, f) := o.store.restore old
      ({ o with store }, f)
    | none => (o, none)

def acts (o : Owner Store) (as : List Act) : Owner Store :=
  as.foldl (fun o a => (o.act a).1) o

end act

end Owner

/-! ## Within a fence -/

namespace Heap

/-- A heap that has grown from another one within a fence: what is outside is as it was. -/
structure Within (G : Ref → Prop) (h h' : Heap) : Prop where
  grown : h.Grown h'
  fenced : Fenced G h'
  same : ∀ r < h.size, ¬ G r → h'.cell r = h.cell r

variable {G : Ref → Prop} {h h₁ h₂ : Heap}

theorem Within.refl (hG : Fenced G h) : h.Within G h := ⟨.refl h, hG, fun _ _ _ => rfl⟩

theorem Within.trans (H : h.Within G h₁) (H' : h₁.Within G h₂) : h.Within G h₂ where
  grown := H.grown.trans H'.grown
  fenced := H'.fenced
  same r hr hn := (H'.same r (hr.trans_le H.grown.size_le) hn).trans (H.same r hr hn)

/-- What is made on top of a heap is within every fence. -/
theorem Atop.within (H : h.Atop h₁) (hG : Fenced G h) (keyed : h.Keyed → h₁.Keyed) :
    h.Within G h₁ where
  grown := ⟨H.size_le, keyed⟩
  fenced := {
    closed := fun r hr q hq => by
      rcases Nat.lt_or_ge r h.size with hs | hs
      · rw [H.old r hs] at hq
        exact (hG.closed r hr q hq).grown H.size_le
      · obtain ⟨hq, hl⟩ := H.new.closed r hs q hq
        exact ⟨hG.fresh q hq, hl⟩
    fresh := fun r hr => hG.fresh r (H.size_le.trans hr) }
  same r hr _ := H.old r hr

theorem hold_within (hG : Fenced G h) {d : Datum} (hd : d.Keyed) :
    h.Within G (h.hold d).1 ∧ (h.hold d).2.In ((h.hold d).1.There G) := by
  obtain ⟨H, -, hv⟩ := hold_atop d (.refl h)
  exact ⟨H.within hG (hold_grown d h hd).keyed, fun r hr => (hv r hr).imp_left (hG.fresh r)⟩

theorem holdEntries_within (hG : Fenced G h) {es : List (Scalar × Datum)}
    (hd : Datum.EntriesKeyed es) : h.Within G (h.holdEntries es).1 ∧
      ∀ q ∈ refsOf (h.holdEntries es).2, (h.holdEntries es).1.There G q := by
  obtain ⟨H, -, ht⟩ := holdEntries_atop es (.refl h)
  exact ⟨H.within hG (holdEntries_grown es h hd).keyed,
    fun q hq => (ht q hq).imp_left (hG.fresh q)⟩

end Heap

/-- A context that has grown from another one within a fence, its value as it was. -/
structure Context.Within (G : Ref → Prop) (c c' : Context) : Prop where
  heap : c.heap.Within G c'.heap
  root : c'.root = c.root

namespace Context

variable {G : Ref → Prop} {c c₁ c₂ : Context}

theorem Within.trans (H : c.Within G c₁) (H' : c₁.Within G c₂) : c.Within G c₂ :=
  ⟨H.heap.trans H'.heap, H'.root.trans H.root⟩

theorem Within.context (H : c.Within G c₁) (hG : c.Fenced G) : c₁.Fenced G where
  heap := H.heap.fenced
  root r hr := (hG.root r (H.root ▸ hr)).grown H.heap.grown.size_le

theorem set_within {r : Ref} (hc : c.root = .map r) (hG : c.Fenced G) (p : Path) {v : Value}
    (hv : v.In (c.heap.There G)) :
    ∃ c' replaced, c.set p v = .ok (c', replaced) ∧ c.Within G c' := by
  have hr : G r := (hG.root r (by rw [hc]; rfl)).1
  refine ⟨{ c with heap := (write c.heap r p v).1 }, (write c.heap r p v).2, ?_, ⟨?_, ?_, ?_⟩, rfl⟩
  · simp only [set, hc]
  · exact write_grown p c.heap r v
  · exact write_fenced p hG.heap hr hv
  · intro q hq hn
    refine cell_write p v hq ?_
    rintro rfl
    exact hn (landing_mem hG.heap p hr)

theorem loadDatum_within {r : Ref} (hc : c.root = .map r) (hG : c.Fenced G) {d : Datum}
    (hd : d.Keyed) : c.Within G (c.loadDatum d).1 := by
  have hr : G r := (hG.root r (by rw [hc]; rfl)).1
  have hload : ∀ t : Table Datum, t.Keyed → Datum.EntriesKeyed t → c.Within G (c.loadData t) := by
    intro t ht he
    obtain ⟨H, hin⟩ := Heap.holdEntries_within hG.heap he
    have hk : Table.Keyed (c.heap.holdEntries t).2 :=
      Table.keyed_congr (Heap.keys_holdEntries t c.heap).symm ht
    have hh : (c.loadData t).heap =
        (c.heap.holdEntries t).1.setIfInBounds r (c.heap.holdEntries t).2 := by
      simp only [loadData, setEntries, hc]
    refine ⟨H.trans ?_, by simp only [loadData, setEntries, hc]⟩
    rw [hh]
    refine ⟨⟨Array.size_setIfInBounds.ge, fun h => Heap.keyed_setIfInBounds h r hk⟩,
      H.fenced.setIfInBounds r hin, fun q _ hn => ?_⟩
    have hne : r ≠ q := fun h => hn (h ▸ hr)
    rw [Heap.cell_setIfInBounds, if_neg fun h => hne h.1]
  simp only [loadDatum, hc]
  split_ifs
  · obtain ⟨ht, he⟩ := Table.keyed_update hd
    exact hload _ ht he
  · exact hload [] Table.keyed_nil trivial

theorem load_within {src : Context} {r q : Ref} (hc : c.root = .map r) (hs : src.root = .map q)
    (hk : src.heap.Keyed) (hG : c.Fenced G) : c.Within G (c.load src).1 := by
  have hr : c.root.ref?.isSome = src.root.ref?.isSome := by rw [hc, hs]; rfl
  have hroot : G r := (hG.root r (by rw [hc]; rfl)).1
  refine ⟨⟨(load_grown hk hr).heap, (load_fenced hr hG).heap, ?_⟩, ?_⟩
  · refine fun p hp hn => load_same (N := fun p => p < c.heap.size ∧ ¬ G p) hr (fun _ h => h.1)
      (fun p hp hn => ?_) p ⟨hp, hn⟩
    rw [hc] at hp
    cases hp
    exact hn.2 hroot
  · rw [load_tables hc hs]
    simp only [setEntries, hc]

end Context

theorem Store.restoreData_within {G : Ref → Prop} {s : Store} {r : Ref}
    (hr : s.context.root = .map r) {d : Datum} (hd : d.Keyed) (hG : s.context.Fenced G) :
    s.context.Within G (s.restoreData d).1.context := by
  rcases restoreData_context s d with he | ⟨part, hp, he⟩
  · rw [he]
    exact ⟨.refl hG.heap, rfl⟩
  · rw [he]
    exact Context.loadDatum_within hr hG (hp hd)

theorem Effect.ofDatum_grown [Text.Halves] (h : Heap) {d : Datum} (hd : d.Keyed) :
    h.Grown (ofDatum h d).1 := by
  rcases ofDatum_cases d with ⟨e, -, he⟩ | ⟨es, fs, path, op, rfl, hv, he⟩
  · exact he h ▸ .refl h
  · have hk : (Datum.map fs).Keyed := by
      unfold Table.field at hv
      rcases hg : Table.get? es (.text "value") with _ | x
      · rw [hg] at hv
        cases hv
      · rw [hg] at hv
        exact hv ▸ Table.keyed_of_get? hd.2 hg
    exact he h ▸ Heap.hold_grown (.map fs) h hk

theorem Effect.apply_within [Text.Halves] {G : Ref → Prop} {w : World} (e : Effect)
    (hG : w.store.context.Fenced G) (he : e.In (w.store.context.heap.There G)) :
    w.store.context.Within G (e.apply w).1.store.context := by
  refine ⟨⟨(apply_grown w e).heap, (apply_fenced hG he).heap, ?_⟩, ?_⟩
  · refine fun r hr hn => apply_same (N := fun r => r < w.store.context.heap.size ∧ ¬ G r) ?_
      (fun _ h => h.1) r ⟨hr, hn⟩
    exact (avoids_outside hG e).join (fun r hr => .inl hr.2) (avoids_outside hG e)
  · rcases apply_context w e with hc | ⟨path, op, source, v, r, -, -, hr, hc⟩
    · rw [hc]
    · rw [hc, hr]

/-- The context of a store is a table, and no table on its heap has two keys that are alike or
refers to what is not there. -/
structure Context.Whole (c : Context) : Prop where
  table : ∃ r, c.root = .map r
  sound : c.Sound
  tight : c.heap.Tight

theorem Context.Whole.fenced {c : Context} (whole : c.Whole) : c.Fenced fun _ => True where
  heap := ⟨fun r _ q hq => ⟨trivial, whole.tight r q hq⟩, fun _ _ => trivial⟩
  root r hr := ⟨trivial, whole.sound.root r hr⟩

theorem Context.Whole.within {c c' : Context} (whole : c.Whole)
    (H : c.Within (fun _ => True) c') : c'.Whole where
  table := H.root ▸ whole.table
  sound := {
    root := fun r hr => (whole.sound.root r (H.root ▸ hr)).trans_le H.heap.grown.size_le
    keyed := H.heap.grown.keyed whole.sound.keyed }
  tight r q hq := (H.heap.fenced.closed r trivial q hq).2

namespace Store

theorem restore_tables {s old : Store} {r q : Ref} (hr : s.context.root = .map r)
    (hq : old.context.root = .map q) : s.restore old =
      ({ flags := old.flags, context := (s.context.load old.context).1, quests := old.quests },
        none) := by
  have hl : s.context.load old.context = ((s.context.load old.context).1, none) := by
    rw [Context.load_tables hr hq]
  unfold restore
  rw [hl]

theorem restore_within {s old : Store} (whole : s.context.Whole) (whole' : old.context.Whole)
    {G : Ref → Prop} (hG : s.context.Fenced G) :
    s.context.Within G (s.restore old).1.context := by
  obtain ⟨r, hr⟩ := whole.table
  obtain ⟨q, hq⟩ := whole'.table
  rw [restore_context]
  exact Context.load_within hr hq whole'.sound.keyed hG

end Store

namespace Owner

/-- The store and all snapshots are whole, and what the effects write is there. -/
structure Whole (o : Owner Store) : Prop where
  store : o.store.context.Whole
  snapshots : ∀ s ∈ o.snapshots, s.context.Whole
  effects : ∀ e ∈ o.effects, e.In (· < o.store.context.heap.size)

/-- The store and the effects of an owner do not refer to anything beyond a fence. -/
structure Fenced (G : Ref → Prop) (o : Owner Store) : Prop where
  store : o.store.context.Fenced G
  effects : ∀ e ∈ o.effects, e.In (o.store.context.heap.There G)

variable {G : Ref → Prop} {o : Owner Store}

theorem Whole.fenced (whole : o.Whole) : o.Fenced fun _ => True :=
  ⟨whole.store.fenced, fun e he r hr => ⟨trivial, whole.effects e he r hr⟩⟩

theorem write_within {h : Heap} (path : String) {v : Value} (whole : o.Whole)
    (H : o.store.context.heap.Within G h) (hG : o.store.context.Fenced G)
    (hv : v.In (h.There G)) :
    ∃ store, o.write h path v = ({ o with store }, none) ∧
      o.store.context.Within G store.context := by
  obtain ⟨r, hr⟩ := whole.store.table
  have H' : o.store.context.Within G { o.store.context with heap := h } := ⟨H, rfl⟩
  obtain ⟨c, replaced, hc, hw⟩ := Context.set_within (c := ⟨h, o.store.context.root⟩) hr
    (H'.context hG) (Path.split path) hv
  refine ⟨{ o.store with context := c }, ?_, H'.trans hw⟩
  unfold write Store.set
  rw [hc]
  rfl

section act
variable [Text.Halves]

/-- What an act does to a store is within every fence around its owner. -/
theorem act_within (whole : o.Whole) (hG : o.Fenced G) {a : Act} (keyed : a.Keyed) :
    o.store.context.Within G (o.act a).1.store.context := by
  have hrefl : o.store.context.Within G o.store.context := ⟨.refl hG.store.heap, rfl⟩
  obtain ⟨r, hr⟩ := whole.store.table
  cases a with
  | setFlag | toggleFlag | moveQuest => exact hrefl
  | set path d =>
    obtain ⟨H, hv⟩ := Heap.hold_within hG.store.heap keyed
    obtain ⟨store, he, hw⟩ := write_within path whole H hG.store hv
    simp only [act, he]
    exact hw
  | share path source =>
    simp only [act]
    rcases hs : o.store.get? source with _ | v
    · exact hrefl
    · have hv := Context.walk_mem hG.store.heap _ hG.store.root hs
      obtain ⟨store, he, hw⟩ := write_within path whole hrefl.heap hG.store hv
      simp only [he]
      exact hw
  | restoreData d =>
    exact Store.restoreData_within hr keyed hG.store
  | readEffect d =>
    obtain ⟨H, -, -⟩ := Effect.ofDatum_atop (.refl o.store.context.heap) d
    exact ⟨H.within hG.store.heap (Effect.ofDatum_grown _ keyed).keyed, rfl⟩
  | apply i clock payload =>
    simp only [act]
    rcases hi : o.effects[i]? with _ | e
    · exact hrefl
    · exact Effect.apply_within (w := { store := o.store, clock, payload }) e hG.store
        (hG.effects e (List.mem_of_getElem? hi))
  | snapshot =>
    simp only [act]
    split
    · exact hrefl
    · exact hrefl
  | restore i =>
    simp only [act]
    rcases hi : o.snapshots[i]? with _ | old
    · exact hrefl
    · have hold := whole.snapshots old (List.mem_of_getElem? hi)
      exact Store.restore_within whole.store hold hG.store

/-- An act changes the store only, but for taking a snapshot or reading an effect. -/
theorem act_cases (o : Owner Store) (a : Act) :
    (o.act a).1 = { o with store := (o.act a).1.store } ∨
      a = .snapshot ∧ (o.act a).1 = { o with snapshots := o.snapshots ++ [o.store] } ∨
      ∃ d, a = .readEffect d := by
  have hwrite : ∀ h path v, (o.write h path v).1 = { o with store := (o.write h path v).1.store } :=
    fun h path v => by unfold write; split <;> rfl
  cases a with
  | setFlag | toggleFlag | moveQuest | restoreData => exact .inl rfl
  | set path d => exact .inl (hwrite _ _ _)
  | share path source =>
    left
    simp only [act]
    split
    · exact hwrite _ _ _
    · rfl
  | readEffect d => exact .inr (.inr ⟨d, rfl⟩)
  | apply i clock payload =>
    left
    simp only [act]
    split <;> rfl
  | snapshot =>
    simp only [act, Store.snapshot]
    split_ifs
    · exact .inr (.inl ⟨trivial, rfl⟩)
    · exact .inl rfl
  | restore i =>
    left
    simp only [act]
    split <;> rfl

theorem snapshots_act (o : Owner Store) {a : Act} (ha : a ≠ .snapshot) :
    (o.act a).1.snapshots = o.snapshots := by
  rcases act_cases o a with he | ⟨he, -⟩ | ⟨d, rfl⟩
  · rw [he]
  · exact absurd he ha
  · rfl

/-- Snapshots are kept in the order in which they were taken. -/
theorem snapshots_acts (o : Owner Store) (as : List Act) :
    o.snapshots <+: (o.acts as).snapshots := by
  induction as generalizing o with
  | nil => exact List.prefix_rfl
  | cons a as ih =>
    refine List.IsPrefix.trans ?_ (ih (o.act a).1)
    rcases act_cases o a with he | ⟨rfl, he⟩ | ⟨d, rfl⟩
    · rw [he]
    · rw [he]
      exact List.prefix_append _ _
    · exact List.prefix_rfl

theorem Whole.act (whole : o.Whole) {a : Act} (keyed : a.Keyed) : (o.act a).1.Whole := by
  have hw := act_within whole whole.fenced keyed
  have kept : ∀ e ∈ o.effects, e.In (· < (o.act a).1.store.context.heap.size) := fun e he r hr =>
    (whole.effects e he r hr).trans_le hw.heap.grown.size_le
  rcases act_cases o a with he | ⟨rfl, he⟩ | ⟨d, rfl⟩
  · rw [he]
    exact ⟨whole.store.within hw, whole.snapshots, kept⟩
  · rw [he]
    refine ⟨whole.store, fun s hs => ?_, whole.effects⟩
    rcases List.mem_append.1 hs with hs | hs
    · exact whole.snapshots s hs
    · exact List.mem_singleton.1 hs ▸ whole.store
  · obtain ⟨-, -, hd⟩ := Effect.ofDatum_atop (.refl o.store.context.heap) d
    refine ⟨whole.store.within hw, whole.snapshots, fun e he => ?_⟩
    rcases List.mem_append.1 he with he | he
    · exact kept e he
    · exact List.mem_singleton.1 he ▸ fun r hr => (hd r hr).2

end act

end Owner

/-! ## Owners that mirror each other -/

theorem forall₂_getElem? {α β : Type} {R : α → β → Prop} {l : List α} {l' : List β}
    (h : List.Forall₂ R l l') (i : ℕ) : (l[i]? = none ∧ l'[i]? = none) ∨
      ∃ a b, l[i]? = some a ∧ l'[i]? = some b ∧ R a b := by
  induction h generalizing i with
  | nil => exact .inl ⟨rfl, rfl⟩
  | cons hab _ ih =>
    cases i with
    | zero => exact .inr ⟨_, _, rfl, rfl, hab⟩
    | succ i => exact ih i

/-- A store is repeated in cells among given ones. -/
def Store.Repeated (P : Ref → Prop) (s s' : Store) : Prop :=
  ∃ g T, s.Repeats g T s' ∧ ∀ r, T r → P (g r)

theorem Store.Mirrors.restoreData {f : Ref → Ref} {S : Ref → Prop} {s s' : Store}
    (H : s.Mirrors f S s') (d : Datum) :
    (s.restoreData d).1.Mirrors f S (s'.restoreData d).1 ∧
      (s'.restoreData d).2 = (s.restoreData d).2 := by
  rcases d with _ | _ | es | _
  case map =>
    simp only [Store.restoreData]
    generalize (Table.get? es (.text "context")).getD (.map []) = part
    obtain ⟨hc, he⟩ := H.context.loadDatum_mirrors part
    split
    · exact ⟨H, rfl⟩
    · split
      · exact ⟨⟨H.context, rfl, H.quests⟩, rfl⟩
      · rcases hl : s.context.loadDatum part with ⟨c, o⟩
        rcases hl' : s'.context.loadDatum part with ⟨c', o'⟩
        rw [hl, hl'] at hc he
        obtain rfl : o' = o := he
        cases o' with
        | none => exact ⟨⟨hc, rfl, rfl⟩, rfl⟩
        | some => exact ⟨⟨hc, rfl, H.quests⟩, rfl⟩
  all_goals exact ⟨H, rfl⟩

/-- Data is read as the same effect on heaps that mirror each other, its value under its name
there. -/
theorem Effect.ofDatum_mirrors [Text.Halves] {f : Ref → Ref} {S : Ref → Prop} {h h' : Heap}
    (H : Heap.Mirrors f S h h') (d : Datum) :
    Heap.Mirrors f S (ofDatum h d).1 (ofDatum h' d).1 ∧
      (ofDatum h' d).2 = (ofDatum h d).2.rename f := by
  rcases ofDatum_cases d with ⟨e, hr, he⟩ | ⟨es, fs, path, op, -, -, he⟩
  · rw [he, he]
    refine ⟨H, (rename_of_kept (S := S) fun r hr' => ?_).symm⟩
    rw [hr] at hr'
    cases hr'
  · obtain ⟨H', hv, -⟩ := Heap.hold_mirrors (.map fs) H
    rw [he, he]
    exact ⟨H', congrArg (fun v => write path op (.value v)) hv⟩

theorem Effect.ref?_rename (f : Ref → Ref) (e : Effect) : (e.rename f).ref? = e.ref?.map f := by
  rcases e with _ | _ | ⟨path, op, _ | _ | v⟩
  case write.value => exact Value.ref?_rename f v
  all_goals rfl

namespace Owner

/-- An owner mirrors another one: its store does, its snapshots are repeated in cells among given
ones, and its effects write the same under other names. -/
structure Mirrors (f : Ref → Ref) (P : Ref → Prop) (v o : Owner Store) : Prop where
  store : v.store.Mirrors f (fun _ => True) o.store
  snapshots : List.Forall₂ (Store.Repeated P) v.snapshots o.snapshots
  effects : o.effects = v.effects.map (·.rename f)

namespace Mirrors

variable {f : Ref → Ref} {P : Ref → Prop} {v o : Owner Store}

theorem everywhere (H : v.Mirrors f P o) : v.Mirrors f (fun _ => True) o :=
  ⟨H.store, H.snapshots.imp fun _ _ ⟨g, T, R, _⟩ => ⟨g, T, R, fun _ _ => trivial⟩, H.effects⟩

theorem inStore (H : v.Mirrors f P o) {s s' : Store} (Hs : s.Mirrors f (fun _ => True) s') :
    Mirrors f P { v with store := s } { o with store := s' } :=
  ⟨Hs, H.snapshots, H.effects⟩

/-- The cells of an owner that mirrors a whole one, with all fresh ones, are a fence around it. -/
theorem fenced (H : v.Mirrors f P o) (whole : v.Whole) : o.Fenced fun p =>
    (∃ r < v.store.context.heap.size, f r = p) ∨ o.store.context.heap.size ≤ p := by
  have Hc := H.store.context
  have there : ∀ r < v.store.context.heap.size, o.store.context.heap.There (fun p =>
      (∃ r < v.store.context.heap.size, f r = p) ∨ o.store.context.heap.size ≤ p) (f r) :=
    fun r hr => ⟨.inl ⟨r, hr, rfl⟩, Hc.heap.inside r trivial hr⟩
  refine ⟨⟨⟨?_, fun _ => .inr⟩, fun q hq => ?_⟩, fun e he q hq => ?_⟩
  · rintro p (⟨r, -, rfl⟩ | hp) q hq
    · have hc : o.store.context.heap.cell (f r) = (v.store.context.heap.cell r).renamed f :=
        Hc.heap.repeats.cell r trivial
      rw [hc, Heap.refsOf_renamed] at hq
      obtain ⟨r', hr', rfl⟩ := List.mem_map.1 hq
      exact there r' (whole.store.tight r r' hr')
    · rw [Heap.cell_of_size_le hp] at hq
      exact absurd hq List.not_mem_nil
  · rw [Hc.root, Value.ref?_rename] at hq
    obtain ⟨r, hr, rfl⟩ := Option.map_eq_some_iff.1 hq
    exact there r (whole.store.sound.root r hr)
  · rw [H.effects] at he
    obtain ⟨e', he', rfl⟩ := List.mem_map.1 he
    rw [Effect.ref?_rename] at hq
    obtain ⟨r, hr, rfl⟩ := Option.map_eq_some_iff.1 hq
    exact there r (whole.effects e' he' r hr)

theorem write (H : v.Mirrors f P o) {h h' : Heap} (Hh : Heap.Mirrors f (fun _ => True) h h')
    (path : String) (x : Value) :
    (v.write h path x).1.Mirrors f P (o.write h' path (x.rename f)).1 ∧
      (o.write h' path (x.rename f)).2 = (v.write h path x).2 := by
  have Hc : Context.Mirrors f (fun _ => True) { v.store.context with heap := h }
      { o.store.context with heap := h' } := ⟨Hh, H.store.context.root, fun _ _ => trivial⟩
  unfold Owner.write Store.set
  rcases Hc.set_mirrors (Path.split path) (v := x) fun _ _ => trivial with
    ⟨fault, he, he'⟩ | ⟨c, c', replaced, he, he', hc⟩
  · rw [he, he']
    exact ⟨H, rfl⟩
  · rw [he, he']
    exact ⟨H.inStore ⟨hc, H.store.flags, H.store.quests⟩, rfl⟩

section act
variable [Text.Halves]

/-- An act of owners that mirror each other comes to the same, and they still do. A snapshot is kept
where the store is. -/
theorem act (H : v.Mirrors f P o) {a : Act} (ha : a = .snapshot → ∀ r, P r) :
    (v.act a).1.Mirrors f P (o.act a).1 ∧ (o.act a).2 = (v.act a).2 := by
  have Hf (key : Scalar) (value : Bool) :
      Store.Mirrors f (fun _ => True) (v.store.setFlag key value) (o.store.setFlag key value) :=
    ⟨H.store.context, congrArg (fun t => Table.put t key (Datum.bool value)) H.store.flags,
      H.store.quests⟩
  cases a with
  | setFlag key value => exact ⟨H.inStore (Hf key value), rfl⟩
  | toggleFlag key =>
    simp only [Owner.act, Store.toggleFlag, H.store.flag_eq]
    exact ⟨H.inStore (Hf key _), trivial⟩
  | set path d =>
    obtain ⟨Hh, hv, -⟩ := Heap.hold_mirrors d H.store.context.heap
    simp only [Owner.act, hv]
    exact H.write Hh path _
  | share path source =>
    simp only [Owner.act, (H.store.get?_eq source).1]
    rcases v.store.get? source with _ | x
    · exact ⟨H, rfl⟩
    · exact H.write H.store.context.heap path x
  | moveQuest key status time =>
    have hq : o.store.quests = v.store.quests := H.store.quests
    simp only [Owner.act, Store.moveQuest, Store.quest?, hq]
    exact ⟨H.inStore ⟨H.store.context, H.store.flags, rfl⟩, trivial⟩
  | restoreData d =>
    obtain ⟨Hs, he⟩ := H.store.restoreData d
    exact ⟨H.inStore Hs, he⟩
  | readEffect d =>
    obtain ⟨Hh, he⟩ := Effect.ofDatum_mirrors H.store.context.heap d
    refine ⟨⟨⟨⟨Hh, H.store.context.root, fun _ _ => trivial⟩, H.store.flags, H.store.quests⟩,
      H.snapshots, ?_⟩, rfl⟩
    simp only [Owner.act, H.effects, he, List.map_append, List.map_cons, List.map_nil]
  | apply i clock payload =>
    have ho : o.effects[i]? = (v.effects[i]?).map (·.rename f) := by
      rw [H.effects, List.getElem?_map]
    simp only [Owner.act, ho]
    rcases v.effects[i]? with _ | e
    · exact ⟨H, rfl⟩
    · have Hs : World.Mirrors f (fun _ => True) { store := v.store, clock, payload }
          { store := o.store, clock, payload } := ⟨H.store, rfl⟩
      obtain ⟨Hw, he⟩ := Effect.apply_rename Hs (e := e) fun _ _ => trivial
      exact ⟨H.inStore Hw.store, he⟩
  | snapshot =>
    simp only [Owner.act, Store.snapshot, H.store.context.isCopyable_eq]
    split_ifs
    · refine ⟨⟨H.store, List.rel_append H.snapshots (.cons ?_ .nil), H.effects⟩, rfl⟩
      exact ⟨f, _, H.store.repeats, fun r _ => ha rfl (f r)⟩
    · exact ⟨H, rfl⟩
  | restore i =>
    simp only [Owner.act]
    rcases forall₂_getElem? H.snapshots i with ⟨hv, ho⟩ | ⟨old, old', hv, ho, g, T, R, -⟩
    · rw [hv, ho]
      exact ⟨H, rfl⟩
    · obtain ⟨Hs, he⟩ := H.store.restore R
      rw [hv, ho]
      exact ⟨H.inStore Hs, he⟩

theorem acts (H : v.Mirrors f (fun _ => True) o) (as : List Act) :
    (v.acts as).Mirrors f (fun _ => True) (o.acts as) := by
  induction as generalizing v o with
  | nil => exact H
  | cons a as ih => exact ih (H.act fun _ _ => trivial).1

end act

end Mirrors

end Owner

end Colloquy
