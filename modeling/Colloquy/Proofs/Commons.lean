import Colloquy.Proofs.Beside
import Colloquy.Proofs.Shared

/-!
# Stores on one heap

Stores that are made from data and from each other live on one heap, with the snapshots that are
taken of them (`Commons.step`). Each cell belongs to one store at most, and what is done with that
store changes no other cell, so each store goes on as if it had the heap to itself
(`Owner.Stands.actOn`, `Commons.Stands.run`). So a snapshot stays what it is and is restored as
often as one likes, and a copy and its original know nothing of each other
(`Commons.stores_independent`).
-/

namespace Colloquy

/-- Stores on a common heap. -/
structure Commons where
  heap : Heap := #[]
  owners : List (Owner Store.Parts) := []

/-- What happens to stores: one is made from data, one is copied, or something is done with one. -/
inductive Event where
  | new (d : Datum)
  | copy (i : ℕ)
  | act (i : ℕ) (a : Act)

/-- No two keys of a table in the data of an event are alike. -/
def Event.Keyed : Event → Prop
  | .new d => d.Keyed
  | .copy _ => True
  | .act _ a => a.Keyed

/-- What is done with one of several stores. -/
def Event.actOf (i : ℕ) : Event → Option Act
  | .act j a => if j = i then some a else none
  | _ => none

section step
variable [Text.Halves]

/-- An act on a heap; a snapshot is put beside the store. -/
def Owner.actOn (h : Heap) (o : Owner Store.Parts) : Act → Heap × Owner Store.Parts × Option Fault
  | .snapshot =>
    match (o.store.on h).snapshot with
    | .ok s =>
      (s.beside.context.heap, { o with snapshots := o.snapshots ++ [s.beside.parts] }, none)
    | .error f => (h, o, some f)
  | a =>
    let (o, f) := (o.map (·.on h)).act a
    (o.store.context.heap, o.map Store.parts, f)

theorem Owner.actOn_of_ne {h : Heap} {o : Owner Store.Parts} {a : Act} (ha : a ≠ .snapshot) :
    o.actOn h a = (((o.map (·.on h)).act a).1.store.context.heap,
      ((o.map (·.on h)).act a).1.map Store.parts, ((o.map (·.on h)).act a).2) := by
  cases a with
  | snapshot => exact absurd rfl ha
  | setFlag | toggleFlag | set | share | moveQuest => rfl
  | restoreData | readEffect | apply | restore => rfl

namespace Commons

/-- One more store, on a heap made from the common one. -/
def join (c : Commons) (s : Store) : Commons :=
  { heap := s.context.heap, owners := c.owners ++ [{ store := s.parts }] }

def step (c : Commons) : Event → Commons × Option Fault
  | .new d =>
    match Store.ofDatum c.heap d with
    | .ok s => (c.join s, none)
    | .error f => (c, some f)
  | .copy i =>
    match c.owners[i]? with
    | some o =>
      match (o.store.on c.heap).copyBeside with
      | .ok s => (c.join s, none)
      | .error f => (c, some f)
    | none => (c, none)
  | .act i a =>
    match c.owners[i]? with
    | some o =>
      let (heap, o, f) := o.actOn c.heap a
      ({ heap, owners := c.owners.set i o }, f)
    | none => (c, none)

def run (c : Commons) (es : List Event) : Commons :=
  es.foldl (fun c e => (c.step e).1) c

/-- A store on the heap. -/
def store? (c : Commons) (i : ℕ) : Option Store :=
  c.owners[i]?.map fun o => o.store.on c.heap

/-- A snapshot that was taken of a store, on the heap. -/
def snapshot? (c : Commons) (i j : ℕ) : Option Store :=
  c.owners[i]?.bind fun o => o.snapshots[j]?.map (·.on c.heap)

end Commons

/-- What happens to stores of which each has a heap of its own. -/
def Owner.apart (vs : List (Owner Store)) : Event → List (Owner Store)
  | .new d =>
    match Store.ofDatum #[] d with
    | .ok s => vs ++ [{ store := s }]
    | .error _ => vs
  | .copy i =>
    match vs[i]? with
    | some v =>
      match v.store.copy with
      | .ok s => vs ++ [{ store := s }]
      | .error _ => vs
    | none => vs
  | .act i a =>
    match vs[i]? with
    | some v => vs.set i (v.act a).1
    | none => vs

end step

/-! ## Stores that stand for others -/

/-- The cells from a bound on are given to a store, or to none. -/
def Heap.given (owned : Ref → Option ℕ) (n : ℕ) (i : Option ℕ) (r : Ref) : Option ℕ :=
  if r < n then owned r else i

namespace Owner

open Heap (given)

theorem Whole.on {o : Owner Store.Parts} {h h' : Heap} (whole : (o.map (·.on h)).Whole)
    (grown : h.Grown h') (tight : h'.Tight) : (o.map (·.on h')).Whole := by
  have hs : ∀ p : Store.Parts, (p.on h).context.Whole → (p.on h').context.Whole := fun p hp =>
    ⟨hp.table, ⟨fun r hr => (hp.sound.root r hr).trans_le grown.size_le,
      grown.keyed hp.sound.keyed⟩, tight⟩
  refine ⟨hs _ whole.store, fun s hm => ?_, fun e he r hr =>
    (whole.effects e he r hr).trans_le grown.size_le⟩
  obtain ⟨p, hp, rfl⟩ := List.mem_map.1 hm
  exact hs p (whole.snapshots _ (List.mem_map_of_mem hp))

/-- A store on a heap stands for one that has a heap of its own: it mirrors that one in cells that
belong to it, with its snapshots in cells that belong to none. -/
structure Stands (h : Heap) (owned : Ref → Option ℕ) (i : ℕ) (v : Owner Store)
    (o : Owner Store.Parts) : Prop where
  whole : v.Whole
  there : (o.map (·.on h)).Whole
  mirrors : ∃ f, v.Mirrors f (fun r => r < h.size ∧ owned r = none) (o.map (·.on h)) ∧
    ∀ r < v.store.context.heap.size, owned (f r) = some i

variable {h h' : Heap} {owned owned' : Ref → Option ℕ} {i : ℕ} {v : Owner Store}
  {o : Owner Store.Parts}

/-- A store stands while the heap grows and neither its cells nor those of its snapshots change. -/
theorem Stands.elsewhere (st : Stands h owned i v o) (grown : h.Grown h') (tight : h'.Tight)
    (same : ∀ r < h.size, owned r = none ∨ owned r = some i → h'.cell r = h.cell r)
    (kept : ∀ r < h.size, owned' r = owned r) : Stands h' owned' i v o := by
  obtain ⟨f, H, image⟩ := st.mirrors
  have Hc := H.store.context
  have inside : ∀ r < v.store.context.heap.size, f r < h.size := fun r => Hc.heap.inside r trivial
  have old : ∀ r < v.store.context.heap.size,
      Heap.rebased f v.store.context.heap.size h'.size r = f r := fun r => Heap.rebased_lt
  refine ⟨st.whole, st.there.on grown tight,
    Heap.rebased f v.store.context.heap.size h'.size, ⟨⟨⟨?_, ?_, fun _ _ => trivial⟩, H.store.flags,
      H.store.quests⟩, ?_, ?_⟩, fun r hr => ?_⟩
  · refine Hc.heap.rebase (G := fun r => r < h.size ∧ owned r = some i)
      (fun r _ hr => ⟨inside r hr, image r hr⟩) (fun r _ => st.there.store.tight r)
      (fun r hr => same r hr.1 (.inr hr.2)) grown.size_le
  · refine Hc.root.trans (Value.rename_congr fun r hr => (old r ?_).symm)
    exact st.whole.store.sound.root r hr
  · have hs := List.forall₂_map_right_iff.1 H.snapshots
    refine List.forall₂_map_right_iff.2 (hs.imp fun s p R => R.same ?_ fun r hr => ?_)
    · exact fun r hr => same r hr.1 (.inl hr.2)
    · exact ⟨hr.1.trans_le grown.size_le, (kept r hr.1).trans hr.2⟩
  · refine H.effects.trans (List.map_congr_left fun e he => ?_)
    have hf := st.whole.effects e he
    rcases e with _ | _ | ⟨path, op, _ | _ | x⟩
    case write.value =>
      exact congrArg (fun x => Effect.write path op (.value x))
        (Value.rename_congr fun r hr => (old r (hf r hr)).symm)
    all_goals rfl
  · rw [old r hr, kept _ (inside r hr)]
    exact image r hr

/-- A new store stands for the one on a heap of its own. -/
theorem Stands.new {v s : Store} (N : Store.New h v s) :
    Stands s.context.heap (given owned h.size (some i)) i { store := v } { store := s.parts } where
  whole := ⟨N.whole, List.forall_mem_nil _, List.forall_mem_nil _⟩
  there := ⟨N.there, List.forall_mem_nil _, List.forall_mem_nil _⟩
  mirrors := ⟨_, ⟨N.mirrors, .nil, rfl⟩, fun r _ => if_neg (Nat.not_lt.2 (Nat.le_add_right _ r))⟩

/-- A snapshot is taken by putting a copy beside the store. -/
theorem Stands.snapshot (st : Stands h owned i v o) :
    Stands (o.store.on h).beside.context.heap (given owned h.size none) i
      { v with snapshots := v.snapshots ++ [v.store] }
      { o with snapshots := o.snapshots ++ [(o.store.on h).beside.parts] } := by
  have hw := Heap.graft_within st.there.store.fenced.heap st.there.store.sound.keyed
    [(.null, o.store.root)]
  have hb := Store.beside_whole st.there.store
  have st' : Stands _ (given owned h.size none) i v o := st.elsewhere hw.grown hb.tight
    (fun r hr _ => Heap.cell_append_left hr _) fun r hr => if_pos hr
  obtain ⟨f, H, image⟩ := st'.mirrors
  obtain ⟨f₀, H₀, -⟩ := st.mirrors
  obtain ⟨g, T, R, hT⟩ := (o.store.on h).beside_repeated
  refine ⟨⟨st'.whole.store, ?_, st'.whole.effects⟩, ⟨st'.there.store, ?_, st'.there.effects⟩, f,
    ⟨H.store, ?_, H.effects⟩, image⟩
  · exact List.forall_mem_append.2
      ⟨st'.whole.snapshots, List.forall_mem_singleton.2 st'.whole.store⟩
  · simp only [map, List.map_append, List.map_cons, List.map_nil]
    exact List.forall_mem_append.2 ⟨st'.there.snapshots, List.forall_mem_singleton.2 hb⟩
  · simp only [map, List.map_append, List.map_cons, List.map_nil]
    refine List.rel_append H.snapshots (.cons ⟨_, _, H₀.store.repeats.comp R, fun r hr => ?_⟩ .nil)
    obtain ⟨hle, hlt⟩ := hT _ hr.2
    exact ⟨hlt, if_neg (Nat.not_lt.2 hle)⟩

/-- What is done with a store is done with the one that it stands for, and no cell changes that
belongs to another one or to none. -/
theorem Stands.act [Text.Halves] (st : Stands h owned i v o) {a : Act} (keyed : a.Keyed)
    (ha : a ≠ .snapshot) :
    let o' := ((o.map (·.on h)).act a).1
    let h' := o'.store.context.heap
    Stands h' (given owned h.size (some i)) i (v.act a).1 (o'.map Store.parts) ∧ h.Grown h' ∧
      h'.Tight ∧ ∀ r < h.size, owned r ≠ some i → h'.cell r = h.cell r := by
  intro o' h'
  obtain ⟨f, H, image⟩ := st.mirrors
  have Hc := H.store.context
  have hw := act_within st.there (H.fenced st.whole) keyed
  have there' : o'.Whole := st.there.act keyed
  have H' := (H.act fun h => absurd h ha).1
  have hs : o'.snapshots = o.snapshots.map (·.on h) := snapshots_act _ ha
  have he : o'.map Store.parts = { store := o'.store.parts, snapshots := o.snapshots,
                                   effects := o'.effects } := by
    have hp : o'.snapshots.map Store.parts = o.snapshots := by
      rw [hs, List.map_map]
      exact List.map_id _
    rw [map, hp]
  have same : ∀ r < h.size, owned r ≠ some i → h'.cell r = h.cell r := fun r hr hn =>
    hw.heap.same r hr fun hG => hG.elim (fun ⟨q, hq, e⟩ => hn (e ▸ image q hq)) (Nat.not_le.2 hr)
  have on' := st.there.on hw.heap.grown there'.store.tight
  refine ⟨?_, hw.heap.grown, there'.store.tight, same⟩
  rw [he]
  refine ⟨st.whole.act keyed, ⟨there'.store, on'.snapshots, there'.effects⟩, f,
    ⟨H'.store, ?_, H'.effects⟩, fun r hr => ?_⟩
  · have hsnap := H'.snapshots
    change List.Forall₂ _ _ o'.snapshots at hsnap
    rw [hs] at hsnap
    refine List.forall₂_map_right_iff.2 ((List.forall₂_map_right_iff.1 hsnap).imp fun s p R =>
      R.same (fun r hr => same r hr.1 (by rw [hr.2]; exact nofun)) fun r hr => ?_)
    exact ⟨hr.1.trans_le hw.heap.grown.size_le, (if_pos hr.1).trans hr.2⟩
  · rcases Nat.lt_or_ge r v.store.context.heap.size with hl | hl
    · exact (if_pos (Hc.heap.inside r trivial hl)).trans (image r hl)
    · obtain ⟨k, rfl⟩ := Nat.exists_eq_add_of_le hl
      have hf : f (v.store.context.heap.size + k) = h.size + k := (Hc.heap.fresh k).2
      rw [hf]
      exact if_neg (Nat.not_lt.2 (Nat.le_add_right _ _))

/-- So it is with everything that is done with a store on the heap. -/
theorem Stands.actOn [Text.Halves] (st : Stands h owned i v o) {a : Act} (keyed : a.Keyed) :
    ∃ owned', Stands (o.actOn h a).1 owned' i (v.act a).1 (o.actOn h a).2.1 ∧
      h.Grown (o.actOn h a).1 ∧ (o.actOn h a).1.Tight ∧
      (∀ r < h.size, owned r ≠ some i → (o.actOn h a).1.cell r = h.cell r) ∧
      (∀ r < h.size, owned' r = owned r) ∧ (o.actOn h a).2.2 = (v.act a).2 ∧
      (o.actOn h a).2.1.store.root = o.store.root := by
  by_cases ha : a = .snapshot
  · subst ha
    obtain ⟨f, H, -⟩ := st.mirrors
    have hc := H.store.context.isCopyable_eq
    rcases hi : (o.store.on h).context.isCopyable with _ | _
    · simp only [Owner.actOn, Owner.act, Store.snapshot_error hi,
        Store.snapshot_error (hc.symm.trans hi)]
      exact ⟨owned, st, .refl h, st.there.store.tight, fun _ _ _ => trivial,
        fun _ _ => rfl, trivial, trivial⟩
    · have hw := Heap.graft_within st.there.store.fenced.heap st.there.store.sound.keyed
        [(.null, o.store.root)]
      simp only [Owner.actOn, Owner.act, Store.snapshot_ok hi, Store.snapshot_ok (hc.symm.trans hi)]
      exact ⟨_, st.snapshot, hw.grown, (Store.beside_whole st.there.store).tight,
        fun r hr _ => Heap.cell_append_left hr _, fun r hr => if_pos hr, trivial, trivial⟩
  · obtain ⟨f, H, -⟩ := st.mirrors
    obtain ⟨st', grown, tight, same⟩ := st.act keyed ha
    rw [actOn_of_ne ha]
    exact ⟨_, st', grown, tight, same, fun r hr => if_pos hr, (H.act fun h => absurd h ha).2,
      (act_within st.there st.there.fenced keyed).root⟩

end Owner

/-! ## Stores as if each were alone -/

theorem getElem?_concat {α : Type} {l : List α} {a b : α} {i : ℕ} (h : (l ++ [a])[i]? = some b) :
    l[i]? = some b ∨ i = l.length ∧ b = a := by
  rcases Nat.lt_or_ge i l.length with hi | hi
  · rw [List.getElem?_append_left hi] at h
    exact .inl h
  · rw [List.getElem?_append_right hi, List.getElem?_singleton] at h
    split_ifs at h with h0
    exact .inr ⟨Nat.le_antisymm (Nat.sub_eq_zero_iff_le.1 h0) hi, (Option.some.inj h).symm⟩

namespace Commons

open Heap (given)

/-- Stores on a heap stand for stores of which each has a heap of its own. -/
structure Stands (c : Commons) (vs : List (Owner Store)) (owned : Ref → Option ℕ) : Prop where
  keyed : c.heap.Keyed
  tight : c.heap.Tight
  length : vs.length = c.owners.length
  owners : ∀ i v o, vs[i]? = some v → c.owners[i]? = some o → Owner.Stands c.heap owned i v o

variable {c : Commons} {vs : List (Owner Store)} {owned : Ref → Option ℕ} {h : Heap}

theorem stands_empty : ({} : Commons).Stands [] fun _ => none where
  keyed _ := Table.keyed_nil
  tight _ _ hq := absurd hq List.not_mem_nil
  length := rfl
  owners _ _ _ hv := absurd hv nofun

theorem Stands.get? (S : c.Stands vs owned) (i : ℕ) : (vs[i]? = none ∧ c.owners[i]? = none) ∨
    ∃ v o, vs[i]? = some v ∧ c.owners[i]? = some o ∧ Owner.Stands c.heap owned i v o := by
  rcases Nat.lt_or_ge i c.owners.length with hi | hi
  · have hi' : i < vs.length := S.length.symm ▸ hi
    exact .inr ⟨_, _, List.getElem?_eq_getElem hi', List.getElem?_eq_getElem hi,
      S.owners i _ _ (List.getElem?_eq_getElem hi') (List.getElem?_eq_getElem hi)⟩
  · have hi' : vs.length ≤ i := S.length.symm ▸ hi
    exact .inl ⟨List.getElem?_eq_none hi', List.getElem?_eq_none hi⟩

theorem Stands.exists_owner (S : c.Stands vs owned) {i : ℕ} {v : Owner Store}
    (hv : vs[i]? = some v) : ∃ o, c.owners[i]? = some o ∧ Owner.Stands c.heap owned i v o := by
  rcases S.get? i with ⟨hn, -⟩ | ⟨w, o, hw, ho, st⟩
  · rw [hn] at hv
    cases hv
  · obtain rfl := Option.some.inj (hw.symm.trans hv)
    exact ⟨o, ho, st⟩

theorem Stands.exists_apart (S : c.Stands vs owned) {i : ℕ} {o : Owner Store.Parts}
    (here : c.owners[i]? = some o) : ∃ v, vs[i]? = some v ∧ Owner.Stands c.heap owned i v o := by
  rcases S.get? i with ⟨-, hn⟩ | ⟨v, p, hv, hp, st⟩
  · rw [hn] at here
    cases here
  · obtain rfl := Option.some.inj (hp.symm.trans here)
    exact ⟨v, hv, st⟩

theorem Stands.grow (S : c.Stands vs owned) (keyed : h.Keyed) (tight : h.Tight)
    (size_le : c.heap.size ≤ h.size) (same : ∀ r < c.heap.size, h.cell r = c.heap.cell r)
    (i : Option ℕ) : ({ c with heap := h } : Commons).Stands vs (given owned c.heap.size i) where
  keyed := keyed
  tight := tight
  length := S.length
  owners j v o hv ho := (S.owners j v o hv ho).elsewhere ⟨size_le, fun _ => keyed⟩ tight
    (fun r hr _ => same r hr) fun _ hr => if_pos hr

/-- A new store stands next to those that there are. -/
theorem Stands.join (S : ({ c with heap := h } : Commons).Stands vs owned) {v s : Store}
    (N : Store.New h v s) : (c.join s).Stands (vs ++ [{ store := v }])
      (given owned h.size (some c.owners.length)) := by
  have S' := S.grow N.there.sound.keyed N.there.tight N.size_le N.same (some c.owners.length)
  refine ⟨S'.keyed, S'.tight, ?_, fun j w o hw ho => ?_⟩
  · rw [Commons.join, List.length_append, List.length_append, S.length]
    rfl
  · rcases getElem?_concat ho with ho | ⟨rfl, rfl⟩
    · rcases getElem?_concat hw with hw | ⟨hj, -⟩
      · exact S'.owners j w o hw ho
      · rw [hj, S.length, List.getElem?_eq_none le_rfl] at ho
        cases ho
    · rcases getElem?_concat hw with hw | ⟨-, rfl⟩
      · rw [List.getElem?_eq_none (S.length.le)] at hw
        cases hw
      · exact .new N

/-- Stores stand when one of them has changed within its own cells. -/
theorem Stands.set (S : c.Stands vs owned) {owned' : Ref → Option ℕ} {i : ℕ} {v : Owner Store}
    {o : Owner Store.Parts} (st : Owner.Stands h owned' i v o) (grown : c.heap.Grown h)
    (tight : h.Tight) (same : ∀ r < c.heap.size, owned r ≠ some i → h.cell r = c.heap.cell r)
    (kept : ∀ r < c.heap.size, owned' r = owned r) :
    ({ heap := h, owners := c.owners.set i o } : Commons).Stands (vs.set i v) owned' where
  keyed := grown.keyed S.keyed
  tight := tight
  length := by rw [List.length_set, List.length_set, S.length]
  owners j w p hw hp := by
    rw [List.getElem?_set] at hw hp
    split_ifs at hw hp with hij
    · cases hw
      cases hp
      exact hij ▸ st
    · refine (S.owners j w p hw hp).elsewhere grown tight (fun r hr hr' => same r hr ?_) kept
      rintro he
      rcases hr' with hn | hj
      · rw [he] at hn
        cases hn
      · exact hij (Option.some.inj (he.symm.trans hj))

section step
variable [Text.Halves]

/-- What happens to stores on one heap happens to stores each on a heap of its own, and the stores
still stand for them. -/
theorem Stands.step (S : c.Stands vs owned) {e : Event} (keyed : e.Keyed) :
    ∃ owned', (c.step e).1.Stands (Owner.apart vs e) owned' := by
  cases e with
  | new d =>
    simp only [Commons.step, Owner.apart]
    rcases Store.ofDatum_new S.keyed S.tight keyed with ⟨f, hv, hs⟩ | ⟨v, s, hv, hs, N⟩
    · rw [hv, hs]
      exact ⟨_, S⟩
    · rw [hv, hs]
      exact ⟨_, S.join N⟩
  | copy i =>
    simp only [Commons.step, Owner.apart]
    rcases S.get? i with ⟨hv, ho⟩ | ⟨v, o, hv, ho, st⟩
    · rw [hv, ho]
      exact ⟨_, S⟩
    · obtain ⟨f, H, -⟩ := st.mirrors
      rw [hv, ho]
      rcases Store.copy_new H.store st.whole.store st.there.store with
        ⟨-, hc, hb⟩ | ⟨-, t, t', hc, hb, N⟩
      · simp only [hc, show (o.store.on c.heap).copyBeside = _ from hb]
        exact ⟨_, S⟩
      · have hw := Store.beside_whole st.there.store
        have S' := S.grow hw.sound.keyed hw.tight (Heap.size_le_graft _ _ _)
          (fun r hr => Heap.cell_append_left hr _) none
        simp only [hc, show (o.store.on c.heap).copyBeside = _ from hb]
        exact ⟨_, S'.join N⟩
  | act i a =>
    simp only [Commons.step, Owner.apart]
    rcases S.get? i with ⟨hv, ho⟩ | ⟨v, o, hv, ho, st⟩
    · rw [hv, ho]
      exact ⟨_, S⟩
    · rw [hv, ho]
      obtain ⟨owned', st', grown, tight, same, kept, -⟩ := st.actOn keyed
      exact ⟨owned', S.set st' grown tight same kept⟩

theorem Stands.run (S : c.Stands vs owned) {es : List Event} (keyed : ∀ e ∈ es, e.Keyed) :
    ∃ owned', (c.run es).Stands (es.foldl Owner.apart vs) owned' := by
  induction es generalizing c vs owned with
  | nil => exact ⟨owned, S⟩
  | cons e es ih =>
    rw [List.forall_mem_cons] at keyed
    obtain ⟨owned', S'⟩ := S.step keyed.1
    exact ih S' keyed.2

omit [Text.Halves] in
theorem getElem?_of_prefix {α : Type} {l l' : List α} (h : l <+: l') {i : ℕ} {a : α}
    (ha : l[i]? = some a) : l'[i]? = some a := by
  obtain ⟨t, rfl⟩ := h
  rw [List.getElem?_append_left (List.getElem?_eq_some_iff.1 ha).1, ha]

theorem apart_get? {i : ℕ} {v : Owner Store} (hv : vs[i]? = some v) (e : Event) :
    (Owner.apart vs e)[i]? = some (v.acts (e.actOf i).toList) := by
  have happend : ∀ w, (vs ++ [w])[i]? = some v := fun w =>
    getElem?_of_prefix (List.prefix_append _ _) hv
  cases e with
  | new d =>
    simp only [Owner.apart]
    split
    · exact happend _
    · exact hv
  | copy j =>
    simp only [Owner.apart]
    split
    · split
      · exact happend _
      · exact hv
    · exact hv
  | act j a =>
    simp only [Owner.apart, Event.actOf]
    by_cases hj : j = i
    · subst hj
      rw [hv, if_pos rfl]
      simp only [List.getElem?_set, if_pos (List.getElem?_eq_some_iff.1 hv).1, if_true]
      rfl
    · rw [if_neg hj]
      split
      · rw [List.getElem?_set_ne hj]
        exact hv
      · exact hv

/-- What happens to others does nothing to a store on a heap of its own. -/
theorem run_apart_get? {i : ℕ} {v : Owner Store} : ∀ (es : List Event) {vs : List (Owner Store)},
    vs[i]? = some v →
    (es.foldl Owner.apart vs)[i]? = some (v.acts (es.filterMap (Event.actOf i))) := by
  intro es
  induction es generalizing v with
  | nil => exact fun h => h
  | cons e es ih =>
    intro vs hv
    rw [List.foldl_cons, ih (apart_get? hv e), List.filterMap_cons]
    rcases e.actOf i with _ | a
    · rfl
    · rfl

/-- With its heap to itself, a store keeps a snapshot that it has taken. -/
theorem run_apart_keeps {i : ℕ} {v : Owner Store} (later : List Event) (hv : vs[i]? = some v)
    (copyable : v.store.context.isCopyable = true) :
    ∃ w, (later.foldl Owner.apart (Owner.apart vs (.act i .snapshot)))[i]? = some w ∧
      w.snapshots[v.snapshots.length]? = some v.store := by
  have htaken : (v.act .snapshot).1 = { v with snapshots := v.snapshots ++ [v.store] } := by
    simp only [Owner.act, Store.snapshot_ok copyable]
  refine ⟨_, run_apart_get? later (apart_get? hv _), ?_⟩
  refine getElem?_of_prefix (Owner.snapshots_acts _ _) ?_
  simp only [Event.actOf, if_true, Option.toList_some, Owner.acts, List.foldl_cons,
    List.foldl_nil, htaken]
  rw [List.getElem?_append_right le_rfl, Nat.sub_self]
  rfl

/-! ## What stores and snapshots show -/

omit [Text.Halves] in
theorem Stands.store? (S : c.Stands vs owned) {i : ℕ} {v : Owner Store} (hv : vs[i]? = some v) :
    ∃ s, c.store? i = some s ∧ s.toDatum = v.store.toDatum := by
  obtain ⟨o, ho, st⟩ := S.exists_owner hv
  obtain ⟨f, H, -⟩ := st.mirrors
  refine ⟨o.store.on c.heap, ?_, H.store.toDatum_eq⟩
  rw [Commons.store?, ho]
  rfl

omit [Text.Halves] in
theorem Stands.snapshot? (S : c.Stands vs owned) {i j : ℕ} {v : Owner Store} {old : Store}
    (hv : vs[i]? = some v) (hold : v.snapshots[j]? = some old) :
    (c.snapshot? i j).map (·.toDatum) = some old.toDatum := by
  obtain ⟨o, ho, st⟩ := S.exists_owner hv
  obtain ⟨f, H, -⟩ := st.mirrors
  rcases forall₂_getElem? H.snapshots j with ⟨hn, -⟩ | ⟨old', s, hold', hs, g, T, R, -⟩
  · rw [hn] at hold
    cases hold
  · obtain rfl := Option.some.inj (hold'.symm.trans hold)
    have hj : c.snapshot? i j = some s := by
      rw [Commons.snapshot?, ho]
      simpa [Owner.map] using hs
    rw [hj, Option.map_some, R.toDatum_eq]

/-- A store stays the same object, whatever happens. -/
theorem Stands.step_root (S : c.Stands vs owned) {e : Event} (keyed : e.Keyed) {i : ℕ}
    {o : Owner Store.Parts} (ho : c.owners[i]? = some o) :
    ∃ o', (c.step e).1.owners[i]? = some o' ∧ o'.store.root = o.store.root := by
  have hjoin : ∀ s, (c.join s).owners[i]? = some o := fun s =>
    getElem?_of_prefix (List.prefix_append _ _) ho
  cases e with
  | new d =>
    refine ⟨o, ?_, rfl⟩
    simp only [Commons.step]
    split
    · exact hjoin _
    · exact ho
  | copy j =>
    refine ⟨o, ?_, rfl⟩
    simp only [Commons.step]
    split
    · split
      · exact hjoin _
      · exact ho
    · exact ho
  | act j a =>
    simp only [Commons.step]
    rcases S.get? j with ⟨-, hj⟩ | ⟨v, p, -, hp, st⟩
    · rw [hj]
      exact ⟨o, ho, rfl⟩
    · obtain ⟨-, -, -, -, -, -, -, hroot⟩ := st.actOn keyed
      rw [hp]
      simp only [List.getElem?_set]
      split_ifs with hij hlt
      · obtain rfl := Option.some.inj (hp.symm.trans (hij ▸ ho))
        exact ⟨_, rfl, hroot⟩
      · exact absurd (List.getElem?_eq_some_iff.1 ho).1 (hij ▸ hlt)
      · exact ⟨o, ho, rfl⟩

theorem Stands.run_root (S : c.Stands vs owned) {es : List Event} (keyed : ∀ e ∈ es, e.Keyed)
    {i : ℕ} {o : Owner Store.Parts} (ho : c.owners[i]? = some o) :
    ∃ o', (c.run es).owners[i]? = some o' ∧ o'.store.root = o.store.root := by
  induction es generalizing c vs owned o with
  | nil => exact ⟨o, ho, rfl⟩
  | cons e es ih =>
    rw [List.forall_mem_cons] at keyed
    obtain ⟨owned', S'⟩ := S.step keyed.1
    obtain ⟨o', ho', hr⟩ := S.step_root keyed.1 ho
    obtain ⟨o'', ho'', hr'⟩ := ih S' keyed.2 ho'
    exact ⟨o'', ho'', hr'.trans hr⟩

theorem Stands.reply (S : c.Stands vs owned) {i : ℕ} {a : Act} (keyed : a.Keyed) {v : Owner Store}
    (hv : vs[i]? = some v) : (c.step (.act i a)).2 = (v.act a).2 := by
  obtain ⟨o, ho, st⟩ := S.exists_owner hv
  obtain ⟨-, -, -, -, -, -, hreply, -⟩ := st.actOn keyed
  simp only [Commons.step, ho]
  exact hreply

/-- What a store on the heap shows. -/
def shows (c : Commons) (i : ℕ) : Option Datum := (c.store? i).map (·.toDatum)

/-- What a snapshot on the heap shows. -/
def keeps (c : Commons) (i j : ℕ) : Option Datum := (c.snapshot? i j).map (·.toDatum)

/-- A snapshot that is taken of a store shows what the store showed then, whatever happens. When it
is restored, the store shows that again, on the table that it has always had. -/
theorem Stands.takes (S : c.Stands vs owned) {i : ℕ} {o : Owner Store.Parts}
    (here : c.owners[i]? = some o) (copyable : (o.store.on c.heap).context.isCopyable = true)
    {later : List Event} (keyed : ∀ e ∈ later, e.Keyed) :
    let s := o.store.on c.heap
    let c' := (c.step (.act i .snapshot)).1.run later
    let restored := c'.step (.act i (.restore o.snapshots.length))
    c'.keeps i o.snapshots.length = some s.toDatum ∧ restored.2 = none ∧
      restored.1.shows i = some s.toDatum ∧
      (restored.1.store? i).map (·.context.root) = some s.context.root := by
  intro s c' restored
  obtain ⟨v, hv, st⟩ := S.exists_apart here
  obtain ⟨f, H, -⟩ := st.mirrors
  have hs : s.toDatum = v.store.toDatum := H.store.toDatum_eq
  have hc : v.store.context.isCopyable = true :=
    H.store.context.isCopyable_eq.symm.trans copyable
  have hlen : v.snapshots.length = o.snapshots.length :=
    H.snapshots.length_eq.trans (List.length_map _)
  obtain ⟨owned₁, S₁⟩ := S.step (e := .act i .snapshot) trivial
  obtain ⟨owned₂, S₂⟩ := S₁.run keyed
  obtain ⟨owned₃, S₃⟩ := S₂.step (e := .act i (.restore o.snapshots.length)) trivial
  obtain ⟨w, hw, hold⟩ := run_apart_keeps later hv hc
  rw [hlen] at hold
  obtain ⟨_, -, st'⟩ := S₂.exists_owner hw
  obtain ⟨hnone, hshown⟩ := Store.toDatum_restore_whole st'.whole.store st.whole.store
  have hrestored : w.act (.restore o.snapshots.length) =
      ({ w with store := (w.store.restore v.store).1 }, (w.store.restore v.store).2) := by
    simp only [Owner.act, hold]
  have hw' := apart_get? hw (.act i (.restore o.snapshots.length))
  simp only [Event.actOf, if_true, Option.toList_some, Owner.acts, List.foldl_cons,
    List.foldl_nil, hrestored] at hw'
  refine ⟨hs ▸ S₂.snapshot? hw hold, ?_, ?_, ?_⟩
  · rw [S₂.reply (a := .restore o.snapshots.length) trivial hw, hrestored]
    exact hnone
  · obtain ⟨s', hs', hd⟩ := S₃.store? hw'
    rw [shows, hs', Option.map_some, hd, hs]
    exact congrArg some hshown
  · obtain ⟨o₁, ho₁, hr₁⟩ := S.step_root (e := .act i .snapshot) trivial here
    obtain ⟨o₂, ho₂, hr₂⟩ := S₁.run_root keyed ho₁
    obtain ⟨o₃, ho₃, hr₃⟩ := S₂.step_root (e := .act i (.restore o.snapshots.length)) trivial ho₂
    rw [Commons.store?, ho₃]
    exact congrArg some (hr₃.trans (hr₂.trans hr₁))

/-- A store goes on as it would with its heap to itself, whatever happens to others. -/
theorem Stands.alone (S : c.Stands vs owned) {i : ℕ} {o : Owner Store.Parts}
    (here : c.owners[i]? = some o) {later : List Event} (keyed : ∀ e ∈ later, e.Keyed) :
    (c.run later).shows i =
      some ((o.map (·.on c.heap)).acts (later.filterMap (Event.actOf i))).store.toDatum := by
  obtain ⟨v, hv, st⟩ := S.exists_apart here
  obtain ⟨f, H, -⟩ := st.mirrors
  obtain ⟨owned', S'⟩ := S.run keyed
  obtain ⟨s, hs, hd⟩ := S'.store? (run_apart_get? later hv)
  rw [shows, hs, Option.map_some, hd]
  exact congrArg some (H.everywhere.acts (later.filterMap (Event.actOf i))).store.toDatum_eq.symm

/-- A store that is copied and its copy show the same, and from then on the copy goes on as if there
were nothing else. -/
theorem Stands.copied (S : c.Stands vs owned) {i : ℕ} {o : Owner Store.Parts}
    (here : c.owners[i]? = some o) (copyable : (o.store.on c.heap).context.isCopyable = true) :
    let s := o.store.on c.heap
    ∃ u, s.copy = .ok u ∧ u.toDatum = s.toDatum ∧
      (c.step (.copy i)).1.shows c.owners.length = some s.toDatum ∧
      ∀ later, (∀ e ∈ later, e.Keyed) →
        ((c.step (.copy i)).1.run later).shows c.owners.length = some (Owner.acts { store := u }
          (later.filterMap (Event.actOf c.owners.length))).store.toDatum := by
  intro s
  obtain ⟨v, hv, st⟩ := S.exists_apart here
  obtain ⟨f, H, -⟩ := st.mirrors
  have hc : v.store.context.isCopyable = true :=
    H.store.context.isCopyable_eq.symm.trans copyable
  have N := Store.empty_new (h := #[]) (fun _ => Table.keyed_nil) fun _ _ hq =>
    absurd hq List.not_mem_nil
  obtain ⟨Hu, -⟩ := N.mirrors.restore H.store.repeats
  have hu := (Store.toDatum_restore_whole N.whole st.there.store).2
  have ht := (Store.toDatum_restore_whole N.whole st.whole.store).2
  obtain ⟨owned', S'⟩ := S.step (e := .copy i) trivial
  have hnew : (Owner.apart vs (.copy i))[c.owners.length]? =
      some { store := ((Store.empty #[]).restore v.store).1 } := by
    simp only [Owner.apart, hv, Store.copy_ok st.whole.store hc]
    rw [← S.length, List.getElem?_append_right le_rfl, Nat.sub_self]
    rfl
  refine ⟨_, Store.copy_ok st.there.store copyable, hu, ?_, fun later keyed => ?_⟩
  · obtain ⟨t, hs, hd⟩ := S'.store? hnew
    rw [shows, hs, Option.map_some, hd]
    exact congrArg some (ht.trans H.store.toDatum_eq.symm)
  · obtain ⟨owned'', S''⟩ := S'.run keyed
    obtain ⟨t, hs, hd⟩ := S''.store? (run_apart_get? later hnew)
    have Ho : Owner.Mirrors _ (fun _ => True) { store := ((Store.empty #[]).restore v.store).1 }
        { store := ((Store.empty #[]).restore s).1 } := ⟨Hu, .nil, rfl⟩
    rw [shows, hs, Option.map_some, hd]
    exact congrArg some (Ho.acts _).store.toDatum_eq.symm

theorem Stands.step_fault (S : c.Stands vs owned) {i : ℕ} {o : Owner Store.Parts}
    (here : c.owners[i]? = some o) :
    let fault := if (o.store.on c.heap).context.isCopyable then none else some Fault.tooDeep
    (c.step (.act i .snapshot)).2 = fault ∧ (c.step (.copy i)).2 = fault := by
  obtain ⟨v, hv, st⟩ := S.exists_apart here
  simp only [Commons.step, here, Owner.actOn]
  rcases hi : (o.store.on c.heap).context.isCopyable with _ | _
  · rw [Store.copyBeside, Store.snapshot_error hi]
    exact ⟨rfl, rfl⟩
  · rw [Store.copyBeside_ok (s := o.store.on c.heap) st.there.store hi, Store.snapshot_ok hi]
    exact ⟨rfl, rfl⟩

end step

end Commons

namespace Commons

attribute [local instance] Text.noHalves

/-- A store with a bag that is in itself, and that is in two places. -/
def bagged : List Event :=
  [.new (.object [("context", .object [("bag", .object [("coins", .int 3)])])]),
    .act 0 (.share "bag.own" "bag"), .act 0 (.share "spare" "bag")]

/-- The bag is written to, and a quest is started. -/
def spent : List Event :=
  [.act 0 (.set "spare.own.coins" (.int 0)), .act 0 (.set "hat" (.object [])),
    .act 0 (.moveQuest (.text "way") .active (.int 7))]

end Commons

end Colloquy
