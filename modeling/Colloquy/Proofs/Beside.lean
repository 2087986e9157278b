import Colloquy.Proofs.Owner

/-!
# Copies on the same heap

A snapshot of a store is a copy of its context on the heap that the store is on (`Store.beside`),
and a store is copied by restoring such a snapshot to a new one (`Store.copyBeside`). A copy repeats
the store in cells that were not there before (`Store.beside_repeated`). What is made on top of a
heap, from data or as a copy, mirrors what is made the same way on a heap of its own
(`Store.ofDatum_new`, `Store.copy_new`).
-/

namespace Colloquy

/-- A copy of a context on its own heap, with all that is shared in it and its cycles. -/
def Context.beside (c : Context) : Context :=
  let t : Table Value := [(.null, c.root)]
  { heap := (c.heap.graft c.heap t).1, root := c.root.rename (c.heap.grafted c.heap t) }

namespace Store

/-- The store with a copy of its context on the same heap. -/
def beside (s : Store) : Store := { s with context := s.context.beside }

/-- A copy of a store on the same heap: a new store that a snapshot is restored to. -/
def copyBeside (s : Store) : Except Fault Store :=
  match s.snapshot with
  | .ok old =>
    match (empty old.beside.context.heap).restore old.beside with
    | (s, none) => .ok s
    | (_, some f) => .error f
  | .error f => .error f

/-- A store without the heap that its context is on. -/
structure Parts where
  flags : Table Datum
  root : Value
  quests : Table Quest

def parts (s : Store) : Parts := ⟨s.flags, s.context.root, s.quests⟩

def Parts.on (h : Heap) (p : Parts) : Store := ⟨p.flags, ⟨h, p.root⟩, p.quests⟩

end Store

/-! ## Repeated stores -/

namespace Heap

theorem Repeats.comp {h k m : Heap} {f g : Ref → Ref} {S T : Ref → Prop} (R : Repeats h k f S)
    (R' : Repeats k m g T) : Repeats h m (fun r => g (f r)) fun r => S r ∧ T (f r) where
  cell r hr := by
    rw [R'.cell (f r) hr.2, R.cell r hr.1, List.map_map]
    refine List.map_congr_left fun ⟨k, v⟩ _ => ?_
    cases v <;> rfl
  closed r hr q hq := by
    refine ⟨R.closed r hr.1 q hq, R'.closed (f r) hr.2 (f q) ?_⟩
    have hc : k.cell (f r) = (h.cell r).renamed f := R.cell r hr.1
    rw [hc, refsOf_renamed]
    exact List.mem_map_of_mem hq
  inj r q hr hq he := R.inj r q hr.1 hq.1 (R'.inj (f r) (f q) hr.2 hq.2 he)

/-- What a heap repeats is repeated still where the cells are the same. -/
theorem Repeats.same {h k k' : Heap} {f : Ref → Ref} {S P : Ref → Prop} (R : Repeats h k f S)
    (hP : ∀ r, S r → P (f r)) (same : Same P k k') : Repeats h k' f S where
  cell r hr := (same (f r) (hP r hr)).trans (R.cell r hr)
  closed := R.closed
  inj := R.inj

/-- The names of a graft lead to cells that are there. -/
theorem grafted_lt {h src : Heap} {t : Table Value} {r : Ref} (hr : r ∈ src.reach (refsOf t)) :
    h.grafted src t r < (h.graft src t).1.size := by
  have hl : (h.graft src t).1.size = h.size + (src.reach (refsOf t)).length := by simp [graft_fst]
  rw [hl]
  exact Nat.add_lt_add_left (List.idxOf_lt_length_of_mem hr) _

theorem graft_within {G : Ref → Prop} {h src : Heap} (hG : Fenced G h) (hk : src.Keyed)
    (t : Table Value) : h.Within G (h.graft src t).1 where
  grown := graft_grown h hk t
  fenced := hG.graft src t
  same r hr _ := by rw [graft_fst, cell_append_left hr]

end Heap

theorem Value.rename_rename (f g : Ref → Ref) (v : Value) :
    (v.rename f).rename g = v.rename fun r => g (f r) := by
  cases v <;> rfl

namespace Store

theorem Repeats.comp {s t u : Store} {f g : Ref → Ref} {S T : Ref → Prop} (R : s.Repeats f S t)
    (R' : t.Repeats g T u) : s.Repeats (fun r => g (f r)) (fun r => S r ∧ T (f r)) u where
  context := {
    heap := R.context.heap.comp R'.context.heap
    root := by rw [R'.context.root, R.context.root, Value.rename_rename]
    rooted := fun r hr => ⟨R.context.rooted r hr, R'.context.rooted (f r) (by
      rw [R.context.root, Value.ref?_rename, hr]
      rfl)⟩ }
  flags := R'.flags.trans R.flags
  quests := R'.quests.trans R.quests

/-- A copy on the same heap repeats the store in cells that were not there before. -/
theorem beside_repeated (s : Store) : s.Repeated (fun r => s.context.heap.size ≤ r ∧
    r < s.beside.context.heap.size) s.beside := by
  refine ⟨_, _, ⟨⟨Heap.repeats_graft s.context.heap s.context.heap [(.null, s.context.root)], rfl,
    fun r hr => ?_⟩, rfl, rfl⟩, fun r hr => ⟨Nat.le_add_right _ _, Heap.grafted_lt hr⟩⟩
  exact (Heap.reach_closed _ _).1 r (Heap.mem_refsOf.2 ⟨_, List.mem_singleton_self _, hr⟩)

theorem Repeated.same {P P' : Ref → Prop} {s : Store} {p : Parts} {h h' : Heap}
    (R : s.Repeated P (p.on h)) (same : Heap.Same P h h') (hP : ∀ r, P r → P' r) :
    s.Repeated P' (p.on h') := by
  obtain ⟨g, T, R, hT⟩ := R
  exact ⟨g, T, ⟨⟨R.context.heap.same hT same, R.context.root, R.context.rooted⟩, R.flags, R.quests⟩,
    fun r hr => hP _ (hT r hr)⟩

end Store

/-! ## New stores -/

theorem Heap.mirrors_empty (h : Heap) : Mirrors (h.size + ·) (fun _ => True) #[] h where
  repeats := {
    cell := fun r _ => by
      rw [cell_of_size_le (Nat.le_add_right _ _), cell_of_size_le (Nat.zero_le _)]
      rfl
    closed := fun _ _ _ _ => trivial
    inj := fun _ _ _ _ => Nat.add_left_cancel }
  fresh k := ⟨trivial, congrArg (h.size + ·) (Nat.zero_add k)⟩
  inside _ _ hr := absurd hr (Nat.not_lt_zero _)

theorem Context.empty_whole {h : Heap} (keyed : h.Keyed) (tight : h.Tight) : (empty h).Whole where
  table := ⟨h.size, rfl⟩
  sound := sound_empty keyed
  tight r q hq := by
    have hc : Heap.cell (empty h).heap r = h.cell r := Heap.cell_alloc h r
    rw [hc] at hq
    exact (tight r q hq).trans_le ((Nat.le_succ _).trans (Array.size_push _).ge)

namespace Store

/-- A store is made on top of a heap as another one is on a heap of its own. -/
structure New (h : Heap) (v s : Store) : Prop where
  whole : v.context.Whole
  there : s.context.Whole
  size_le : h.size ≤ s.context.heap.size
  same : ∀ r < h.size, s.context.heap.cell r = h.cell r
  mirrors : v.Mirrors (h.size + ·) (fun _ => True) s

theorem empty_new {h : Heap} (keyed : h.Keyed) (tight : h.Tight) : New h (empty #[]) (empty h) where
  whole := Context.empty_whole (fun _ => Table.keyed_nil) fun _ _ hq => absurd hq List.not_mem_nil
  there := Context.empty_whole keyed tight
  size_le := (Context.empty_fresh h).heap.size_le
  same := (Context.empty_fresh h).heap.old
  mirrors := {
    context := {
      heap := h.mirrors_empty.alloc (t := []) fun _ hq => absurd hq List.not_mem_nil
      root := rfl
      rooted := fun _ _ => trivial }
    flags := rfl
    quests := rfl }

/-- What is loaded into a new store stays on top of the heap. -/
theorem New.within {h : Heap} {v v' s s' : Store} (N : New h v s)
    (hv : v.context.Within (fun _ => True) v'.context)
    (hs : ∀ G, s.context.Fenced G → s.context.Within G s'.context)
    (mirrors : v'.Mirrors (h.size + ·) (fun _ => True) s')
    (fenced : s.context.Fenced (h.size ≤ ·)) : New h v' s' where
  whole := N.whole.within hv
  there := N.there.within (hs _ N.there.fenced)
  size_le := N.size_le.trans (hs _ fenced).heap.grown.size_le
  same r hr := ((hs _ fenced).heap.same r (hr.trans_le N.size_le) (Nat.not_le.2 hr)).trans
    (N.same r hr)
  mirrors := mirrors

theorem empty_fenced (h : Heap) : (empty h).context.Fenced (h.size ≤ ·) :=
  ⟨(Context.empty_fresh h).heap.new, (Context.empty_fresh h).root⟩

/-- Data makes the same store on top of a heap as on a heap of its own. -/
theorem ofDatum_new {h : Heap} (keyed : h.Keyed) (tight : h.Tight) {d : Datum} (hd : d.Keyed) :
    (∃ f, ofDatum #[] d = .error f ∧ ofDatum h d = .error f) ∨
      ∃ v s, ofDatum #[] d = .ok v ∧ ofDatum h d = .ok s ∧ New h v s := by
  have N := empty_new keyed tight
  obtain ⟨H, he⟩ := N.mirrors.restoreData d
  have hw := restoreData_within (s := empty #[]) rfl hd N.whole.fenced
  have hn := N.within hw (fun G hG => restoreData_within rfl hd hG) H (empty_fenced h)
  unfold ofDatum
  rcases hv : (empty #[]).restoreData d with ⟨v, o⟩
  rcases hs : (empty h).restoreData d with ⟨s, o'⟩
  rw [hv, hs] at he hn
  obtain rfl : o' = o := he
  cases o' with
  | none => exact .inr ⟨v, s, rfl, rfl, hn⟩
  | some f => exact .inl ⟨f, rfl, rfl⟩

theorem beside_whole {s : Store} (whole : s.context.Whole) : s.beside.context.Whole := by
  obtain ⟨r, hr⟩ := whole.table
  have hw := Heap.graft_within whole.fenced.heap whole.sound.keyed [(.null, s.context.root)]
  have hin := s.beside_repeated
  refine ⟨⟨s.context.heap.grafted s.context.heap [(.null, s.context.root)] r, ?_⟩, ⟨?_, ?_⟩, ?_⟩
  · change s.context.root.rename _ = _
    rw [hr]
    rfl
  · intro q hq
    obtain ⟨g, T, R, hT⟩ := hin
    rw [R.context.root, Value.ref?_rename] at hq
    obtain ⟨p, hp, rfl⟩ := Option.map_eq_some_iff.1 hq
    exact (hT p (R.context.rooted p hp)).2
  · exact hw.grown.keyed whole.sound.keyed
  · exact fun p q hq => (hw.fenced.closed p trivial q hq).2

theorem snapshot_ok {s : Store} (h : s.context.isCopyable = true) : s.snapshot = .ok s := if_pos h

theorem snapshot_error {s : Store} (h : s.context.isCopyable = false) :
    s.snapshot = .error .tooDeep :=
  if_neg (h ▸ Bool.false_ne_true)

/-- What is restored shows what the snapshot does. -/
theorem toDatum_restore_whole {s old : Store} (whole : s.context.Whole)
    (whole' : old.context.Whole) :
    (s.restore old).2 = none ∧ (s.restore old).1.toDatum = old.toDatum := by
  obtain ⟨r, hr⟩ := whole.table
  obtain ⟨q, hq⟩ := whole'.table
  rw [restore_tables hr hq]
  refine ⟨rfl, ?_⟩
  have hv := Context.view_load hr (whole.sound.root r (by rw [hr]; rfl)) hq (whole'.sound.keyed q)
  simp only [toDatum, hv]

theorem copy_ok {s : Store} (whole : s.context.Whole) (h : s.context.isCopyable = true) :
    s.copy = .ok ((empty #[]).restore s).1 := by
  obtain ⟨q, hq⟩ := whole.table
  have hr : (empty #[]).context.root = .map 0 := rfl
  rw [copy, snapshot_ok h]
  change (match (empty #[]).restore s with
    | (s, none) => Except.ok s
    | (_, some f) => .error f) = _
  rw [restore_tables hr hq]

theorem copyBeside_ok {s : Store} (whole : s.context.Whole) (h : s.context.isCopyable = true) :
    s.copyBeside = .ok ((empty s.beside.context.heap).restore s.beside).1 := by
  obtain ⟨q, hq⟩ := (beside_whole whole).table
  have hr : (empty s.beside.context.heap).context.root = .map s.beside.context.heap.size := rfl
  rw [copyBeside, snapshot_ok h]
  simp only [restore_tables hr hq]

/-- A store that can be copied is copied to a new one on a heap of its own, and beside itself on top
of the heap with the snapshot; one that cannot be copied is not copied anywhere. -/
theorem copy_new {v s : Store} {f : Ref → Ref} (H : v.Mirrors f (fun _ => True) s)
    (hv : v.context.Whole) (hs : s.context.Whole) :
    (s.context.isCopyable = false ∧ v.copy = .error .tooDeep ∧ s.copyBeside = .error .tooDeep) ∨
      s.context.isCopyable = true ∧ ∃ t t', v.copy = .ok t ∧ s.copyBeside = .ok t' ∧
        New s.beside.context.heap t t' := by
  have hb := beside_whole hs
  have hc := H.context.isCopyable_eq
  rcases he : s.context.isCopyable with _ | _
  · left
    refine ⟨rfl, ?_, ?_⟩
    · rw [copy, snapshot_error (hc.symm.trans he)]
      rfl
    · rw [copyBeside, snapshot_error he]
  · right
    obtain ⟨g, T, R, -⟩ := s.beside_repeated
    have N := empty_new hb.sound.keyed hb.tight
    obtain ⟨Hr, -⟩ := N.mirrors.restore (H.repeats.comp R)
    refine ⟨rfl, _, _, copy_ok hv (hc.symm.trans he), copyBeside_ok hs he, ?_⟩
    exact N.within (restore_within N.whole hv N.whole.fenced)
      (fun G hG => restore_within N.there hb hG) Hr (empty_fenced _)

end Store

end Colloquy
