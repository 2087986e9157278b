import Colloquy.Proofs.Growth

/-!
# References in tables

What stands in a table after something was put into it (`Heap.mem_refsOf_put`), and what becomes of
a table when all its values are changed alike (`Table.get?_map`, `Table.put_map`), as by renaming
the references in them (`Table.renamed`): reading and writing it commute with that, and it refers to
the renamed references (`Heap.refsOf_renamed`).
-/

namespace Colloquy

theorem Table.mem_putAll {α : Type} {e : Scalar × α} : ∀ {u t : Table α},
    e ∈ t.putAll u → e ∈ t ∨ ∃ e' ∈ u, e.2 = e'.2
  | [], _, h => .inl h
  | (k, a) :: u, t, h => by
    rcases mem_putAll (t := t.put k a) h with h | ⟨e', he, ha⟩
    · exact (mem_put h).imp_right fun ha => ⟨(k, a), List.mem_cons_self, ha⟩
    · exact .inr ⟨e', List.mem_cons_of_mem _ he, ha⟩

namespace Table

variable {α β : Type} (g : α → β)

theorem get?_map (t : Table α) (key : Scalar) :
    get? (t.map fun (k, a) => (k, g a)) key = (t.get? key).map g := by
  induction t with
  | nil => rfl
  | cons e t ih =>
    simp only [List.map_cons, get?]
    split_ifs
    · rfl
    · exact ih

theorem put_map (t : Table α) (key : Scalar) (a : α) :
    put (t.map fun (k, a) => (k, g a)) key (g a) = (t.put key a).map fun (k, a) => (k, g a) := by
  induction t with
  | nil => rfl
  | cons e t ih =>
    simp only [List.map_cons, put]
    split_ifs
    · rfl
    · rw [ih]
      rfl

end Table

/-! ## Renamed tables -/

/-- A table with the references in it renamed. -/
def Table.renamed (f : Ref → Ref) (t : Table Value) : Table Value :=
  t.map fun (k, v) => (k, v.rename f)

namespace Table

variable (f : Ref → Ref)

theorem length_renamed (t : Table Value) : (t.renamed f).length = t.length := List.length_map _

theorem get?_renamed (t : Table Value) (key : Scalar) :
    (t.renamed f).get? key = (t.get? key).map (·.rename f) := get?_map _ t key

theorem put_renamed (t : Table Value) (key : Scalar) (v : Value) :
    (t.renamed f).put key (v.rename f) = Table.renamed f (t.put key v) := put_map (Value.rename f) t key v

theorem putAll_renamed : ∀ u t : Table Value,
    (t.renamed f).putAll (Table.renamed f u) = Table.renamed f (t.putAll u)
  | [], _ => rfl
  | (k, v) :: u, t => by
    have ih := putAll_renamed u (t.put k v)
    rw [← put_renamed] at ih
    exact ih

theorem ofList_renamed (t : Table Value) :
    Table.ofList (t.renamed f) = Table.renamed f (Table.ofList t) := putAll_renamed f t []

/-- Names that agree on the references of a table give it the same names. -/
theorem renamed_comm {f g f' g' : Ref → Ref} {t : Table Value}
    (h : ∀ q ∈ Heap.refsOf t, g' (f q) = f' (g q)) :
    (t.renamed f).renamed g' = (t.renamed g).renamed f' := by
  unfold renamed
  rw [List.map_map, List.map_map]
  refine List.map_congr_left fun ⟨k, v⟩ he => ?_
  cases v with
  | scalar | list => rfl
  | map r => exact congrArg (fun q => (k, Value.map q)) (h r (Heap.mem_refsOf.2 ⟨_, he, rfl⟩))

end Table

namespace Value

/-- The references in a value are among some. -/
def In (S : Ref → Prop) (v : Value) : Prop := ∀ r, v.ref? = some r → S r

theorem in_scalar {S : Ref → Prop} (s : Scalar) : (Value.scalar s).In S :=
  fun r hr => (Option.some_ne_none r hr.symm).elim

theorem rename_id (v : Value) : v.rename id = v := by
  cases v with
  | scalar | list | map => rfl

theorem ref?_rename (f : Ref → Ref) (v : Value) : (v.rename f).ref? = v.ref?.map f := by
  cases v with
  | scalar | list | map => rfl

theorem eq_map_of_ref? {v : Value} {r : Ref} (h : v.ref? = some r) : v = .map r := by
  cases v with
  | scalar | list => cases h
  | map q => exact congrArg Value.map (Option.some.inj h)

theorem eq_map_of_rename {f : Ref → Ref} {v : Value} {r : Ref} (h : v.rename f = .map r) :
    ∃ q, v = .map q := by
  cases v with
  | scalar | list => cases h
  | map q => exact ⟨q, rfl⟩

theorem rename_congr {f g : Ref → Ref} {v : Value} (h : ∀ r, v.ref? = some r → f r = g r) :
    v.rename f = v.rename g := by
  cases v with
  | scalar | list => rfl
  | map r => exact congrArg Value.map (h r rfl)

theorem rename_inj {f : Ref → Ref} {S : Ref → Prop} (inj : ∀ r q, S r → S q → f r = f q → r = q)
    {v w : Value} (hv : v.In S) (hw : w.In S) : v.rename f = w.rename f ↔ v = w := by
  refine ⟨fun h => ?_, fun h => h ▸ rfl⟩
  cases v with
  | scalar s =>
    cases w with
    | scalar => exact h
    | list | map => cases h
  | list ds =>
    cases w with
    | list => exact h
    | scalar | map => cases h
  | map r =>
    cases w with
    | scalar | list => cases h
    | map q => exact congrArg Value.map (inj r q (hv r rfl) (hw q rfl) (Value.map.inj h))

end Value

namespace Heap

theorem mem_refsOf_ofList {t : Table Value} {q : Ref} (h : q ∈ refsOf (Table.ofList t)) :
    q ∈ refsOf t := by
  obtain ⟨e, he, hq⟩ := mem_refsOf.1 h
  rcases Table.mem_putAll he with he | ⟨e', he, ha⟩
  · exact absurd he List.not_mem_nil
  · exact mem_refsOf.2 ⟨e', he, ha ▸ hq⟩

theorem cell_alloc (h : Heap) (r : Ref) : Heap.cell (h.alloc []).1 r = h.cell r := by
  rcases Nat.lt_trichotomy r h.size with hr | hr | hr
  · simp [cell, alloc, Array.getElem?_push_lt hr, hr]
  · simp [cell, alloc, hr]
  · simp [cell, alloc, Array.getElem?_push, hr.ne', hr.le]

theorem mem_refsOf_put {t : Table Value} {key : Scalar} {v : Value} {q : Ref}
    (h : q ∈ refsOf (t.put key v)) : q ∈ refsOf t ∨ v.ref? = some q := by
  obtain ⟨e, he, hq⟩ := mem_refsOf.1 h
  rcases Table.mem_put he with he | he
  · exact .inl (mem_refsOf.2 ⟨e, he, hq⟩)
  · exact .inr (he ▸ hq)

theorem mem_refsOf_of_get? {t : Table Value} {key : Scalar} {v : Value} {q : Ref}
    (h : t.get? key = some v) (hq : v.ref? = some q) : q ∈ refsOf t := by
  obtain ⟨k, hk⟩ := Table.mem_of_get? h
  exact mem_refsOf.2 ⟨(k, v), hk, hq⟩

theorem refsOf_renamed (f : Ref → Ref) : ∀ t : Table Value,
    refsOf (t.renamed f) = (refsOf t).map f
  | [] => rfl
  | (k, v) :: t => by
    have ih := refsOf_renamed f t
    cases v with
    | scalar | list => exact ih
    | map r => exact congrArg (f r :: ·) ih

theorem depthOfLists_renamed (f : Ref → Ref) (t : Table Value) :
    depthOfLists (t.renamed f) = depthOfLists t := by
  unfold depthOfLists Table.renamed
  rw [List.foldl_map]
  congr 1
  funext n ⟨k, v⟩
  cases v <;> rfl

end Heap

end Colloquy
