import Colloquy.Proofs.Decided
import Colloquy.Proofs.Restored

/-!
# Stores of variables

A conversation starts on a store with the variables of its tree in the context and nothing else
(`Store.HasVariables`). They look like the data that they were given as (`Store.make_variables`), so
they can be copied once they could be put there (`Store.HasVariables.isCopyable`), and whatever a
condition asks for on such a store is found out (`Store.HasVariables.isDecided`).
-/

namespace Colloquy

namespace Heap

variable {h : Heap}

theorem depthOfLists_le {n : ℕ} {t : Table Value} (fits : ∀ e ∈ t, h.Fits n e.2) :
    depthOfLists t ≤ n := by
  unfold depthOfLists
  refine List.foldlRecOn (motive := (· ≤ n)) t _ (Nat.zero_le n) fun k hk e he => ?_
  have hf := fits e he
  rcases e with ⟨key, _ | ds | r⟩
  · exact hk
  · cases n <;> exact max_le hk hf
  · exact hk

/-- No cell is come to deeper than it fits. -/
theorem depthFrom_le {most : ℕ} : ∀ (steps : ℕ) {todo : List (Ref × ℕ)} {seen : List Ref},
    (∀ x ∈ todo, ∃ n, x.2 + n ≤ most ∧ h.Fits n (.map x.1)) →
      h.depthFrom steps todo seen ≤ most := by
  intro steps
  induction steps with
  | zero => exact fun _ => Nat.zero_le most
  | succ steps ih =>
    intro todo seen fits
    cases todo with
    | nil => exact Nat.zero_le most
    | cons x todo =>
      obtain ⟨r, d⟩ := x
      rw [List.forall_mem_cons] at fits
      obtain ⟨⟨n, within, here⟩, later⟩ := fits
      rw [depthFrom]
      split_ifs
      · exact ih later
      cases n with
      | zero => exact here.elim
      | succ n =>
        have lists := depthOfLists_le (t := h.cell r) here
        refine max_le (by dsimp only at within; omega) (ih fun y hy => ?_)
        rcases List.mem_append.1 hy with hy | hy
        · obtain ⟨q, hq, rfl⟩ := List.mem_map.1 hy
          obtain ⟨e, he, hr⟩ := mem_refsOf.1 hq
          obtain ⟨key, v⟩ := e
          cases v with
          | scalar | list => cases hr
          | map p =>
            obtain rfl : p = q := Option.some.inj hr
            exact ⟨n, by dsimp only at within ⊢; omega, here _ he⟩
        · exact later y hy

theorem Fits.depth_le {n : ℕ} {v : Value} (fits : h.Fits n v) : h.depth v ≤ n := by
  cases v with
  | scalar => exact Nat.zero_le n
  | list ds => cases n <;> exact fits
  | map r =>
    exact depthFrom_le _ (List.forall_mem_singleton.2 ⟨n, (Nat.zero_add n).le, fits⟩)

end Heap

namespace Store

/-- A store with some variables in its context and nothing else in it. -/
structure HasVariables (s : Store) (t : Table Datum) : Prop where
  flags : s.flags = []
  quests : s.quests = []
  shown : s.context.heap.Shows (.map t) s.context.root
  near : (Datum.map t).depth ≤ Context.copyLimit

theorem make_variables {h : Heap} {t : Table Datum} {s : Store} (json : (Datum.map t).IsJson)
    (made : make h [] (.map t) [] = .ok s) : s.HasVariables t := by
  unfold make Context.ofDatum at made
  split_ifs at made with near
  · obtain ⟨-, shown, -⟩ := Heap.hold_shows (.map t) h json
    obtain rfl := Except.ok.inj made
    exact ⟨rfl, rfl, shown, near⟩
  · cases made

namespace HasVariables

variable {s : Store} {t : Table Datum}

theorem isCopyable (vars : s.HasVariables t) : s.context.isCopyable = true :=
  decide_eq_true (vars.shown.fits vars.near).depth_le

theorem isDecided [Text.Halves] (vars : s.HasVariables t) (c : Condition) :
    c.isDecided s = true := by
  have near : s.Near 0 := by
    refine ⟨fun hv => ?_, fun hf => ?_⟩
    · obtain ⟨e, shown, hd⟩ := Context.walk_shows vars.shown hv
      exact ⟨e, shown, hd.trans vars.near⟩
    · rw [flag?, vars.flags] at hf
      cases hf
  exact Condition.isDecided_of_near near (.inl (Nat.zero_le _))

theorem isTable (vars : s.HasVariables t) : s.context.root.ref?.isSome = true := by
  have shown := vars.shown
  rw [Heap.Shows] at shown
  obtain ⟨r, -, root, -⟩ := shown
  rw [root]
  rfl

/-- The entries of the context are the variables. -/
theorem mem_entries (vars : s.HasVariables t) {e : Scalar × Value} (he : e ∈ s.context.entries) :
    (e.1, s.context.heap.view e.2) ∈ t := by
  have shown := vars.shown
  rw [Heap.Shows] at shown
  obtain ⟨r, -, root, shown⟩ := shown
  rw [Context.entries, root] at he
  obtain ⟨d, hd, hs⟩ := shown.exists_of_mem he
  rwa [hs.view_eq]

end HasVariables

end Store

section reading
variable [Text.Halves]

/-- The variables of a tree that is read with an object of them, or none, are an object again. -/
theorem Tree.ofDatum_initial {h h' : Heap} {es : Table Datum} {t : Tree}
    (json : (Datum.map es).IsJson) (object : (Table.field es "variables").IsObject)
    (loaded : ofDatum h (.map es) = .ok (t, h')) : (Datum.map t.initial).IsJson := by
  obtain ⟨r, read, -⟩ := exists_of_ofDatum loaded
  rw [Datum.IsJson] at json
  have given := Datum.isJson_field json.2.2 "variables"
  unfold Reading.tree at read
  rcases hraw : (Table.field es "nodes").orElse (.map []) with _ | _ | raw | _
  all_goals simp only [hraw] at read
  case map =>
    obtain ⟨initial, r₁, hi, read⟩ := Reading.bind_ok read
    obtain ⟨metadata, r₂, -, read⟩ := Reading.bind_ok read
    obtain ⟨ns, r₃, -, read⟩ := Reading.bind_ok read
    obtain ⟨-, rfl, -⟩ := Reading.treeWith_reads read
    exact Reading.table_object given object hi ▸ Datum.isJson_orElse given Datum.isJson_empty
  all_goals cases read

end reading

end Colloquy
