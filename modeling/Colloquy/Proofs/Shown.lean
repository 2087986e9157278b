import Colloquy.Proofs.Named
import Colloquy.Proofs.Refs

/-!
# Values that are shown as they were given

A value that is made from data refers to cells in front of its own only, so it never comes back to
one that it is inside of, and is shown as the data that it was made from (`Heap.Shows.view_eq`,
`Heap.hold_shows`). What is made later leaves the cells as they are, so it stays so
(`Heap.Shows.mono`).
-/

namespace Colloquy

namespace Heap

/-- A heap that has all cells of another one as they are there. -/
structure Extends (h h' : Heap) : Prop where
  size_le : h.size ≤ h'.size
  cell : ∀ r < h.size, h'.cell r = h.cell r

theorem Extends.refl (h : Heap) : h.Extends h := ⟨le_rfl, fun _ _ => rfl⟩

theorem Extends.trans {h h' h'' : Heap} (H : h.Extends h') (H' : h'.Extends h'') :
    h.Extends h'' where
  size_le := H.size_le.trans H'.size_le
  cell r hr := (H'.cell r (hr.trans_le H.size_le)).trans (H.cell r hr)

theorem extends_alloc (h : Heap) (t : Table Value) : h.Extends (h.alloc t).1 where
  size_le := (Nat.le_succ _).trans (Array.size_push t).ge
  cell r hr := by
    have he : (h.alloc t).1 = h ++ [t].toArray := by simp [alloc]
    rw [he, cell_append_left hr]

mutual

/-- A value is what data looks like on a heap, each of its tables behind those that are in it. -/
def Shows (h : Heap) : Datum → Value → Prop
  | .scalar s, v => v = .scalar s
  | .list xs, v => v = .list xs
  | .map es, v => ∃ r < h.size, v = .map r ∧ ShowsEntries h r es (h.cell r)
  | .back _, _ => False
termination_by structural d => d

def ShowsEntries (h : Heap) (bound : Ref) : List (Scalar × Datum) → Table Value → Prop
  | [], t => t = []
  | (k, d) :: es, t => ∃ v u, t = (k, v) :: u ∧ h.Shows d v ∧ v.In (· < bound) ∧
      ShowsEntries h bound es u
termination_by structural es => es

end

mutual

theorem Shows.mono {h h' : Heap} (H : h.Extends h') : ∀ {d : Datum} {v : Value},
    h.Shows d v → h'.Shows d v
  | .scalar _, _, hs => by rwa [Shows] at *
  | .list _, _, hs => by rwa [Shows] at *
  | .map es, v, hs => by
    rw [Shows] at *
    obtain ⟨r, hr, rfl, he⟩ := hs
    exact ⟨r, hr.trans_le H.size_le, rfl, (H.cell r hr).symm ▸ ShowsEntries.mono H he⟩
  | .back _, _, hs => by rw [Shows] at hs; exact hs.elim

theorem ShowsEntries.mono {h h' : Heap} (H : h.Extends h') {bound : Ref} :
    ∀ {es : List (Scalar × Datum)} {t : Table Value}, h.ShowsEntries bound es t →
      h'.ShowsEntries bound es t
  | [], _, hs => by rwa [ShowsEntries] at *
  | (k, d) :: es, t, hs => by
    rw [ShowsEntries] at *
    obtain ⟨v, u, rfl, hd, hv, he⟩ := hs
    exact ⟨v, u, rfl, Shows.mono H hd, hv, ShowsEntries.mono H he⟩

end

mutual

/-- A value is held on top of a heap as it is shown. -/
theorem hold_shows : ∀ (d : Datum) (h : Heap), d.IsJson → h.Extends (h.hold d).1 ∧
    (h.hold d).1.Shows d (h.hold d).2 ∧ (h.hold d).2.In (· < (h.hold d).1.size)
  | .scalar _, h, _ => ⟨.refl h, by rw [Shows]; rfl, Value.in_scalar _⟩
  | .list _, h, _ => ⟨.refl h, by rw [Shows]; rfl, nofun⟩
  | .back _, _, hd => by rw [Datum.IsJson] at hd; exact hd.elim
  | .map es, h, hd => by
    rw [Datum.IsJson] at hd
    obtain ⟨H, he⟩ := holdEntries_shows es h hd.2.2
    have hlt : (h.holdEntries es).1.size <
        ((h.holdEntries es).1.alloc (h.holdEntries es).2).1.size :=
      (Nat.lt_succ_self _).trans_le (Array.size_push _).ge
    have H' := extends_alloc (h.holdEntries es).1 (h.holdEntries es).2
    have hcell : ((h.holdEntries es).1.alloc (h.holdEntries es).2).1.cell
        (h.holdEntries es).1.size = (h.holdEntries es).2 := by
      simp [cell, alloc]
    refine ⟨H.trans H', ?_, fun r hr => ?_⟩
    · rw [Shows]
      refine ⟨_, hlt, rfl, ?_⟩
      change ShowsEntries ((h.holdEntries es).1.alloc (h.holdEntries es).2).1 _ es
        (Heap.cell ((h.holdEntries es).1.alloc (h.holdEntries es).2).1 _)
      rw [hcell]
      exact ShowsEntries.mono H' he
    · obtain rfl : (h.holdEntries es).1.size = r := Option.some.inj hr
      exact hlt

theorem holdEntries_shows : ∀ (es : List (Scalar × Datum)) (h : Heap), Datum.EntriesJson es →
    h.Extends (h.holdEntries es).1 ∧
      (h.holdEntries es).1.ShowsEntries (h.holdEntries es).1.size es (h.holdEntries es).2
  | [], h, _ => ⟨.refl h, by rw [ShowsEntries]; rfl⟩
  | (k, d) :: es, h, hd => by
    rw [Datum.EntriesJson] at hd
    obtain ⟨H, hs, hv⟩ := hold_shows d h hd.1
    obtain ⟨H', he⟩ := holdEntries_shows es (h.hold d).1 hd.2
    refine ⟨H.trans H', ?_⟩
    rw [ShowsEntries]
    exact ⟨_, _, rfl, hs.mono H', fun r hr => (hv r hr).trans_le H'.size_le, he⟩

end

mutual

theorem Shows.viewBelow_eq {h : Heap} : ∀ {d : Datum} {v : Value} {n : ℕ} {path : List Ref},
    h.Shows d v → v.In (· < n) → (∀ q ∈ path, v.In (· < q)) → h.viewBelow n path v = d
  | .scalar _, _, n, _, hs, _, _ => by
    rw [Shows] at hs
    subst hs
    cases n <;> rfl
  | .list _, _, n, _, hs, _, _ => by
    rw [Shows] at hs
    subst hs
    cases n <;> rfl
  | .back _, _, _, _, hs, _, _ => by rw [Shows] at hs; exact hs.elim
  | .map es, v, n, path, hs, hn, hp => by
    rw [Shows] at hs
    obtain ⟨r, -, rfl, he⟩ := hs
    obtain ⟨n, rfl⟩ : ∃ m, n = m + 1 := Nat.exists_eq_succ_of_ne_zero (by
      have hlt : r < n := hn r rfl
      omega)
    have hr : path.idxOf? r = none := by
      rw [List.idxOf?_eq_none_iff]
      intro hmem
      exact Nat.lt_irrefl r (hp r hmem r rfl)
    simp only [viewBelow, hr, Datum.map.injEq]
    refine ShowsEntries.viewBelow_eq he (Nat.le_of_lt_succ (hn r rfl)) ?_
    exact List.forall_mem_cons.2 ⟨le_rfl, fun q hq => (hp q hq r rfl).le⟩

theorem ShowsEntries.viewBelow_eq {h : Heap} {bound : Ref} : ∀ {es : List (Scalar × Datum)}
    {t : Table Value} {n : ℕ} {path : List Ref}, h.ShowsEntries bound es t → bound ≤ n →
      (∀ q ∈ path, bound ≤ q) → t.map (fun (k, v) => (k, h.viewBelow n path v)) = es
  | [], _, _, _, hs, _, _ => by
    rw [ShowsEntries] at hs
    subst hs
    rfl
  | (k, d) :: es, t, n, path, hs, hn, hp => by
    rw [ShowsEntries] at hs
    obtain ⟨v, u, rfl, hd, hv, he⟩ := hs
    have hd' := hd.viewBelow_eq (fun r hr => (hv r hr).trans_le hn)
      fun q hq r hr => (hv r hr).trans_le (hp q hq)
    rw [List.map_cons, ShowsEntries.viewBelow_eq he hn hp]
    simp only [hd']

end

theorem Shows.in_size {h : Heap} {d : Datum} {v : Value} (hs : h.Shows d v) :
    v.In (· < h.size) := by
  intro r hr
  cases d with
  | scalar | list =>
    rw [Shows] at hs
    subst hs
    cases hr
  | map es =>
    rw [Shows] at hs
    obtain ⟨q, hq, rfl, -⟩ := hs
    cases hr
    exact hq
  | back => rw [Shows] at hs; exact hs.elim

/-- A value is shown as what it looks like. -/
theorem Shows.view_eq {h : Heap} {d : Datum} {v : Value} (hs : h.Shows d v) : h.view v = d :=
  hs.viewBelow_eq (fun r hr => (hs.in_size r hr).trans (Nat.lt_succ_self _)) (List.forall_mem_nil _)

end Heap

end Colloquy
