import Colloquy.Proofs.Loaded
import Colloquy.Proofs.Mirror
import Colloquy.Proofs.Shown

/-!
# Tables inside tables

A reference leads to the cells that are reached from it (`Heap.Leads`). Cells may be such that none
is reached from inside itself (`Heap.AcyclicOn`), or such that each also stands in one place at most
(`Heap.ForestOn`). So are those that data is held in (`Heap.hold_ordered`, `Store.ofDatum_forest`).
A write keeps the first unless what it writes leads to the cell that it lands in
(`Context.write_acyclic`), and puts that cell into itself otherwise (`Context.write_knot`). It keeps
the second if what it writes is no table (`Context.write_forest`).
-/

namespace Colloquy

namespace Heap

/-- A reference leads to itself and to all that is reached from its cell. -/
def Leads (h : Heap) (u : Ref) : Ref → Prop := h.Below (· = u)

namespace Leads

variable {h h' : Heap} {u v r q : Ref}

theorem refl (h : Heap) (u : Ref) : h.Leads u u := .here rfl

theorem next (H : h.Leads u r) (hq : q ∈ refsOf (h.cell r)) : h.Leads u q := .step H hq

theorem closed {P : Ref → Prop} (H : h.Leads u r) (hu : P u)
    (hP : ∀ r, P r → ∀ q ∈ refsOf (h.cell r), P q) : P r :=
  H.within (fun _ he => he ▸ hu) hP

theorem trans (H : h.Leads u v) (H' : h.Leads v r) : h.Leads u r :=
  H'.closed H fun _ hr _ hq => hr.next hq

theorem mono (sub : ∀ r, ∀ q ∈ refsOf (h.cell r), q ∈ refsOf (h'.cell r)) (H : h.Leads u r) :
    h'.Leads u r :=
  H.closed (.refl h' u) fun r hr q hq => hr.next (sub r q hq)

theorem eq_of_nil (hu : refsOf (h.cell u) = []) (H : h.Leads u r) : r = u :=
  H.closed (P := (· = u)) rfl fun x hx q hq => by
    rw [hx, hu] at hq
    exact absurd hq List.not_mem_nil

/-- The way to a cell is the same where only that cell is not. -/
theorem off (same : ∀ x < h.size, x ≠ r → h'.cell x = h.cell x) (H : h.Leads u r) :
    h'.Leads u r := by
  have hw : h'.Leads u r ∨ h'.Leads u r := by
    refine H.within (B := fun x => h'.Leads u x ∨ h'.Leads u r) (fun x hx => .inl (.here hx)) ?_
    rintro x (hx | hx) q hq
    · by_cases hxr : x = r
      · exact .inr (hxr ▸ hx)
      · have hs : x < h.size := by
          by_contra hs
          rw [cell_of_size_le (Nat.le_of_not_lt hs)] at hq
          exact absurd hq List.not_mem_nil
        exact .inl (hx.next (by rwa [same x hs hxr]))
    · exact .inr hx
  exact hw.elim id id

/-- What leads somewhere after a cell was replaced did so before, or goes through the cell. -/
theorem of_setIfInBounds {t : Table Value} (H : Leads (h.setIfInBounds r t) u q) :
    h.Leads u q ∨ h.Leads u r ∧ ∃ x ∈ refsOf t, h.Leads x q := by
  refine H.closed (P := fun q => h.Leads u q ∨ h.Leads u r ∧ ∃ x ∈ refsOf t, h.Leads x q)
    (.inl (.refl h u)) fun x hx q hq => ?_
  rw [cell_setIfInBounds] at hq
  split_ifs at hq with hr
  · obtain ⟨rfl, -⟩ := hr
    right
    rcases hx with hx | ⟨hx, -⟩
    · exact ⟨hx, q, hq, .refl h q⟩
    · exact ⟨hx, q, hq, .refl h q⟩
  · rcases hx with hx | ⟨hu, y, hy, hx⟩
    · exact .inl (hx.next hq)
    · exact .inr ⟨hu, y, hy, hx.next hq⟩

theorem there {G : Ref → Prop} (hG : Fenced G h) (hu : h.There G u) (H : h.Leads u r) :
    h.There G r :=
  H.closed hu fun x hx => hG.closed x hx.1

/-- What leads somewhere from within a fence does so when only cells beyond are new. -/
theorem of_top {G : Ref → Prop} (hG : Fenced G h) (hu : h.There G u)
    (old : Same (· < h.size) h h') (H : h'.Leads u r) : h.Leads u r := by
  have hw : h.Leads u r ∧ h.There G r := by
    refine H.closed (P := fun r => h.Leads u r ∧ h.There G r) ⟨.refl h u, hu⟩ ?_
    rintro x ⟨hx, ht⟩ q hq
    rw [old x ht.2] at hq
    exact ⟨hx.next hq, hG.closed x ht.1 q hq⟩
  exact hw.1

end Leads

/-- No cell among some is reached from inside itself. -/
def AcyclicOn (G : Ref → Prop) (h : Heap) : Prop :=
  ∀ r, G r → ∀ q ∈ refsOf (h.cell r), ¬ h.Leads q r

/-- Cells that are not inside themselves, each of them in one place at most. -/
structure ForestOn (G : Ref → Prop) (h : Heap) : Prop where
  acyclic : AcyclicOn G h
  nodup : ∀ r, G r → (refsOf (h.cell r)).Nodup
  parent : ∀ r q x, G r → G q → x ∈ refsOf (h.cell r) → x ∈ refsOf (h.cell q) → r = q

/-! ## New cells -/

/-- From a number on, cells refer to cells in front of them only, and each of them is referred to
once at most. -/
structure Ordered (n : Ref) (h : Heap) : Prop where
  below : ∀ r, n ≤ r → ∀ q ∈ refsOf (h.cell r), n ≤ q ∧ q < r
  nodup : ∀ r, n ≤ r → (refsOf (h.cell r)).Nodup
  parent : ∀ r q x, n ≤ r → n ≤ q → x ∈ refsOf (h.cell r) → x ∈ refsOf (h.cell q) → r = q

/-- A reference to a cell that no other one refers to. -/
def Loose (n : Ref) (h : Heap) (x : Ref) : Prop :=
  n ≤ x ∧ x < h.size ∧ ∀ r, n ≤ r → x ∉ refsOf (h.cell r)

theorem ordered_size (h : Heap) : Ordered h.size h where
  below r hr q hq := by
    rw [cell_of_size_le hr] at hq
    exact absurd hq List.not_mem_nil
  nodup r hr := by
    rw [cell_of_size_le hr]
    exact List.nodup_nil
  parent r q x hr _ hx _ := by
    rw [cell_of_size_le hr] at hx
    exact absurd hx List.not_mem_nil

theorem cell_alloc_cases (h : Heap) (t : Table Value) (r : Ref) :
    r = h.size ∧ Heap.cell (h.alloc t).1 r = t ∨ r ≠ h.size ∧
      Heap.cell (h.alloc t).1 r = h.cell r := by
  rcases Nat.lt_trichotomy r h.size with hr | hr | hr
  · exact .inr ⟨hr.ne, (extends_alloc h t).cell r hr⟩
  · exact .inl ⟨hr, by simp [cell, alloc, hr]⟩
  · refine .inr ⟨hr.ne', ?_⟩
    have hs : (h.alloc t).1.size = h.size + 1 := Array.size_push t
    rw [cell_of_size_le hr.le, cell_of_size_le (by omega)]

theorem Ordered.alloc {n : Ref} {h : Heap} (H : Ordered n h) {t : Table Value}
    (nodup : (refsOf t).Nodup) (loose : ∀ x ∈ refsOf t, Loose n h x) :
    Ordered n (h.alloc t).1 where
  below r hr q hq := by
    rcases cell_alloc_cases h t r with ⟨rfl, he⟩ | ⟨-, he⟩
    · rw [he] at hq
      exact ⟨(loose q hq).1, (loose q hq).2.1⟩
    · rw [he] at hq
      exact H.below r hr q hq
  nodup r hr := by
    rcases cell_alloc_cases h t r with ⟨-, he⟩ | ⟨-, he⟩
    · rwa [he]
    · rw [he]
      exact H.nodup r hr
  parent r q x hr hq hxr hxq := by
    rcases cell_alloc_cases h t r with ⟨hr', he⟩ | ⟨-, he⟩
    all_goals rcases cell_alloc_cases h t q with ⟨hq', he'⟩ | ⟨-, he'⟩
    all_goals rw [he] at hxr
    all_goals rw [he'] at hxq
    · rw [hr', hq']
    · exact absurd hxq ((loose x hxr).2.2 q hq)
    · exact absurd hxr ((loose x hxq).2.2 r hr)
    · exact H.parent r q x hr hq hxr hxq

theorem Loose.alloc {n : Ref} {h : Heap} {x : Ref} (hx : Loose n h x) {t : Table Value}
    (ht : x ∉ refsOf t) : Loose n (h.alloc t).1 x := by
  have hs : (h.alloc t).1.size = h.size + 1 := Array.size_push t
  refine ⟨hx.1, hx.2.1.trans (hs ▸ Nat.lt_succ_self _), fun r hr hxr => ?_⟩
  rcases cell_alloc_cases h t r with ⟨-, he⟩ | ⟨-, he⟩
  · exact ht (he ▸ hxr)
  · exact hx.2.2 r hr (he ▸ hxr)

/-- A new cell that refers to older ones is referred to by none. -/
theorem Ordered.loose_alloc {n : Ref} {h : Heap} (H : Ordered n h) (hn : n ≤ h.size)
    {t : Table Value} (ht : ∀ x ∈ refsOf t, x < h.size) : Loose n (h.alloc t).1 h.size := by
  have hs : (h.alloc t).1.size = h.size + 1 := Array.size_push t
  refine ⟨hn, hs ▸ Nat.lt_succ_self _, fun r hr hxr => ?_⟩
  rcases cell_alloc_cases h t r with ⟨-, he⟩ | ⟨-, he⟩
  · exact Nat.lt_irrefl _ (ht _ (he ▸ hxr))
  · rw [he] at hxr
    rcases Nat.lt_or_ge r h.size with hlt | hge
    · exact Nat.lt_asymm hlt (H.below r hr _ hxr).2
    · rw [cell_of_size_le hge] at hxr
      exact absurd hxr List.not_mem_nil

mutual

/-- Data is held in cells that refer to cells in front of them, each of them once; what is held is
referred to by no other. -/
theorem hold_ordered {n : Ref} : ∀ (d : Datum) {h : Heap}, Ordered n h → n ≤ h.size →
    Ordered n (h.hold d).1 ∧ (∀ x, Loose n h x → Loose n (h.hold d).1 x) ∧
      ∀ x, (h.hold d).2.ref? = some x → h.size ≤ x ∧ Loose n (h.hold d).1 x
  | .scalar _, _, H, _ => ⟨H, fun _ => id, nofun⟩
  | .list _, _, H, _ => ⟨H, fun _ => id, nofun⟩
  | .back _, _, H, _ => ⟨H, fun _ => id, nofun⟩
  | .map es, h, H, hn => by
    obtain ⟨H', hl, hs, nodup, ht⟩ := holdEntries_ordered es H hn
    refine ⟨H'.alloc nodup fun x hx => (ht x hx).2, fun x hx => ?_, fun x hx => ?_⟩
    · exact (hl x hx).alloc fun hxt => Nat.not_lt.2 (ht x hxt).1 hx.2.1
    · obtain rfl : (h.holdEntries es).1.size = x := Option.some.inj hx
      exact ⟨hs, H'.loose_alloc (hn.trans hs) fun x hx => (ht x hx).2.2.1⟩

theorem holdEntries_ordered {n : Ref} : ∀ (es : List (Scalar × Datum)) {h : Heap}, Ordered n h →
    n ≤ h.size → Ordered n (h.holdEntries es).1 ∧
      (∀ x, Loose n h x → Loose n (h.holdEntries es).1 x) ∧ h.size ≤ (h.holdEntries es).1.size ∧
        (refsOf (h.holdEntries es).2).Nodup ∧
          ∀ x ∈ refsOf (h.holdEntries es).2, h.size ≤ x ∧ Loose n (h.holdEntries es).1 x
  | [], _, H, _ => ⟨H, fun _ => id, le_rfl, List.nodup_nil, nofun⟩
  | (k, d) :: es, h, H, hn => by
    obtain ⟨H₁, hl₁, hv⟩ := hold_ordered d H hn
    have hs₁ : h.size ≤ (h.hold d).1.size := (hold_atop d (.refl h)).2.1
    obtain ⟨H₂, hl₂, hs₂, nodup, ht⟩ := holdEntries_ordered es H₁ (hn.trans hs₁)
    refine ⟨H₂, fun x hx => hl₂ x (hl₁ x hx), hs₁.trans hs₂, ?_, fun x hx => ?_⟩
    · change (refsOf ((k, (h.hold d).2) :: ((h.hold d).1.holdEntries es).2)).Nodup
      rcases hr : (h.hold d).2.ref? with _ | x
      · simpa only [refsOf, List.filterMap_cons, hr] using nodup
      · simp only [refsOf, List.filterMap_cons, hr]
        refine List.nodup_cons.2 ⟨fun hx => ?_, nodup⟩
        exact Nat.not_lt.2 (ht x hx).1 (hv x hr).2.2.1
    · obtain ⟨e, he, hr⟩ := mem_refsOf.1 hx
      rcases List.mem_cons.1 he with rfl | he
      · exact ⟨(hv x hr).1, hl₂ x (hv x hr).2⟩
      · have hx := ht x (mem_refsOf.2 ⟨e, he, hr⟩)
        exact ⟨hs₁.trans hx.1, hx.2⟩

end

theorem Ordered.not_leads {n : Ref} {h : Heap} (H : Ordered n h) {r q : Ref} (hr : n ≤ r)
    (hq : q ∈ refsOf (h.cell r)) : ¬ h.Leads q r := by
  intro hl
  -- references only go down
  obtain ⟨hn, hlt⟩ := H.below r hr q hq
  have hle : n ≤ r ∧ r ≤ q := by
    refine hl.closed (P := fun x => n ≤ x ∧ x ≤ q) ⟨hn, le_rfl⟩ fun x hx p hp => ?_
    obtain ⟨hnp, hpx⟩ := H.below x hx.1 p hp
    exact ⟨hnp, hpx.le.trans hx.2⟩
  exact Nat.not_lt.2 hle.2 hlt

theorem Ordered.forest {n : Ref} {h : Heap} (H : Ordered n h) : ForestOn (n ≤ ·) h where
  acyclic _ hr _ hq := H.not_leads hr hq
  nodup := H.nodup
  parent := H.parent

/-! ## Cells that are added and replaced -/

section forest

variable {G : Ref → Prop} {h h' : Heap} {r : Ref}

theorem ForestOn.of_cells (H : ForestOn G h) (same : ∀ r, h'.cell r = h.cell r) :
    ForestOn G h' where
  acyclic r hr q hq hl := by
    rw [same] at hq
    exact H.acyclic r hr q hq (hl.mono fun x y hy => same x ▸ hy)
  nodup r hr := same r ▸ H.nodup r hr
  parent r q x hr hq hxr hxq := H.parent r q x hr hq (same r ▸ hxr) (same q ▸ hxq)

theorem AcyclicOn.of_refs (H : AcyclicOn G h)
    (sub : ∀ r, ∀ q ∈ refsOf (h'.cell r), q ∈ refsOf (h.cell r)) : AcyclicOn G h' :=
  fun r hr q hq hl => H r hr q (sub r q hq) (hl.mono sub)

theorem AcyclicOn.top (H : AcyclicOn G h) (hG : Fenced G h) (old : Same (· < h.size) h h')
    (ordered : Ordered h.size h') : AcyclicOn G h' := by
  intro r hr q hq hl
  rcases Nat.lt_or_ge r h.size with hs | hs
  · rw [old r hs] at hq
    exact H r hr q hq (hl.of_top hG (hG.closed r hr q hq) old)
  · exact ordered.not_leads hs hq hl

theorem ForestOn.top (H : ForestOn G h) (hG : Fenced G h) (old : Same (· < h.size) h h')
    (ordered : Ordered h.size h') : ForestOn G h' where
  acyclic := H.acyclic.top hG old ordered
  nodup r hr := by
    rcases Nat.lt_or_ge r h.size with hs | hs
    · rw [old r hs]
      exact H.nodup r hr
    · exact ordered.nodup r hs
  parent r q x hr hq hxr hxq := by
    rcases Nat.lt_or_ge r h.size with hs | hs
    all_goals rcases Nat.lt_or_ge q h.size with hs' | hs'
    · rw [old r hs] at hxr
      rw [old q hs'] at hxq
      exact H.parent r q x hr hq hxr hxq
    · rw [old r hs] at hxr
      exact absurd (hG.closed r hr x hxr).2 (Nat.not_lt.2 (ordered.below q hs' x hxq).1)
    · rw [old q hs'] at hxq
      exact absurd (hG.closed q hq x hxq).2 (Nat.not_lt.2 (ordered.below r hs x hxr).1)
    · exact ordered.parent r q x hs hs' hxr hxq

theorem AcyclicOn.setIfInBounds (H : AcyclicOn G h) {t : Table Value}
    (apart : ∀ u ∈ refsOf t, ¬ h.Leads u r) : AcyclicOn G (h.setIfInBounds r t) := by
  intro x hx q hq hl
  rw [cell_setIfInBounds] at hq
  split_ifs at hq with hr
  · obtain ⟨rfl, -⟩ := hr
    rcases hl.of_setIfInBounds with hl | ⟨hl, -⟩
    · exact apart q hq hl
    · exact apart q hq hl
  · rcases hl.of_setIfInBounds with hl | ⟨hl, u, hu, hux⟩
    · exact H x hx q hq hl
    · exact apart u hu ((hux.next hq).trans hl)

theorem ForestOn.setIfInBounds (H : ForestOn G h) {t : Table Value}
    (apart : ∀ u ∈ refsOf t, ¬ h.Leads u r) (nodup : (refsOf t).Nodup)
    (loose : ∀ u ∈ refsOf t, ∀ q, G q → q ≠ r → u ∉ refsOf (h.cell q)) :
    ForestOn G (h.setIfInBounds r t) where
  acyclic := H.acyclic.setIfInBounds apart
  nodup x hx := by
    rw [cell_setIfInBounds]
    split_ifs
    · exact nodup
    · exact H.nodup x hx
  parent p q x hp hq hxp hxq := by
    rw [cell_setIfInBounds] at hxp hxq
    split_ifs at hxp hxq with hp' hq' hq'
    · exact hp'.1.symm.trans hq'.1
    · by_contra hne
      exact loose x hxp q hq (fun he => hne (hp'.1.symm.trans he.symm)) hxq
    · by_contra hne
      exact loose x hxq p hp (fun he => hne (he.trans hq'.1)) hxp
    · exact H.parent p q x hp hq hxp hxq

theorem AcyclicOn.putField (H : AcyclicOn G h) (hr : G r) {v : Value}
    (apart : ∀ u, v.ref? = some u → ¬ h.Leads u r) (name : String) :
    AcyclicOn G (h.putField r name v) :=
  H.setIfInBounds fun u hu => (mem_refsOf_put hu).elim (H r hr u) (apart u)

theorem refsOf_cons (e : Scalar × Value) (t : Table Value) :
    refsOf (e :: t) = e.2.ref?.toList ++ refsOf t := by
  rcases hr : e.2.ref? with _ | u
  · simp [refsOf, hr]
  · simp [refsOf, hr]

theorem nodup_refsOf_put {key : Scalar} {v : Value} : ∀ {t : Table Value}, (refsOf t).Nodup →
    (∀ u, v.ref? = some u → u ∉ refsOf t) → (refsOf (t.put key v)).Nodup
  | [], _, _ => by
    rw [Table.put, refsOf_cons]
    rcases v.ref? with _ | u
    · exact List.nodup_nil
    · exact List.nodup_singleton u
  | e :: t, nodup, fresh => by
    rw [refsOf_cons, List.nodup_append'] at nodup
    obtain ⟨hone, ht, hapart⟩ := nodup
    have hfresh : ∀ u, v.ref? = some u → u ∉ refsOf t := fun u hu hm =>
      fresh u hu (refsOf_cons e t ▸ List.mem_append_right _ hm)
    unfold Table.put
    split_ifs
    · rw [refsOf_cons, List.nodup_append']
      refine ⟨?_, ht, fun u hu hm => hfresh u (Option.mem_toList.1 hu) hm⟩
      rcases v.ref? with _ | u
      · exact List.nodup_nil
      · exact List.nodup_singleton u
    · rw [refsOf_cons, List.nodup_append']
      refine ⟨hone, nodup_refsOf_put ht hfresh, fun u hu hm => ?_⟩
      rcases mem_refsOf_put hm with hm | hv
      · exact hapart hu hm
      · exact fresh u hv (refsOf_cons e t ▸ List.mem_append_left _ hu)

theorem ref_ne_of_get? {k l : String} (hne : k ≠ l) {v w : Value} {c u : Ref} (hc : v.ref? = some c)
    (hu : w.ref? = some u) : ∀ {t : Table Value}, (refsOf t).Nodup →
      t.get? (.text k) = some v → t.get? (.text l) = some w → c ≠ u
  | [], _, hv, _ => by cases hv
  | e :: t, nodup, hv, hw => by
    rw [refsOf_cons, List.nodup_append'] at nodup
    obtain ⟨-, ht, hapart⟩ := nodup
    unfold Table.get? at hv hw
    split_ifs at hv hw with hk hl hl
    · exact absurd (Scalar.text.inj ((Scalar.alike_text_iff.1 hk).symm.trans
        (Scalar.alike_text_iff.1 hl))) hne
    · rw [← Option.some.inj hv] at hc
      rintro rfl
      exact hapart (Option.mem_toList.2 hc) (mem_refsOf_of_get? hw hu)
    · rw [← Option.some.inj hw] at hu
      rintro rfl
      exact hapart (Option.mem_toList.2 hu) (mem_refsOf_of_get? hv hc)
    · exact ref_ne_of_get? hne hc hu ht hv hw

theorem ForestOn.putField (H : ForestOn G h) (hr : G r) {v : Value}
    (apart : ∀ u, v.ref? = some u → ¬ h.Leads u r ∧ ∀ q, G q → u ∉ refsOf (h.cell q))
    (name : String) : ForestOn G (h.putField r name v) := by
  refine H.setIfInBounds (fun u hu => ?_) ?_ fun u hu q hq hne => ?_
  · exact (mem_refsOf_put hu).elim (H.acyclic r hr u) fun hv => (apart u hv).1
  · exact nodup_refsOf_put (H.nodup r hr) fun u hv => (apart u hv).2 r hr
  · rcases mem_refsOf_put hu with hu | hv
    · exact fun hq' => hne (H.parent q r u hq hr hq' hu)
    · exact (apart u hv).2 q hq

/-- Of two cells that lead to a third one, one leads to the other. -/
theorem ForestOn.leads_or (H : ForestOn G h) (hG : Fenced G h) {c d x : Ref} (hc : h.There G c)
    (hd : h.There G d) (hcx : h.Leads c x) (hdx : h.Leads d x) : h.Leads c d ∨ h.Leads d c := by
  -- both ways come to a cell through the one cell that holds it, so they are taken back together
  induction hcx with
  | here he => exact .inr (he ▸ hdx)
  | @step r q hcr hq ih =>
    cases hdx with
    | here he => exact .inl (he ▸ Leads.next hcr hq)
    | @step y _ hdy hq' =>
      obtain rfl : r = y :=
        H.parent r y q (Leads.there hG hc hcr).1 (Leads.there hG hd hdy).1 hq hq'
      exact ih hdy

theorem ForestOn.siblings_apart (H : ForestOn G h) (hG : Fenced G h) {q c d x : Ref} (hq : G q)
    (hc : c ∈ refsOf (h.cell q)) (hd : d ∈ refsOf (h.cell q)) (hne : c ≠ d) (hcx : h.Leads c x) :
    ¬ h.Leads d x := by
  have aside : ∀ {c d : Ref}, c ∈ refsOf (h.cell q) → d ∈ refsOf (h.cell q) → c ≠ d →
      ¬ h.Leads c d := by
    intro c d hc hd hne hcd
    cases hcd with
    | here he => exact hne he.symm
    | @step y _ hcy hdy =>
      have hy : G y := (Leads.there hG (hG.closed q hq c hc) hcy).1
      obtain rfl : y = q := H.parent y q d hy hq hdy hd
      exact H.acyclic y hy c hc hcy
  intro hdx
  rcases H.leads_or hG (hG.closed q hq c hc) (hG.closed q hq d hd) hcx hdx with hl | hl
  · exact aside hc hd hne hl
  · exact aside hd hc hne.symm hl

end forest

end Heap

/-! ## Writes -/

namespace Context

open Heap

theorem landing_of_empty {h : Heap} {r : Ref} (hr : h.cell r = []) : ∀ p : Path,
    landing h r p = r
  | [] => rfl
  | [_] => rfl
  | key :: k :: rest => landing_fresh fun child hc => by
    rw [hr] at hc
    cases hc

theorem leads_landing {h : Heap} : ∀ (p : Path) (r : Ref), h.Leads r (landing h r p)
  | [], r => .refl h r
  | [_], r => .refl h r
  | key :: k :: rest, r => by
    by_cases hc : ∃ child, (h.cell r).get? (.text key) = some (.map child)
    · obtain ⟨child, hc⟩ := hc
      rw [landing_through hc]
      exact Leads.trans (.next (.refl h r) (mem_refsOf_of_get? hc rfl))
        (leads_landing (k :: rest) child)
    · rw [landing_fresh (not_exists.1 hc)]
      exact .refl h r

/-- A heap with an empty table put into a cell, as a write does where it finds none. -/
def grow (h : Heap) (r : Ref) (key : String) : Heap :=
  (h.alloc []).1.putField r key (.map h.size)

section grow

variable {G : Ref → Prop} {h : Heap} {r : Ref} {key : String}

theorem write_grow {k : String} {rest : Path}
    (hn : ∀ child, (h.cell r).get? (.text key) ≠ some (.map child)) (v : Value) :
    (write h r (key :: k :: rest) v).1 = (write (grow h r key) h.size (k :: rest) v).1 :=
  write_fresh hn v

theorem size_lt_grow : h.size < (grow h r key).size := by
  simp [grow, putField, alloc]

theorem grow_there (hG : Heap.Fenced G h) : Heap.There G (grow h r key) h.size :=
  ⟨hG.fresh _ le_rfl, size_lt_grow⟩

theorem cell_grow_size (hr : r < h.size) : Heap.cell (grow h r key) h.size = [] := by
  rw [grow, putField, cell_setIfInBounds, if_neg fun hc => hr.ne hc.1, cell_alloc,
    cell_of_size_le le_rfl]

theorem grow_fenced (hG : Heap.Fenced G h) (hr : G r) : Heap.Fenced G (grow h r key) :=
  hG.alloc.putField hr key fun q hq => by
    obtain rfl : h.size = q := Option.some.inj hq
    exact ⟨hG.fresh _ le_rfl, by simp [alloc]⟩

theorem cell_write_grow (hr : r < h.size) (k : String) (rest : Path) (v : Value) :
    Heap.cell (write (grow h r key) h.size (k :: rest) v).1 r =
      (h.cell r).put (.text key) (.map h.size) := by
  have hl : landing (grow h r key) h.size (k :: rest) = h.size :=
    landing_of_empty (cell_grow_size hr) (k :: rest)
  have hs : r < (grow h r key).size := hr.trans size_lt_grow
  rw [cell_write (k :: rest) v hs (hl.symm ▸ hr.ne), grow, putField, cell_setIfInBounds,
    if_pos ⟨rfl, by simpa [alloc] using hr.trans (Nat.lt_succ_self _)⟩, cell_alloc]

theorem leads_alloc {u q : Ref} (H : Heap.Leads (h.alloc []).1 u q) : h.Leads u q :=
  H.mono fun x _ hy => cell_alloc h x ▸ hy

theorem not_leads_grow {u q : Ref} (hu : ¬ h.Leads u r) (hq : ¬ h.Leads u q) :
    ¬ Heap.Leads (grow h r key) u q := by
  intro hl
  rcases hl.of_setIfInBounds with hl | ⟨hl, -⟩
  · exact hq (leads_alloc hl)
  · exact hu (leads_alloc hl)

theorem not_leads_alloc_size (hr : r < h.size) : ¬ Heap.Leads (h.alloc []).1 h.size r := by
  intro hl
  have hnil : refsOf (h.cell h.size) = [] := by
    rw [cell_of_size_le le_rfl]
    rfl
  exact hr.ne ((leads_alloc hl).eq_of_nil hnil)

theorem grow_acyclic (H : AcyclicOn G h) (hr : G r) (hs : r < h.size) :
    AcyclicOn G (grow h r key) := by
  refine AcyclicOn.putField (H.of_refs fun x q hq => cell_alloc h x ▸ hq) hr (fun u hu => ?_) key
  obtain rfl : h.size = u := Option.some.inj hu
  exact not_leads_alloc_size hs

theorem grow_forest (H : ForestOn G h) (hG : Heap.Fenced G h) (hr : G r) (hs : r < h.size) :
    ForestOn G (grow h r key) := by
  refine ForestOn.putField (H.of_cells (cell_alloc h)) hr (fun u hu => ?_) key
  obtain rfl : h.size = u := Option.some.inj hu
  refine ⟨not_leads_alloc_size hs, fun q hq hm => ?_⟩
  rw [cell_alloc] at hm
  exact Nat.lt_irrefl _ (hG.closed q hq _ hm).2

end grow

/-- A write of what does not lead to the cell that it lands in puts no table into itself. -/
theorem write_acyclic {G : Ref → Prop} : ∀ (p : Path) {h : Heap} {r : Ref} {v : Value},
    AcyclicOn G h → Heap.Fenced G h → h.There G r → v.In (h.There G) →
    (∀ u, v.ref? = some u → ¬ h.Leads u (landing h r p)) → AcyclicOn G (write h r p v).1
  | [], _, _, _, H, _, _, _, _ => H
  | [key], _, _, _, H, _, hr, _, apart => H.putField hr.1 apart key
  | key :: k :: rest, h, r, v, H, hG, hr, hv, apart => by
    by_cases hc : ∃ child, (h.cell r).get? (.text key) = some (.map child)
    · obtain ⟨child, hc⟩ := hc
      rw [landing_through hc] at apart
      rw [write_through hc]
      have hchild := hG.closed r hr.1 child (mem_refsOf_of_get? hc rfl)
      exact write_acyclic (k :: rest) H hG hchild hv apart
    · have hn := not_exists.1 hc
      rw [landing_fresh hn] at apart
      rw [write_grow hn]
      refine write_acyclic (k :: rest) (grow_acyclic H hr.1 hr.2) (grow_fenced hG hr.1)
        (grow_there hG) (fun q hq => (hv q hq).grown size_lt_grow.le) fun u hu => ?_
      -- from here on the write lands in the new table, to which nothing older leads
      rw [landing_of_empty (cell_grow_size hr.2)]
      exact not_leads_grow (apart u hu) fun hl =>
        Nat.lt_irrefl _ (hl.there hG (hv u hu)).2

theorem write_forest {G : Ref → Prop} : ∀ (p : Path) {h : Heap} {r : Ref} {v : Value},
    ForestOn G h → Heap.Fenced G h → h.There G r → v.ref? = none → ForestOn G (write h r p v).1
  | [], _, _, _, H, _, _, _ => H
  | [key], _, _, _, H, _, hr, hv => H.putField hr.1 (fun u hu => by simp [hv] at hu) key
  | key :: k :: rest, h, r, v, H, hG, hr, hv => by
    by_cases hc : ∃ child, (h.cell r).get? (.text key) = some (.map child)
    · obtain ⟨child, hc⟩ := hc
      rw [write_through hc]
      exact write_forest (k :: rest) H hG (hG.closed r hr.1 child (mem_refsOf_of_get? hc rfl)) hv
    · rw [write_grow (not_exists.1 hc)]
      exact write_forest (k :: rest) (grow_forest H hG hr.1 hr.2) (grow_fenced hG hr.1)
        (grow_there hG) hv

theorem leads_write {G : Ref → Prop} : ∀ (p : Path) {h : Heap} {r u : Ref}, p ≠ [] →
    Heap.Fenced G h → h.There G r →
      ∃ q ∈ refsOf (Heap.cell (write h r p (.map u)).1 (landing h r p)),
        Heap.Leads (write h r p (.map u)).1 q u
  | [], _, _, _, hp, _, _ => absurd rfl hp
  | [key], h, r, u, _, _, hr => by
    refine ⟨u, ?_, .refl _ u⟩
    change u ∈ refsOf (Heap.cell (h.setIfInBounds r _) r)
    rw [cell_setIfInBounds, if_pos ⟨rfl, hr.2⟩]
    exact mem_refsOf_of_get? Table.get?_put_self rfl
  | key :: k :: rest, h, r, u, _, hG, hr => by
    by_cases hc : ∃ child, (h.cell r).get? (.text key) = some (.map child)
    · obtain ⟨child, hc⟩ := hc
      rw [landing_through hc, write_through hc]
      exact leads_write (k :: rest) nofun hG (hG.closed r hr.1 child (mem_refsOf_of_get? hc rfl))
    · have hn := not_exists.1 hc
      rw [landing_fresh hn, write_grow hn]
      have hG' : Heap.Fenced G (grow h r key) := grow_fenced hG hr.1
      obtain ⟨q, hq, hqu⟩ := leads_write (k :: rest) (u := u) nofun hG' (grow_there hG)
      rw [landing_of_empty (cell_grow_size hr.2)] at hq
      refine ⟨h.size, ?_, (Leads.next (.refl _ _) hq).trans hqu⟩
      rw [cell_write_grow hr.2]
      exact mem_refsOf_of_get? Table.get?_put_self rfl

theorem walk_write {G : Ref → Prop} : ∀ (p : Path) {h : Heap} {r : Ref} (v : Value), p ≠ [] →
    AcyclicOn G h → Heap.Fenced G h → h.There G r → walk (write h r p v).1 (.map r) p = some v
  | [], _, _, _, hp, _, _, _ => absurd rfl hp
  | [key], h, r, v, _, _, _, hr => by
    have hcell : Heap.cell (write h r [key] v).1 r = (h.cell r).put (.text key) v := by
      change Heap.cell (h.setIfInBounds r _) r = _
      rw [cell_setIfInBounds, if_pos ⟨rfl, hr.2⟩]
    rw [walk, hcell, Table.get?_put_self]
    exact walk_nil _ v
  | key :: k :: rest, h, r, v, _, H, hG, hr => by
    by_cases hc : ∃ child, (h.cell r).get? (.text key) = some (.map child)
    · obtain ⟨child, hc⟩ := hc
      have hmem := mem_refsOf_of_get? hc rfl
      -- the cell is none that the write lands in, since that one is inside it
      have hne : r ≠ landing h child (k :: rest) := fun he =>
        H r hr.1 child hmem (he ▸ leads_landing (k :: rest) child)
      rw [write_through hc, walk, cell_write (k :: rest) v hr.2 hne, hc]
      exact walk_write (k :: rest) v (List.cons_ne_nil k rest) H hG (hG.closed r hr.1 child hmem)
    · rw [write_grow (not_exists.1 hc), walk, cell_write_grow hr.2, Table.get?_put_self]
      exact walk_write (k :: rest) v (List.cons_ne_nil k rest) (grow_acyclic H hr.1 hr.2)
        (grow_fenced hG hr.1) (grow_there hG)

/-- A write of what leads to the cell that it lands in puts that cell into itself. -/
theorem write_knot {G : Ref → Prop} {h : Heap} {r u : Ref} {p : Path} (hp : p ≠ [])
    (hG : Heap.Fenced G h) (hr : h.There G r) (hu : h.Leads u (landing h r p)) :
    ∃ q ∈ refsOf (Heap.cell (write h r p (.map u)).1 (landing h r p)),
      Heap.Leads (write h r p (.map u)).1 q (landing h r p) := by
  obtain ⟨q, hq, hqu⟩ := leads_write p (u := u) hp hG hr
  exact ⟨q, hq, hqu.trans (hu.off fun x hx hne => cell_write p _ hx hne)⟩

end Context

/-! ## What is made from data -/

namespace Context

open Heap

variable (h : Heap)

theorem empty_ordered : Ordered h.size (empty h).heap :=
  (ordered_size h).alloc List.nodup_nil (List.forall_mem_nil _)

theorem empty_loose : Loose h.size (empty h).heap h.size :=
  (ordered_size h).loose_alloc le_rfl (List.forall_mem_nil _)

theorem not_leads_loose {h : Heap} {n u x : Ref} (hG : Heap.Fenced (n ≤ ·) h) (hx : Loose n h x)
    (hu : n ≤ u) (hne : u ≠ x) : ¬ h.Leads u x := by
  intro hl
  have hin : n ≤ x ∧ x ≠ x := hl.closed (P := fun y => n ≤ y ∧ y ≠ x) ⟨hu, hne⟩ fun y hy q hq =>
    ⟨(hG.closed y hy.1 q hq).1, fun he => hx.2.2 y hy.1 (he ▸ hq)⟩
  exact hin.2 rfl

theorem loadData_forest (t : Table Datum) :
    ForestOn (h.size ≤ ·) ((empty h).loadData t).heap := by
  have hn : h.size ≤ (empty h).heap.size := (empty_loose h).2.1.le
  obtain ⟨H, hl, -, nodup, ht⟩ := holdEntries_ordered t (empty_ordered h) hn
  have hG : Heap.Fenced (h.size ≤ ·) ((empty h).heap.holdEntries t).1 :=
    (holdEntries_atop t (empty_fresh h).heap).1.new
  have hroot := hl _ (empty_loose h)
  have hne : ∀ u ∈ refsOf ((empty h).heap.holdEntries t).2, u ≠ h.size := fun u hu he =>
    Nat.not_le.2 (empty_loose h).2.1 (he ▸ (ht u hu).1)
  refine H.forest.setIfInBounds (fun u hu => ?_) nodup fun u hu q hq _ => (ht u hu).2.2.2 q hq
  exact not_leads_loose hG hroot (ht u hu).2.1 (hne u hu)

theorem loadDatum_empty (d : Datum) : (empty h).loadDatum d =
    if d.depth ≤ copyLimit then
      ((empty h).loadData (Table.update [] d).1, (Table.update [] d).2)
    else ((empty h).loadData [], some .tooDeep) := rfl

theorem loadDatum_forest (d : Datum) : ForestOn (h.size ≤ ·) ((empty h).loadDatum d).1.heap := by
  rw [loadDatum_empty]
  split_ifs
  · exact loadData_forest h _
  · exact loadData_forest h []

theorem root_loadDatum_empty (d : Datum) : ((empty h).loadDatum d).1.root = .map h.size := by
  rw [loadDatum_empty]
  split_ifs
  · rfl
  · rfl

end Context

namespace Store

variable {h : Heap} {d : Datum} {s : Store}

/-- A part of the data of a store; a part that is not there is empty. -/
def part (es : Table Datum) (name : String) : Datum :=
  (Table.get? es (.text name)).getD (.map [])

/-- The parts of a store that is made from data, each loaded on its own. -/
theorem ofDatum_parts (hs : ofDatum h d = .ok s) : ∃ es, d = .map es ∧
    readQuests (part es "quests") = .ok s.quests ∧
      Table.update [] (part es "flags") = (s.flags, none) ∧
        (empty h).context.loadDatum (part es "context") = (s.context, none) := by
  unfold ofDatum at hs
  rcases d with _ | _ | es | _
  case map =>
    refine ⟨es, rfl, ?_⟩
    unfold part
    simp only [restoreData] at hs
    rcases hq : readQuests ((Table.get? es (.text "quests")).getD (.map [])) with f | quests
    · rw [hq] at hs
      cases hs
    · rw [hq] at hs
      rcases hf : Table.update [] ((Table.get? es (.text "flags")).getD (.map [])) with
        ⟨flags, _ | f⟩
      · rw [hf] at hs
        rcases hc : (empty h).context.loadDatum
          ((Table.get? es (.text "context")).getD (.map [])) with ⟨context, _ | f⟩
        · rw [hc] at hs
          cases hs
          exact ⟨rfl, rfl, rfl⟩
        · rw [hc] at hs
          cases hs
      · rw [hf] at hs
        cases hs
  all_goals cases hs

/-- The tables of a store that is made from data stand in one place each. -/
theorem ofDatum_forest (hs : ofDatum h d = .ok s) :
    ∃ r, s.context.root = .map r ∧ s.context.Fenced (h.size ≤ ·) ∧
      s.context.heap.ForestOn (h.size ≤ ·) := by
  have hf := ofDatum_fresh hs
  obtain ⟨es, -, -, -, hc⟩ := ofDatum_parts hs
  have he : s.context = ((Context.empty h).loadDatum (part es "context")).1 :=
    (congrArg Prod.fst hc).symm
  refine ⟨h.size, ?_, ⟨hf.heap.new, hf.root⟩, ?_⟩
  · rw [he, Context.root_loadDatum_empty]
  · rw [he]
    exact Context.loadDatum_forest h _

end Store

namespace Effect

variable [Text.Halves]

/-- What an effect that is read writes is put into new cells, each of them in one place. -/
theorem ofDatum_ordered (h : Heap) (d : Datum) : (ofDatum h d).1.Ordered h.size := by
  rcases ofDatum_cases d with ⟨e, -, he⟩ | ⟨-, fs, path, op, -, -, he⟩
  · rw [he]
    exact Heap.ordered_size h
  · rw [he]
    exact (Heap.hold_ordered (.map fs) (Heap.ordered_size h) le_rfl).1

end Effect

end Colloquy
