import Colloquy.Proofs.Untouched

/-!
# What trees and sessions hold

A tree holds the tables that its effects write, with all that is reached from them (`Tree.Holds`).
It is the same as data while these are (`Tree.toDatum_same`). A session holds what its context and
its tree refer to (`Session.Holds`), and goes on holding that and what it has got since
(`Session.Inside.step`).
-/

namespace Colloquy

/-! ## What is reached -/

namespace Heap

/-- The cells that are reached from some references. -/
inductive Below (h : Heap) (A : Ref → Prop) : Ref → Prop
  | here {r : Ref} (hr : A r) : Below h A r
  | step {r q : Ref} (hr : Below h A r) (hq : q ∈ refsOf (h.cell r)) : Below h A q

/-- All references lead to cells that are there. -/
def Tight (h : Heap) : Prop := ∀ r, ∀ q ∈ refsOf (h.cell r), q < h.size

theorem There.old {G : Ref → Prop} {h : Heap} {r : Ref}
    (hr : h.There (fun r => G r ∨ h.size ≤ r) r) : G r := hr.1.resolve_right (Nat.not_le.2 hr.2)

namespace Below

variable {h : Heap} {A B : Ref → Prop} {r : Ref}

/-- What some references lead to only is all that is reached from them. -/
theorem within (hr : h.Below A r) (hA : ∀ r, A r → B r)
    (hB : ∀ r, B r → ∀ q ∈ refsOf (h.cell r), B q) : B r := by
  induction hr with
  | here hr => exact hA _ hr
  | step _ hq ih => exact hB _ ih _ hq

theorem mono (hr : h.Below A r) (hA : ∀ r, A r → B r) : h.Below B r :=
  hr.within (fun _ hr => .here (hA _ hr)) fun _ hr _ => .step hr

theorem bound (hr : h.Below A r) (tight : h.Tight) (hA : ∀ r, A r → r < h.size) : r < h.size :=
  hr.within hA fun _ _ => tight _

end Below

end Heap

/-! ## What a tree holds -/

/-- The cells of the tables that the effects of a tree write. -/
def Tree.Holds (t : Tree) (h : Heap) : Ref → Prop :=
  h.Below fun r => ∃ e ∈ t.effects, e.ref? = some r

theorem Heap.view_same {N : Ref → Prop} {h h' : Heap}
    (closed : ∀ r, N r → ∀ q ∈ refsOf (h.cell r), N q) (same : Same N h h')
    {v : Value} (hv : v.In N) : h'.view v = h.view v := by
  have H : Repeats h h' id N := {
    cell := fun r hr => by
      simp only [Value.rename_id, id, List.map_id']
      exact same r hr
    closed := closed
    inj := fun _ _ _ _ he => he }
  have he := H.view_eq hv
  rwa [Value.rename_id] at he

/-- A tree is the same as data while what it holds is. -/
theorem Tree.toDatum_same {t : Tree} {h h' : Heap} (same : Heap.Same (t.Holds h) h h') :
    t.toDatum h' = t.toDatum h := by
  have hdeed : ∀ d : Deed, d.effect ∈ t.effects → d.view h' = d.view h := by
    intro d hd
    unfold Deed.view
    split
    · rename_i r hs he
      have hv : (Value.map r).In (t.Holds h) := fun q hq => .here ⟨_, hd, by rw [he]; exact hq⟩
      rw [Heap.view_same (fun _ hr _ => .step hr) same hv]
    · rfl
  have hchoice : ∀ c : Choice, (∀ e ∈ c.effects, e ∈ t.effects) → c.toDatum h' = c.toDatum h := by
    intro c hc
    have hds : c.deeds.map (·.view h') = c.deeds.map (·.view h) :=
      List.map_congr_left fun d hd => hdeed d (hc _ (List.mem_map_of_mem hd))
    rw [Choice.toDatum, Choice.toDatum, hds]
  have hnode : ∀ n ∈ t.nodes, n.toDatum h' = n.toDatum h := by
    intro n hn
    have hcs : n.choices.map (·.toDatum h') = n.choices.map (·.toDatum h) :=
      List.map_congr_left fun c hc => hchoice c fun e he => mem_effects_of_choice hn hc he
    have hds : n.deeds.map (·.view h') = n.deeds.map (·.view h) :=
      List.map_congr_left fun d hd =>
        hdeed d (mem_effects_of_node hn (List.mem_map_of_mem hd))
    rw [Node.toDatum, Node.toDatum, hcs, hds]
  have hns : (t.nodes.map fun n => (n.id, n.toDatum h')) =
      t.nodes.map fun n => (n.id, n.toDatum h) :=
    List.map_congr_left fun n hn => congrArg (Prod.mk n.id) (hnode n hn)
  rw [toDatum, toDatum, hns]

namespace Session

/-! ## What a session holds -/

/-- The cells of its context and of its tree. -/
def Holds (s : Session) : Ref → Prop :=
  s.store.context.heap.Below fun r =>
    s.store.context.root.ref? = some r ∨ ∃ e ∈ s.tree.effects, e.ref? = some r

/-- A session refers to cells that are there only, its tree does not hold the table of its context,
and what it offers are choices of its tree. -/
structure Stands (s : Session) : Prop where
  tight : s.store.context.heap.Tight
  root : ∀ r, s.store.context.root.ref? = some r →
    r < s.store.context.heap.size ∧ ¬ s.tree.Holds s.store.context.heap r
  held : ∀ e ∈ s.tree.effects, ∀ r, e.ref? = some r → r < s.store.context.heap.size
  offered : ∀ c ∈ s.offered, ∀ e ∈ c.1.effects, e ∈ s.tree.effects

/-- Cells that are there and lead to each other only, with all that a session refers to. -/
structure Inside (G : Ref → Prop) (s : Session) : Prop where
  bound : ∀ r, G r → r < s.store.context.heap.size
  fenced : s.Fenced fun r => G r ∨ s.store.context.heap.size ≤ r

/-- Some cells and those that a session has got since. -/
def Since (G : Ref → Prop) (s s' : Session) (r : Ref) : Prop :=
  G r ∨ s.store.context.heap.size ≤ r ∧ r < s'.store.context.heap.size

theorem le_iff_lt_or_le {m n r : ℕ} (h : m ≤ n) : m ≤ r ↔ (m ≤ r ∧ r < n) ∨ n ≤ r := by omega

/-- The same session on another heap. -/
def onHeap (h : Heap) (s : Session) : Session :=
  { s with world := { s.world with
    store := { s.world.store with context := { s.world.store.context with heap := h } } } }

section inside

variable {G : Ref → Prop} {s : Session}

/-- What a session refers to is still there when others have written to the heap elsewhere. -/
theorem Inside.onHeap (hs : s.Inside G) {h : Heap} (same : Heap.Same G s.store.context.heap h)
    (grown : s.store.context.heap.size ≤ h.size) : (s.onHeap h).Inside G := by
  have there : ∀ r, s.store.context.heap.There (fun r => G r ∨ s.store.context.heap.size ≤ r) r →
      h.There (fun r => G r ∨ h.size ≤ r) r := fun r hr =>
    ⟨.inl hr.old, hr.2.trans_le grown⟩
  refine ⟨fun r hr => (hs.bound r hr).trans_le grown, ⟨⟨⟨?_, fun _ => .inr⟩, ?_⟩, ?_, ?_⟩⟩
  · rintro r (hr | hr) q hq
    · have hq : q ∈ Heap.refsOf (h.cell r) := hq
      rw [same r hr] at hq
      exact there q (hs.fenced.context.heap.closed r (.inl hr) q hq)
    · rw [Heap.cell_of_size_le hr] at hq
      exact absurd hq List.not_mem_nil
  · exact fun r hr => there r (hs.fenced.context.root r hr)
  · exact fun e he r hr => there r (hs.fenced.tree e he r hr)
  · exact fun c hc e he r hr => there r (hs.fenced.offered c hc e he r hr)

theorem Stands.inside (hs : s.Stands) : s.Inside s.Holds := by
  have hA : ∀ r, (s.store.context.root.ref? = some r ∨ ∃ e ∈ s.tree.effects, e.ref? = some r) →
      r < s.store.context.heap.size := by
    rintro r (hr | ⟨e, he, hr⟩)
    · exact (hs.root r hr).1
    · exact hs.held e he r hr
  have hb : ∀ r, s.Holds r → r < s.store.context.heap.size := fun r hr => hr.bound hs.tight hA
  have there : ∀ r, s.Holds r → s.store.context.heap.There
      (fun r => s.Holds r ∨ s.store.context.heap.size ≤ r) r := fun r hr => ⟨.inl hr, hb r hr⟩
  have htree : ∀ e ∈ s.tree.effects, ∀ r, e.ref? = some r → s.Holds r := fun e he r hr =>
    .here (.inr ⟨e, he, hr⟩)
  refine ⟨hb, ⟨⟨⟨?_, fun _ => .inr⟩, ?_⟩, ?_, ?_⟩⟩
  · rintro r (hr | hr) q hq
    · exact there q (.step hr hq)
    · rw [Heap.cell_of_size_le hr] at hq
      exact absurd hq List.not_mem_nil
  · exact fun r hr => there r (.here (.inl hr))
  · exact fun e he r hr => there r (htree e he r hr)
  · exact fun c hc e he r hr => there r (htree e (hs.offered c hc e he) r hr)

theorem Inside.step [Text.Halves] (hs : s.Inside G) (c : Call) :
    (s.step c).1.Inside (Since G s (s.step c).1) where
  bound r hr := hr.elim (fun hr => (hs.bound r hr).trans_le (size_upheld.step s c).1) (·.2)
  fenced := by
    have hf : (fun r => Since G s (s.step c).1 r ∨ (s.step c).1.store.context.heap.size ≤ r) =
        fun r => G r ∨ s.store.context.heap.size ≤ r := by
      funext r
      rw [Since, or_assoc, ← le_iff_lt_or_le (size_upheld.step s c).1]
    rw [hf]
    exact ((fenced_upheld _).step s c hs.fenced).1

end inside

end Session

end Colloquy
