import Colloquy.Proofs.Offer
import Colloquy.Proofs.Once
import Mathlib.Data.List.Forall2

/-!
# What the history tells

The history of a session names, one after the other, the nodes that its calls have shown: those
that a call passed on its way and the one it ended at (`StepResult.shown`). A run adds what it
shows (`run_history`), so does a call that returns (`step_history`), and a call that fails for a
reason that is about dialogue adds nothing, whether it was refused at once or taken back after
many hops (`history_of_fails`). So the history after a run of calls is that before it and what the
calls that returned have shown (`steps_history`).
-/

namespace Colloquy

section session
variable [Text.Halves]

namespace Session

/-- What a list of outcomes shows: nothing for a call that failed. -/
def shownIn : List (Except Fault StepResult) → List Presentation
  | [] => []
  | .ok r :: outcomes => r.shown ++ shownIn outcomes
  | .error _ :: outcomes => shownIn outcomes

/-- Nodes of a tree, each with what is shown of it: its own fields and some of its choices. -/
def Depicts (t : Tree) : List Node → List Presentation → Prop :=
  List.Forall₂ fun n p => n ∈ t.nodes ∧ ∃ offered, p = shownOf n offered

/-- One session has come from another by adding to the history the nodes that are shown. -/
def Tells (s s' : Session) (ps : List Presentation) : Prop :=
  ∃ ns, Depicts s.tree ns ps ∧ s'.history = s.history ++ ns.map (Datum.scalar ·.id)

namespace Tells

variable {s s₁ s₂ : Session} {ps qs : List Presentation}

theorem of_eq (h : s₁.history = s.history) : s.Tells s₁ [] :=
  ⟨[], .nil, by simp [h]⟩

theorem trans (ht : s₁.tree = s.tree) (h : s.Tells s₁ ps) (h' : s₁.Tells s₂ qs) :
    s.Tells s₂ (ps ++ qs) := by
  obtain ⟨ns, hd, hh⟩ := h
  obtain ⟨ms, hd', hh'⟩ := h'
  refine ⟨ns ++ ms, List.rel_append hd (ht ▸ hd'), ?_⟩
  rw [hh', hh, List.map_append, List.append_assoc]

/-- Where all ids are texts, the ids in the history are those that are shown. -/
theorem texts (texts : ∀ n ∈ s.tree.nodes, ∃ id, n.id = .text id) (h : s.Tells s₁ ps) :
    s₁.history = s.history ++ ps.map fun p => .text p.node := by
  obtain ⟨ns, hd, hh⟩ := h
  rw [hh]
  clear hh
  congr 1
  induction hd with
  | nil => rfl
  | @cons n p ns ps here _ ih =>
    obtain ⟨hn, offered, rfl⟩ := here
    obtain ⟨id, hid⟩ := texts n hn
    rw [List.map_cons, List.map_cons, ih, shownOf, Node.name, hid]
    rfl

end Tells

/-! ## Runs -/

theorem arrive_tells {s s' : Session} {target : Datum} {n : Node} {p : Presentation}
    (h : s.arrive target = (s', .ok (some (n, p)))) : s.Tells s' [p] := by
  obtain ⟨w, ⟨hf, -, -⟩, rfl, rfl⟩ := arrive_some h
  exact ⟨[n], .cons ⟨Tree.mem_of_lookup hf, _, rfl⟩ .nil, rfl⟩

theorem hops_tells {s s' : Session} {target last : Datum} {ps : List (Node × Presentation)}
    (h : Hops s target ps s' last) : s.Tells s' (ps.map (·.2)) := by
  induction h with
  | done s => exact .of_eq rfl
  | @hop s s₁ s₂ target last n p ps here _ _ ih =>
    have ht := (arrive_kept s target).tree
    rw [here] at ht
    exact (arrive_tells here).trans ht ih

theorem run_history {s : Session} {target : Datum} {r : StepResult}
    (h : (s.run target).2 = .ok r) : s.Tells (s.run target).1 r.shown := by
  obtain ⟨left, ps, s', last, hps, he⟩ := run_cases s target
  have hh := hops_tells hps
  have ht := (hops_kept hps).tree
  generalize s.run target = o at he h ⊢
  cases he with
  | broken => cases h
  | absent here =>
    obtain rfl := Except.ok.inj h
    obtain ⟨⟨js, rfl⟩, -⟩ := arrive_none here
    exact hh.trans ht (.of_eq rfl)
  | unmeasured => cases h
  | overrun => cases h
  | @settled s'' n p here stays =>
    obtain rfl := Except.ok.inj h
    have ha : s'.Tells s'' [p] := arrive_tells here
    exact hh.trans ht ha

/-! ## Calls -/

/-- A call that returns adds what it shows to the history. -/
theorem step_history {s : Session} {c : Call} {r : StepResult} (h : (s.step c).2 = .ok r) :
    s.Tells (s.step c).1 r.shown := by
  obtain ⟨s₁, hs, he⟩ := step_ok h
  obtain ⟨ht, hh, -, -⟩ := hs.kept
  rcases he with he | ⟨-, he⟩
  · rw [he] at h ⊢
    have hr : s.Tells (s₁.run (s.heading c)).1 ([] ++ r.shown) :=
      (Tells.of_eq hh).trans ht (run_history h)
    exact hr
  · rw [he] at h ⊢
    obtain rfl := Except.ok.inj h
    exact .of_eq hh

omit [Text.Halves] in
/-- A guarded call that fails as its chain is too long has its history taken back. -/
theorem guarded_history {s : Session} {o : Session × Except Fault StepResult} {f : Fault}
    (ho : ∀ f, o.2 = .error f → f.isDialogue = true → Overran o f)
    (h : (s.guarded o).2 = .error f) (hf : f.isDialogue = true) :
    (s.guarded o).1.history = s.history := by
  have hc := guarded_cases s o
  generalize s.guarded o = o' at hc h ⊢
  cases hc with
  | refused => rfl
  | kept _ within =>
    -- what is kept has not failed for want of budget, the one way to fail about dialogue
    obtain ⟨⟨chain, budget, rfl⟩, -⟩ := ho f h hf
    exact absurd h (within chain budget)
  | undone _ _ whole => rw [(undo_none whole).2]
  | stuck _ _ part =>
    obtain rfl := Except.error.inj h
    exact absurd hf (by simp [Store.restore_fault (undo_some part)])

/-- A call that fails for a reason that is about dialogue adds nothing to the history. -/
theorem history_of_fails {s : Session} {c : Call} {f : Fault} (h : (s.step c).2 = .error f)
    (hf : f.isDialogue = true) : (s.step c).1.history = s.history := by
  have hc := step_cases s c
  generalize s.step c = o at hc h ⊢
  cases hc with
  | runs => exact guarded_history (fun _ => run_fails) h hf
  | takes => exact guarded_history (fun _ => take_fails) h hf
  | finishes => rfl
  | refused => rfl

theorem behaves_cons_ok {s : Session} {c : Call} {calls : List Call}
    (h : (s.step c).2.isOk = true) (rest : (s.step c).1.Behaves calls) :
    s.Behaves (c :: calls) := by
  obtain ⟨r, hr⟩ := ok_of_isOk h
  refine ⟨fun f hf => ?_, rest⟩
  rw [hr] at hf
  cases hf

theorem behaves_cons_error {s : Session} {c : Call} {calls : List Call} {f : Fault}
    (h : (s.step c).2 = .error f) (hf : f.isDialogue = true) (rest : (s.step c).1.Behaves calls) :
    s.Behaves (c :: calls) := by
  refine ⟨fun g hg => ?_, rest⟩
  rw [h] at hg
  cases hg
  exact hf

theorem steps_tells : ∀ {calls : List Call} {s : Session}, s.Behaves calls →
    s.Tells (s.steps calls) (shownIn (s.outcomes calls))
  | [], _, _ => .of_eq rfl
  | c :: calls, s, ⟨here, rest⟩ => by
    have ht : (s.step c).1.tree = s.tree := tree_upheld.step s c
    have hr := steps_tells rest
    change s.Tells ((s.step c).1.steps calls) _
    rw [outcomes]
    rcases ho : (s.step c).2 with f | r
    · exact (Tells.of_eq (history_of_fails ho (here f ho))).trans ht hr
    · exact (step_history ho).trans ht hr

/-- The history after a run of calls, each of which returns or fails for a reason that is about
dialogue, is that before it and the ids of the nodes that are shown by the calls that return: those
they pass, and then the one they end at, if they end at one. -/
theorem steps_history {s : Session} {calls : List Call} (h : s.Behaves calls) :
    (∃ ns, Depicts s.tree ns (shownIn (s.outcomes calls)) ∧
      (s.steps calls).history = s.history ++ ns.map (Datum.scalar ·.id)) ∧
    ((∀ n ∈ s.tree.nodes, ∃ id, n.id = .text id) → (s.steps calls).history =
      s.history ++ (shownIn (s.outcomes calls)).map fun p => .text p.node) :=
  ⟨steps_tells h, fun texts => (steps_tells h).texts texts⟩

end Session

end session

namespace Session

attribute [local instance] Text.noHalves

/-- The session at the door with a well beside the house, a node that leads to itself. -/
def byTheWell : Session :=
  let well : Node := { id := .text "well", text := .null, speaker := .null, portrait := .null
                       choices := [], autoAdvance := .bool true, next := .text "well"
                       voiceLine := .null, guards := [], deeds := [], tags := []
                       priority := .null }
  { atTheDoor with
    tree := { atTheDoor.tree with nodes := well :: atTheDoor.tree.nodes }, budget := .int 1 }

/-- Door and hall are told, and the door again; the well is not, nor the choice that is refused. -/
theorem steps_history_byTheWell :
    let calls : List Call :=
      [.start, .choose (.int 0), .enter (.text "well"), .choose (.int 0), .start]
    byTheWell.Behaves calls ∧
      ((byTheWell.steps [.start, .choose (.int 0)]).step (.enter (.text "well"))).2 =
        .error (.budgetExceeded ["well", "well"] (.int 1)) ∧
      (byTheWell.steps calls).history = [.text "door", .text "hall", .text "door"] := by
  intro calls
  have spent : ((byTheWell.steps [.start, .choose (.int 0)]).step (.enter (.text "well"))).2 =
      .error (.budgetExceeded ["well", "well"] (.int 1)) := by decide +kernel
  have refused : ((byTheWell.steps [.start, .choose (.int 0), .enter (.text "well")]).step
      (.choose (.int 0))).2 = .error (.invalidChoice (.int 0) 0 (.text "well")) := by
    decide +kernel
  have hb : byTheWell.Behaves calls := by
    apply behaves_cons_ok (by decide +kernel)
    apply behaves_cons_ok (by decide +kernel)
    apply behaves_cons_error spent rfl
    apply behaves_cons_error refused rfl
    exact behaves_cons_ok (by decide +kernel) trivial
  have texts : ∀ n ∈ byTheWell.tree.nodes, ∃ id, n.id = .text id := by
    simp [byTheWell, atTheDoor]
  refine ⟨hb, spent, ?_⟩
  rw [(steps_history hb).2 texts]
  decide +kernel

end Session

end Colloquy
