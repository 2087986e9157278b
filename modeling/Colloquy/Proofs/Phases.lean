import Colloquy.Proofs.Chronicle
import Colloquy.Proofs.Undone

/-!
# Phases

The phase of a session and what it offers can be told from the outcomes of the calls on it, if each
of them returns or fails for a reason that is about dialogue (`Session.Told`). A call that returns
leaves the session over, with nothing on offer, or waiting at a node with what it shows on offer
(`step_leaves`); a call that exceeds its budget leaves it in error with nothing on offer, and any
other fault leaves it as it was (`step_stops`). So the phase is that of the last outcome that sets
one (`phaseAfter`), and a session that waits can always be gone on with.
-/

namespace Colloquy

section session
variable [Text.Halves]

namespace Session

/-! ## What outcomes tell -/

/-- The phase that an outcome sets: that of the result, and error for a chain that was too long.
Other faults set none. -/
def phaseSet? : Except Fault StepResult → Option Phase
  | .ok r => some r.phase
  | .error (.budgetExceeded _ _) => some .error
  | .error _ => none

/-- The phase that the last of some outcomes has set that sets one; idle while none has. -/
def phaseAfter (outcomes : List (Except Fault StepResult)) : Phase :=
  (outcomes.filterMap phaseSet?).getLast?.getD .idle

/-- What was returned last. -/
def lastReturned? (outcomes : List (Except Fault StepResult)) : Option StepResult :=
  (outcomes.filterMap Except.toOption).getLast?

variable {os : List (Except Fault StepResult)}

omit [Text.Halves] in
theorem phaseAfter_concat {o : Except Fault StepResult} {p : Phase} (h : phaseSet? o = some p) :
    phaseAfter (os ++ [o]) = p := by
  simp [phaseAfter, List.filterMap_append, h]

omit [Text.Halves] in
theorem phaseAfter_unset {o : Except Fault StepResult} (h : phaseSet? o = none) :
    phaseAfter (os ++ [o]) = phaseAfter os := by
  simp [phaseAfter, List.filterMap_append, h]

omit [Text.Halves] in
theorem lastReturned?_ok (r : StepResult) : lastReturned? (os ++ [.ok r]) = some r := by
  simp [lastReturned?, List.filterMap_append, Except.toOption]

omit [Text.Halves] in
theorem lastReturned?_error (f : Fault) :
    lastReturned? (os ++ [.error f]) = lastReturned? os := by
  simp [lastReturned?, List.filterMap_append, Except.toOption]

theorem outcomes_concat (c : Call) : ∀ (calls : List Call) (s : Session),
    s.outcomes (calls ++ [c]) = s.outcomes calls ++ [((s.steps calls).step c).2]
  | [], _ => rfl
  | d :: calls, s => by
    rw [List.cons_append, outcomes, outcomes_concat c calls]
    rfl

/-! ## Where calls leave a session -/

/-- A session waits at a node with what is shown of it on offer, and can be gone on with: something
is on offer, or the node is followed by another. -/
structure Waits (s : Session) (r : StepResult) (p : Presentation) (n : Node) : Prop where
  shown : r.presentation = some p
  presentation : s.presentation = some p
  found : s.tree.lookup s.current = .ok (some n)
  offered : s.offered.map (·.1) = p.choices
  goesOn : s.offered ≠ [] ∨ n.next ≠ .null

/-- What a call that returns leaves behind: a session that is over, or one that waits. -/
inductive Leaves (s : Session) (r : StepResult) : Prop
  | ended (phase : s.phase = .terminal) (told : r.phase = .terminal) (offered : s.offered = [])
  | waiting {p : Presentation} {n : Node} (phase : s.phase = .presenting)
      (told : r.phase = .presenting) (waits : s.Waits r p n)

namespace Leaves

variable {s : Session} {r : StepResult}

omit [Text.Halves] in
theorem phase (h : s.Leaves r) : s.phase = r.phase := by
  cases h with
  | ended phase told | waiting phase told => rw [phase, told]

omit [Text.Halves] in
theorem ne_resolving (h : s.Leaves r) : s.phase ≠ .resolving := by
  cases h with
  | ended phase | waiting phase =>
    rw [phase]
    exact nofun

end Leaves

theorem finish_leaves (s : Session) : s.finish.1.Leaves s.finish.2 := .ended rfl rfl rfl

omit [Text.Halves] in
/-- A session that settles at a node that it has found and shown is over just if nothing is on
offer there and no node follows. -/
theorem settle_leaves {s : Session} {n : Node} {p : Presentation}
    (presentation : s.presentation = some p) (found : s.tree.lookup s.current = .ok (some n))
    (offered : s.offered.map (·.1) = p.choices) (passed : List Presentation) :
    (s.settle n p passed).1.Leaves (s.settle n p passed).2 := by
  have phases : (s.settle n p passed).1.phase = (s.settle n p passed).2.phase := rfl
  by_cases hn : (p.choices.isEmpty && n.next.isNull) = true
  · have told : (s.settle n p passed).2.phase = .terminal := if_pos hn
    refine .ended (phases.trans told) told ?_
    rw [Bool.and_eq_true, List.isEmpty_iff, ← offered] at hn
    exact List.map_eq_nil_iff.1 hn.1
  · have told : (s.settle n p passed).2.phase = .presenting := if_neg hn
    refine .waiting (phases.trans told) told ⟨rfl, presentation, found, offered, ?_⟩
    rw [Bool.and_eq_true, List.isEmpty_iff, ← offered, not_and_or] at hn
    refine hn.imp (fun ho he => ho (List.map_eq_nil_iff.2 he)) fun hl he => hl ?_
    rw [he]
    rfl

theorem run_leaves {s : Session} {target : Datum} {r : StepResult}
    (h : (s.run target).2 = .ok r) : (s.run target).1.Leaves r := by
  obtain ⟨left, ps, s', last, -, he⟩ := run_cases s target
  generalize s.run target = o at he h ⊢
  cases he with
  | broken | unmeasured | overrun => cases h
  | absent =>
    obtain rfl := Except.ok.inj h
    exact .ended rfl rfl rfl
  | settled here =>
    obtain rfl := Except.ok.inj h
    obtain ⟨w, ⟨found, -, -⟩, rfl, rfl⟩ := arrive_some here
    exact settle_leaves rfl (Tree.lookup_id found) rfl _

theorem step_leaves {s : Session} {c : Call} {r : StepResult} (h : (s.step c).2 = .ok r) :
    (s.step c).1.Leaves r := by
  obtain ⟨s₁, -, he | ⟨-, he⟩⟩ := step_ok h
  · rw [he] at h ⊢
    exact run_leaves h
  · rw [he] at h ⊢
    obtain rfl := Except.ok.inj h
    exact finish_leaves s₁

/-! ## Runs of calls -/

/-- What some outcomes tell of a session. -/
structure Told (s : Session) (os : List (Except Fault StepResult)) : Prop where
  phase : s.phase = phaseAfter os
  atRest : s.phase ≠ .resolving
  closed : s.phase ≠ .presenting → s.offered = []
  waits : s.phase = .presenting → ∃ r p n, lastReturned? os = some r ∧ s.Waits r p n

omit [Text.Halves] in
theorem told_nil {s : Session} (idle : s.phase = .idle) (closed : s.offered = []) : s.Told [] where
  phase := idle
  atRest := by rw [idle]; exact nofun
  closed _ := closed
  waits hp := absurd (idle.symm.trans hp) nofun

/-- What is told of a session stays true with one call more that returns or fails for a reason that
is about dialogue. -/
theorem Told.step {s : Session} (told : s.Told os) {c : Call}
    (behaves : ∀ f, (s.step c).2 = .error f → f.isDialogue = true) :
    (s.step c).1.Told (os ++ [(s.step c).2]) := by
  rcases ho : (s.step c).2 with f | r
  · -- a fault other than the budget sets no phase, and leaves all as it was
    rcases step_stops ho (behaves f ho) with ⟨he, within⟩ | ⟨⟨chain, budget, rfl⟩, broken⟩
    · have unset : phaseSet? (.error f) = none := by
        cases f with
        | budgetExceeded chain budget => exact absurd rfl (within chain budget)
        | _ => rfl
      rw [he]
      refine ⟨told.phase.trans (phaseAfter_unset unset).symm, told.atRest, told.closed,
        fun hp => ?_⟩
      rw [lastReturned?_error]
      exact told.waits hp
    · have hp : ∀ p ≠ Phase.error, (s.step c).1.phase ≠ p := fun p hp => broken.phase ▸ hp.symm
      exact ⟨broken.phase.trans (phaseAfter_concat rfl).symm, hp _ nofun, fun _ => broken.offered,
        fun h => absurd h (hp _ nofun)⟩
  · have hl := step_leaves ho
    refine ⟨hl.phase.trans (phaseAfter_concat rfl).symm, hl.ne_resolving, fun hp => ?_,
      fun hp => ?_⟩
    · cases hl with
      | ended _ _ offered => exact offered
      | waiting phase => exact absurd phase hp
    · cases hl with
      | ended phase => exact absurd (phase.symm.trans hp) nofun
      | @waiting p n _ _ waits => exact ⟨r, p, n, lastReturned?_ok r, waits⟩

theorem steps_told {s₀ : Session} (idle : s₀.phase = .idle) (closed : s₀.offered = [])
    {calls : List Call} (behaves : s₀.Behaves calls) :
    (s₀.steps calls).Told (s₀.outcomes calls) := by
  induction calls using List.reverseRecOn with
  | nil => exact told_nil idle closed
  | append_singleton calls c ih =>
    obtain ⟨before, here, -⟩ := (behaves_append _ _ _).1 behaves
    rw [steps_append, outcomes_concat]
    exact (ih before).step here

/-- A session that is idle with nothing on offer, and on which calls are made that return or fail
for reasons about dialogue, is in the phase that the last of them has set that sets one. What is on
offer is on offer while it presents something: the choices of what was returned last, and if there
are none then another node follows the one where it stands. While it presents nothing, neither
choosing nor advancing does anything. -/
theorem steps_phase {s₀ : Session} (idle : s₀.phase = .idle) (closed : s₀.offered = [])
    {calls : List Call} (behaves : s₀.Behaves calls) :
    let s := s₀.steps calls
    (s.phase = phaseAfter (s₀.outcomes calls) ∧ s.phase ≠ .resolving) ∧
      (s.offered ≠ [] → s.phase = .presenting) ∧
      (s.phase = .presenting → ∃ r p n, lastReturned? (s₀.outcomes calls) = some r ∧
        r.presentation = some p ∧ s.presentation = some p ∧ s.offered.map (·.1) = p.choices ∧
        s.tree.lookup s.current = .ok (some n) ∧ (s.offered ≠ [] ∨ n.next ≠ .null)) ∧
      (s.phase = .idle ∨ s.phase = .terminal ∨ s.phase = .error →
        (∀ index, s.choose index = (s, .error (s.badIndex index 0))) ∧
          s.advance = (s, .error (.cannotAdvance s.phase))) := by
  intro s
  have told : s.Told (s₀.outcomes calls) := steps_told idle closed behaves
  refine ⟨⟨told.phase, told.atRest⟩, not_imp_comm.1 told.closed, fun hp => ?_, fun hs => ?_⟩
  · obtain ⟨r, p, n, last, waits⟩ := told.waits hp
    exact ⟨r, p, n, last, waits.shown, waits.presentation, waits.offered, waits.found,
      waits.goesOn⟩
  · have hp : s.phase ≠ .presenting := by
      rcases hs with hs | hs | hs <;> exact hs ▸ nofun
    exact ⟨choose_idle hp, advance_idle hp⟩

end Session

end session

namespace Session

attribute [local instance] Text.noHalves

/-- A session that has been at the well is in error, until it comes to the door again. -/
theorem steps_phase_byTheWell :
    let calls : List Call := [.start, .enter (.text "well"), .advance]
    byTheWell.phase = .idle ∧ byTheWell.offered = [] ∧ byTheWell.Behaves calls ∧
      byTheWell.Behaves (calls ++ [.start]) ∧ (byTheWell.steps calls).phase = .error ∧
      (byTheWell.steps calls).advance.2 = .error (.cannotAdvance .error) ∧
      ∃ r p, lastReturned? (byTheWell.outcomes (calls ++ [.start])) = some r ∧
        r.presentation = some p ∧ p.choices ≠ [] := by
  intro calls
  have spent : ((byTheWell.steps [.start]).step (.enter (.text "well"))).2 =
      .error (.budgetExceeded ["well", "well"] (.int 1)) := by decide +kernel
  have refused : ((byTheWell.steps [.start, .enter (.text "well")]).step .advance).2 =
      .error (.cannotAdvance .error) := by decide +kernel
  have again : byTheWell.Behaves (calls ++ [.start]) := by
    apply behaves_cons_ok (by decide +kernel)
    apply behaves_cons_error spent rfl
    apply behaves_cons_error refused rfl
    exact behaves_cons_ok (by decide +kernel) trivial
  have behaves : byTheWell.Behaves calls := ((behaves_append _ _ _).1 again).1
  have inError : (byTheWell.steps calls).phase = .error := by decide +kernel
  obtain ⟨-, -, -, ended⟩ := steps_phase rfl rfl behaves
  obtain ⟨-, -, waits, -⟩ := steps_phase rfl rfl again
  obtain ⟨r, p, n, last, shown, -, offered, -⟩ := waits (by decide +kernel)
  refine ⟨rfl, rfl, behaves, again, inError, ?_, r, p, last, shown, ?_⟩
  · rw [(ended (.inr (.inr inError))).2, inError]
  · rw [← offered]
    exact ne_of_beq_false (by decide +kernel)

end Session

end Colloquy
