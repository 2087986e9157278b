import Colloquy.Proofs.Growth
import Colloquy.Proofs.Outcome

/-!
# A chain that is too long leaves no trace

The context of a store grows with every part of a call (`grown_upheld`), so a sound one stays
sound, and restoring it gives back what it showed before the call (`Store.toDatum_restore`). A
call that exceeds the budget is undone whole (`step_undone`), and until a node is entered again no
choice is taken and nothing goes on (`choose_idle`, `advance_idle`).
-/

namespace Colloquy

/-! ## What is restored -/

namespace Context

/-- Loading a context into one that has a table where it has one fails only without tables. -/
theorem load_cases {c src : Context} (hr : c.root.ref? = src.root.ref?) :
    (∃ r q, c.root = .map r ∧ src.root = .map q ∧ (c.load src).2 = none) ∨
      (c.load src).2 = some .noFields := by
  rcases hc : c.root with _ | _ | r
  · right
    simp only [load, hc, loadDatum]
  · right
    simp only [load, hc, loadDatum]
  · rcases hs : src.root with _ | _ | q
    · rw [hc, hs] at hr
      cases hr
    · rw [hc, hs] at hr
      cases hr
    · left
      exact ⟨r, q, rfl, rfl, by simp only [load, hc, hs]⟩

end Context

namespace Store

theorem restore_context (s old : Store) :
    (s.restore old).1.context = (s.context.load old.context).1 := by
  unfold restore
  split
  · rename_i hl
    rw [hl]
  · rename_i hl
    rw [hl]

/-- A store that was restored from one whose context it has grown from shows what that one does. -/
theorem toDatum_restore {s old : Store} (ho : old.context.Sound) (g : old.context.Grown s.context)
    (h : (s.restore old).2 = none) : (s.restore old).1.toDatum = old.toDatum := by
  have hl : (s.restore old).1 = ⟨old.flags, (s.context.load old.context).1, old.quests⟩ := by
    unfold restore at h ⊢
    split at h
    · rename_i hl
      rw [hl]
    · exact absurd h nofun
  rcases Context.load_cases g.root with ⟨r, q, hr, hq, -⟩ | hf
  · have hv := Context.view_load hr ((ho.grown g).root r (by rw [hr]; rfl)) hq (ho.keyed q)
    rw [hl]
    simp only [toDatum, hv]
  · unfold restore at h
    split at h
    · rename_i hn
      rw [hn] at hf
      exact absurd hf nofun
    · exact absurd h nofun

end Store

theorem Fault.ne_budgetExceeded {f : Fault} (hf : f.isDialogue = false) (chain : List String)
    (budget : Datum) : f ≠ .budgetExceeded chain budget := by
  rintro rfl
  exact absurd hf nofun

/-! ## Stores under way -/

section session
variable [Text.Halves]

theorem Tree.visit_grown (t : Tree) (w : World) (target : Datum) :
    w.store.context.Grown (t.visit w target).1.store.context := by
  unfold visit
  split
  · exact .refl _
  · exact .refl _
  · rename_i n _
    split
    · exact .refl _
    · have hg := Effect.applyAll_grown n.effects w
      split <;> rename_i he <;> rwa [he] at hg
    · exact .refl _

namespace Session

theorem arrive_store (s : Session) (target : Datum) :
    (s.arrive target).1.store = (s.tree.visit s.world target).1.store := by
  have hc := arrive_cases s target
  generalize s.arrive target = o at hc ⊢
  cases hc with
  | failed hv | nowhere hv | unclear hv | shown hv =>
    rw [hv]
    rfl

theorem arrive_grown (s : Session) (target : Datum) :
    s.store.context.Grown (s.arrive target).1.store.context := by
  rw [arrive_store]
  exact s.tree.visit_grown s.world target

theorem hops_grown {s s' : Session} {target last : Datum} {ps : List (Node × Presentation)}
    (h : Hops s target ps s' last) : s.store.context.Grown s'.store.context := by
  induction h with
  | done s => exact .refl _
  | @hop s s₁ s₂ target last n p ps here _ _ ih =>
    have hg := arrive_grown s target
    rw [here] at hg
    exact hg.trans ih

theorem run_grown (s : Session) (target : Datum) :
    s.store.context.Grown (s.run target).1.store.context := by
  obtain ⟨left, ps, s', last, hps, he⟩ := run_cases s target
  have hg := arrive_grown s' last
  refine (hops_grown hps).trans ?_
  generalize s.run target = o at he ⊢
  cases he with
  | broken here | absent here | unmeasured here | overrun here | settled here =>
    rw [here] at hg
    exact hg

theorem resolve_store (s : Session) (index : ℕ) (c : Choice × ℕ) :
    (s.resolve index c).1.store = (Effect.applyAll s.world c.1.effects).1.store := by
  unfold resolve
  rcases Effect.applyAll s.world c.1.effects with ⟨w, _ | f⟩
  · rfl
  · rfl

omit [Text.Halves] in
theorem undo_context (s before : Session) :
    (s.undo before).1.store.context = (s.store.context.load before.store.context).1 := by
  rw [← Store.restore_context]
  unfold undo
  split
  · rename_i hr
    rw [hr]
    rfl
  · rename_i hr
    rw [hr]
    rfl

/-- A sound context has grown after any part of a call. -/
theorem grown_upheld : Upheld fun s s' : Session =>
    s.store.context.Sound → s.store.context.Grown s'.store.context where
  refl s _ := .refl _
  trans h h' hs := (h hs).trans (h' (hs.grown (h hs)))
  arrive s target _ := arrive_grown s target
  finish s _ := .refl _
  settle s _ _ _ _ := .refl _
  overrun s _ _ := .refl _
  resolve s index c _ _ := by
    rw [resolve_store]
    exact Effect.applyAll_grown _ _
  undo h hs := by
    rw [undo_context]
    exact (h hs).trans (Context.load_grown hs.keyed (congrArg Option.isSome (h hs).root))

/-- The context of a session stays sound, whatever the outcomes of the calls on it. -/
theorem steps_sound {s : Session} (hs : s.store.context.Sound) (calls : List Call) :
    (s.steps calls).store.context.Sound :=
  hs.grown (grown_upheld.steps calls s hs)

/-! ## Calls that run out of budget -/

/-- What is left of a session after a call that ran out of budget. -/
structure Undone (s s' : Session) : Prop where
  store : s'.store.toDatum = s.store.toDatum
  history : s'.history = s.history
  onceTaken : s'.onceTaken = s.onceTaken
  broken : s'.Broken

omit [Text.Halves] in
theorem guarded_over {s : Session} {o : Session × Except Fault StepResult} {budget : Datum}
    {chain : List String} (hs : s.store.context.Sound)
    (hg : s.store.context.Grown o.1.store.context)
    (hb : ∀ chain budget, o.2 = .error (.budgetExceeded chain budget) → o.1.Broken)
    (h : (s.guarded o).2 = .error (.budgetExceeded chain budget)) : s.Undone (s.guarded o).1 := by
  have hc := guarded_cases s o
  generalize s.guarded o = o' at hc h ⊢
  cases hc with
  | refused hk =>
    obtain ⟨rfl, -⟩ := snapshot_refused hk
    cases h
  | kept _ hn => exact absurd h (hn chain budget)
  | undone _ ho hu =>
    obtain ⟨hr, he⟩ := undo_none hu
    obtain ⟨hp, hf⟩ := hb _ _ ho
    rw [he]
    exact ⟨Store.toDatum_restore hs hg hr, rfl, rfl, hp, hf⟩
  | stuck _ ho hp =>
    have hf := Store.restore_fault (undo_some hp)
    exact absurd (Except.error.inj h) (Fault.ne_budgetExceeded hf chain budget)

/-- A call that exceeds the budget leaves the store, the history and the choices taken once as
they were. -/
theorem step_undone {s : Session} {c : Call} {budget : Datum} {chain : List String}
    (hs : s.store.context.Sound) (h : (s.step c).2 = .error (.budgetExceeded chain budget)) :
    s.Undone (s.step c).1 := by
  have hc := step_cases s c
  generalize s.step c = o at hc h ⊢
  cases hc with
  | runs =>
    exact guarded_over hs (grown_upheld.run s _ hs) (fun _ _ h => (run_fails h rfl).broken) h
  | @takes _ i c _ hi =>
    have hg := grown_upheld.take s i c (mem_offered hi) hs
    exact guarded_over hs hg (fun _ _ h => (take_fails h rfl).broken) h
  | finishes => cases h
  | refused within => exact absurd (Except.error.inj h) (within chain budget)

/-! ## Until a node is entered again -/

/-- Whether a call enters a node that it names. -/
def Call.enters : Call → Bool
  | .start | .enter _ => true
  | _ => false

theorem choose_idle {s : Session} (hp : s.phase ≠ .presenting) (index : Datum) :
    s.choose index = (s, .error (s.badIndex index 0)) := by
  unfold choose
  rw [if_pos (.inl hp)]

theorem advance_idle {s : Session} (hp : s.phase ≠ .presenting) :
    s.advance = (s, .error (.cannotAdvance s.phase)) := by
  unfold advance
  rw [if_pos hp]

/-- A session that is not presenting anything stays so, with its store, its history and the choices
taken once, as long as no node is entered. -/
theorem steps_idle : ∀ (calls : List Call) {s : Session}, s.phase ≠ .presenting →
    (∀ c ∈ calls, c.enters = false) → (s.steps calls).phase ≠ .presenting ∧
      (s.steps calls).store = s.store ∧ (s.steps calls).history = s.history ∧
        (s.steps calls).onceTaken = s.onceTaken
  | [], s, hp, _ => ⟨hp, rfl, rfl, rfl⟩
  | c :: calls, s, hp, hc => by
    rw [List.forall_mem_cons] at hc
    have ih := steps_idle calls (s := (s.step c).1)
    cases c with
    | start => cases hc.1
    | enter node => cases hc.1
    | choose index =>
      simp only [step, choose_idle hp] at ih
      simpa only [steps, List.foldl_cons, step, choose_idle hp] using ih hp hc.2
    | advance =>
      simp only [step, advance_idle hp] at ih
      simpa only [steps, List.foldl_cons, step, advance_idle hp] using ih hp hc.2
    | end_ =>
      have ht : (s.step .end_).1.phase = .terminal := rfl
      exact ih (by rw [ht]; decide) hc.2

end Session

end session

namespace Session

attribute [local instance] Text.noHalves

/-- A session at a choice that leads into a node that leads to itself. -/
def beforeLoop : Session :=
  let loop : Node := { id := .text "loop", text := .null, speaker := .null, portrait := .null
                       choices := [], autoAdvance := .bool true, next := .text "loop"
                       voiceLine := .null, guards := [], tags := [], priority := .null
                       deeds := [⟨.null, .setFlag "met" true⟩, ⟨.null, .moveQuest "way" .start⟩,
                         ⟨.null, .write "hero.gold" .add (.value (.scalar (.int 5)))⟩] }
  let enter : Choice := { text := .null, goto := .text "loop", guards := [], priority := .null
                          deeds := [⟨.null, .toggleFlag "met"⟩], once := true, requirements := [] }
  { tree := { id := .text "t", nodes := [loop] }
    world := { store := .empty #[] }
    budget := .int 1, phase := .presenting, current := .text "hub", offered := [(enter, 0)] }

end Session

end Colloquy
