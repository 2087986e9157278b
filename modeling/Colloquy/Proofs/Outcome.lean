import Colloquy.Proofs.Arrival

/-!
# How a call ends

A call that returns has set out in some session (`SetsOut`): as it was called, or after the effects
of the choice that it takes. From there it runs to where it heads (`heading`), or finishes if it
heads nowhere (`step_ok`). A call that fails for a reason that is about dialogue has done nothing
or has left the session in error, because its chain was too long (`step_fails`).
-/

namespace Colloquy

variable [Text.Halves]

namespace Session

omit [Text.Halves] in
theorem ok_of_isOk {α : Type} : ∀ {o : Except Fault α}, o.isOk = true → ∃ a, o = .ok a
  | .error _, h => absurd h nofun
  | .ok a, _ => ⟨a, rfl⟩

/-- The effects of the choice that a call takes. -/
def chosen (s : Session) (c : Call) : List Effect := ((s.taken? c).map (·.effects)).getD []

omit [Text.Halves] in
theorem chosen_eq {s : Session} {index : Datum} {i : ℕ} {c : Choice × ℕ}
    (h : s.offeredAt? index = some (i, c)) : s.chosen (.choose index) = c.1.effects := by
  simp [chosen, taken?, h]

omit [Text.Halves] in
/-- The effects that a call takes by choice are those of a choice on offer. -/
theorem mem_chosen {s : Session} {c : Call} {e : Effect} (he : e ∈ s.chosen c) :
    ∃ o ∈ s.offered, e ∈ o.1.effects := by
  cases c with
  | choose index =>
    rcases hi : s.offeredAt? index with _ | ⟨i, o⟩
    · rw [chosen, taken?, hi] at he
      exact absurd he List.not_mem_nil
    · rw [chosen_eq hi] at he
      exact ⟨o, mem_offered hi, he⟩
  | start | enter | advance | end_ => exact absurd he List.not_mem_nil

omit [Text.Halves] in
theorem heading_eq {s : Session} {index : Datum} {i : ℕ} {c : Choice × ℕ}
    (h : s.offeredAt? index = some (i, c)) : s.heading (.choose index) = c.1.goto := by
  simp [heading, taken?, h]

theorem SetsOut.kept {s s₁ : Session} {c : Call} (h : SetsOut s c s₁) :
    s₁.tree = s.tree ∧ s₁.history = s.history ∧ s₁.budget = s.budget ∧ s₁.current = s.current := by
  cases h with
  | start | enter | advance | end_ => exact ⟨rfl, rfl, rfl, rfl⟩
  | choose => exact ⟨rfl, rfl, rfl, rfl⟩

/-- A call sets out where the effects of the choice that it takes have been applied, without
fault. -/
theorem SetsOut.effects {s s₁ : Session} {c : Call} (h : SetsOut s c s₁) :
    ∃ js, Effect.applyAll s.world (s.chosen c) = ({ s₁.world with journal := js }, none) := by
  cases h with
  | start | enter | advance | end_ => exact ⟨s.world.journal, rfl⟩
  | choose _ hi he =>
    rw [chosen_eq hi, he]
    exact ⟨_, rfl⟩

/-- A call that returns has run from where it set out to where it heads, or has finished. -/
theorem step_ok {s : Session} {c : Call} {r : StepResult} (h : (s.step c).2 = .ok r) :
    ∃ s₁, SetsOut s c s₁ ∧ (s.step c = s₁.run (s.heading c) ∨
      s.heading c = .null ∧ s.step c = (s₁.finish.1, .ok s₁.finish.2)) := by
  have hc := step_cases s c
  generalize s.step c = o at hc h ⊢
  cases hc with
  | runs out => exact ⟨s, out, .inl (guarded_ok h)⟩
  | @takes index i c ho hi =>
    have hg := guarded_ok h
    rw [hg] at h ⊢
    rw [heading_eq hi]
    have ht := take_cases s i c
    generalize s.take i c = o at ht h ⊢
    cases ht with
    | broken => cases h
    | finished ha hn => exact ⟨_, .choose ho hi ha, .inr ⟨hn, rfl⟩⟩
    | going ha _ => exact ⟨_, .choose ho hi ha, .inl rfl⟩
  | finishes out nowhere => exact ⟨s, out, .inr ⟨nowhere, rfl⟩⟩
  | refused => cases h

omit [Text.Halves] in
theorem offeredAt?_eq {s : Session} {i : ℕ} {c : Choice × ℕ} (h : s.offered[i]? = some c) :
    s.offeredAt? (.int i) = some (i, c) := by
  change (s.offered[i]?).map (fun c => (i, c)) = some (i, c)
  rw [h]
  rfl

/-- A call by an index sets out with the choice among those taken once, if it is one of them. -/
theorem SetsOut.onceTaken {s s₁ : Session} {i : ℕ} {c : Choice × ℕ}
    (h : SetsOut s (.choose (.int i)) s₁) (hi : s.offered[i]? = some c) : s₁.onceTaken =
      if c.1.once then ChoiceKey.addTo s.onceTaken (s.keyOf s.currentId c.2) else s.onceTaken := by
  cases h with
  | choose _ hi' _ =>
    rw [offeredAt?_eq hi] at hi'
    obtain ⟨rfl, rfl⟩ := Prod.mk.inj (Option.some.inj hi')
    rfl

theorem choose_onceTaken {s : Session} {i : ℕ} {c : Choice × ℕ} {r : StepResult}
    (hi : s.offered[i]? = some c) (h : (s.choose (.int i)).2 = .ok r) :
    (s.choose (.int i)).1.onceTaken =
      if c.1.once then ChoiceKey.addTo s.onceTaken (s.keyOf s.currentId c.2) else s.onceTaken := by
  obtain ⟨s₁, hs, he⟩ := step_ok (c := .choose (.int i)) h
  rw [← hs.onceTaken hi]
  rcases he with he | ⟨-, he⟩
  · exact (congrArg (·.1.onceTaken) he).trans (run_onceTaken s₁ _)
  · exact congrArg (·.1.onceTaken) he

/-- What each of a list of calls comes to. -/
def outcomes : Session → List Call → List (Except Fault StepResult)
  | _, [] => []
  | s, c :: calls => (s.step c).2 :: outcomes (s.step c).1 calls

/-! ## Calls that fail -/

/-- A session in error with nothing on offer. -/
structure Broken (s : Session) : Prop where
  phase : s.phase = .error
  offered : s.offered = []

/-- A call broke off because its chain was too long. -/
structure Overran (o : Session × Except Fault StepResult) (f : Fault) : Prop where
  fault : ∃ chain budget, f = .budgetExceeded chain budget
  broken : o.1.Broken

/-- Of the faults of a run only one is about dialogue. -/
theorem run_fails {s : Session} {target : Datum} {f : Fault} (h : (s.run target).2 = .error f)
    (hf : f.isDialogue = true) : Overran (s.run target) f := by
  obtain ⟨left, ps, s', last, -, he⟩ := run_cases s target
  generalize s.run target = o at he h ⊢
  cases he with
  | broken here =>
    obtain rfl := Except.error.inj h
    exact absurd hf (by simp [arrive_error (congrArg Prod.snd here)])
  | absent => exact absurd h nofun
  | unmeasured =>
    obtain rfl := Except.error.inj h
    exact absurd hf nofun
  | overrun =>
    obtain rfl := Except.error.inj h
    exact ⟨⟨_, _, rfl⟩, rfl, rfl⟩
  | settled => exact absurd h nofun

theorem take_fails {s : Session} {index : ℕ} {c : Choice × ℕ} {f : Fault}
    (h : (s.take index c).2 = .error f) (hf : f.isDialogue = true) :
    Overran (s.take index c) f := by
  have hc := take_cases s index c
  generalize s.take index c = o at hc h ⊢
  cases hc with
  | broken he =>
    obtain rfl := Except.error.inj h
    exact absurd hf (by simp [Effect.applyAll_fault (congrArg Prod.snd he)])
  | finished => exact absurd h nofun
  | going => exact run_fails h hf

omit [Text.Halves] in
theorem guarded_fails {s : Session} {o : Session × Except Fault StepResult} {f : Fault}
    (ho : ∀ f, o.2 = .error f → f.isDialogue = true → Overran o f)
    (h : (s.guarded o).2 = .error f) (hf : f.isDialogue = true) : Overran (s.guarded o) f := by
  have hc := guarded_cases s o
  generalize s.guarded o = o' at hc h ⊢
  cases hc with
  | refused hk =>
    obtain ⟨rfl, -⟩ := snapshot_refused hk
    obtain rfl := Except.error.inj h
    cases hf
  | kept => exact ho f h hf
  | undone _ hb =>
    obtain rfl := Except.error.inj h
    obtain ⟨-, hp, -, hf⟩ := undo_kept o.1 s
    obtain ⟨hfault, hphase, hoffered⟩ := ho _ hb rfl
    exact ⟨hfault, hp.trans hphase, hf.trans hoffered⟩
  | stuck _ _ hp =>
    have hd := Store.restore_fault (undo_some hp)
    obtain rfl := Except.error.inj h
    exact absurd hf (by simp [hd])

/-- A fault about dialogue leaves a session as it was, or breaks its chain off. -/
theorem step_stops {s : Session} {c : Call} {f : Fault} (h : (s.step c).2 = .error f)
    (hf : f.isDialogue = true) :
    (s.step c).1 = s ∧ (∀ chain budget, f ≠ .budgetExceeded chain budget) ∨
      Overran (s.step c) f := by
  have hc := step_cases s c
  generalize s.step c = o at hc h ⊢
  cases hc with
  | runs => exact .inr (guarded_fails (fun _ => run_fails) h hf)
  | takes => exact .inr (guarded_fails (fun _ => take_fails) h hf)
  | finishes => cases h
  | refused within => exact .inl ⟨rfl, Except.error.inj h ▸ within⟩

theorem step_fails {s : Session} {c : Call} {f : Fault} (h : (s.step c).2 = .error f)
    (hf : f.isDialogue = true) : (s.step c).1 = s ∨ (s.step c).1.Broken :=
  (step_stops h hf).imp And.left Overran.broken

end Session

end Colloquy
