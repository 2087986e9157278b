import Colloquy.Proofs.Chronicle
import Colloquy.Proofs.Resume

/-!
# Where a session stands

A session stands at the node that it came to last, and that is the last one of its history as long
as nothing is taken back: each part of a call puts the nodes that it comes to behind the history
and stands at the last of them (`Session.Walks`, `step_walks`). A call that exceeds its budget has
its history taken back, but the session goes on standing at the node where the chain broke off
(`step_overran`). So current node and history disagree just in the runs that stray: a chain broke
off at another node than the last one of the history, and no call has come to a node since
(`Session.Strays`, `current_last`).
-/

namespace Colloquy

section session
variable [Text.Halves]

namespace Session

/-- The last node of the history; null while there is none. -/
def last (s : Session) : Datum := s.history.getLast?.getD .null

/-- One session has come from another by going to some nodes, and stands at the last of them. -/
def Walks (s s' : Session) : Prop :=
  ∃ ids, s'.history = s.history ++ ids ∧ s'.current = ids.getLast?.getD s.current

namespace Walks

variable {s s₁ s₂ : Session}

omit [Text.Halves] in
theorem of_eq (history : s₁.history = s.history) (current : s₁.current = s.current) :
    s.Walks s₁ :=
  ⟨[], by simp [history], by simp [current]⟩

omit [Text.Halves] in
theorem trans (h : s.Walks s₁) (h' : s₁.Walks s₂) : s.Walks s₂ := by
  obtain ⟨ids, hh, hc⟩ := h
  obtain ⟨ids', hh', hc'⟩ := h'
  refine ⟨ids ++ ids', by rw [hh', hh, List.append_assoc], ?_⟩
  rw [hc', hc, List.getLast?_append]
  cases ids'.getLast? <;> rfl

omit [Text.Halves] in
/-- Who has gone nowhere has the same history, and stands where it stood; who has gone anywhere
stands at the last node of the history. -/
theorem cases (h : s.Walks s₁) :
    s₁.history = s.history ∧ s₁.current = s.current ∨
      s₁.history ≠ s.history ∧ s₁.current = s₁.last := by
  obtain ⟨ids, hh, hc⟩ := h
  rcases List.eq_nil_or_concat ids with rfl | ⟨front, id, rfl⟩
  · exact .inl ⟨by simpa using hh, by simpa using hc⟩
  · refine .inr ⟨by simp [hh], ?_⟩
    rw [hc, last, hh, List.concat_eq_append, ← List.append_assoc, List.getLast?_concat,
      List.getLast?_concat]
    rfl

end Walks

/-! ## Calls -/

theorem arrive_walks (s : Session) (target : Datum) : s.Walks (s.arrive target).1 := by
  have hc := arrive_cases s target
  generalize s.arrive target = o at hc ⊢
  cases hc with
  | failed | nowhere => exact .of_eq rfl rfl
  | @unclear w n => exact ⟨[.scalar n.id], rfl, rfl⟩
  | @shown w n => exact ⟨[.scalar n.id], rfl, rfl⟩

theorem hops_walks {s s' : Session} {target last : Datum} {ps : List (Node × Presentation)}
    (h : Hops s target ps s' last) : s.Walks s' := by
  induction h with
  | done s => exact .of_eq rfl rfl
  | @hop s s₁ s₂ target last n p ps here _ _ ih =>
    have ha := arrive_walks s target
    rw [here] at ha
    exact ha.trans ih

theorem run_walks (s : Session) (target : Datum) : s.Walks (s.run target).1 := by
  obtain ⟨left, ps, s', last, hps, he⟩ := run_cases s target
  have ha := arrive_walks s' last
  refine (hops_walks hps).trans ?_
  generalize s.run target = o at he ⊢
  -- what an ending does after it has arrived touches neither the history nor the current node
  cases he with
  | broken here | unmeasured here => rwa [here] at ha
  | absent here | overrun here | settled here =>
    rw [here] at ha
    exact ha.trans (.of_eq rfl rfl)

theorem take_walks (s : Session) (index : ℕ) (c : Choice × ℕ) : s.Walks (s.take index c).1 := by
  have hc := take_cases s index c
  generalize s.take index c = o at hc ⊢
  cases hc with
  | broken | finished => exact .of_eq rfl rfl
  | @going w =>
    have hr : s.Walks (s.resolved index c w) := .of_eq rfl rfl
    exact hr.trans (run_walks _ _)

omit [Text.Halves] in
theorem guarded_walks {s : Session} {o : Session × Except Fault StepResult} (h : s.Walks o.1)
    (within : ∀ chain budget, (s.guarded o).2 ≠ .error (.budgetExceeded chain budget)) :
    s.Walks (s.guarded o).1 := by
  have hc := guarded_cases s o
  generalize s.guarded o = o' at hc within ⊢
  cases hc with
  | refused => exact .of_eq rfl rfl
  | kept => exact h
  | undone => exact absurd rfl (within _ _)
  | stuck _ _ part =>
    -- a store that cannot be restored keeps the rest of the session from being taken back
    refine h.trans (.of_eq ?_ (undo_kept o.1 s).2.2.1)
    unfold undo at part ⊢
    split at part
    · cases part
    · rfl

/-- A call that does not exceed its budget takes nothing back. -/
theorem step_walks {s : Session} {c : Call}
    (within : ∀ chain budget, (s.step c).2 ≠ .error (.budgetExceeded chain budget)) :
    s.Walks (s.step c).1 := by
  have hc := step_cases s c
  generalize s.step c = o at hc within ⊢
  cases hc with
  | runs => exact guarded_walks (run_walks s _) within
  | takes => exact guarded_walks (take_walks s _ _) within
  | finishes | refused => exact .of_eq rfl rfl

/-! ## Chains that break off -/

/-- A chain broke off at a node of the tree, and the session stands there. -/
def BreaksAt (s : Session) (chain : List String) (n : Node) : Prop :=
  n ∈ s.tree.nodes ∧ chain.getLast? = some n.name ∧ s.current = .scalar n.id

theorem run_breaksAt {s : Session} {target budget : Datum} {chain : List String}
    (h : (s.run target).2 = .error (.budgetExceeded chain budget)) :
    ∃ n, (s.run target).1.BreaksAt chain n := by
  obtain ⟨left, ps, s', last, hps, he⟩ := run_cases s target
  generalize s.run target = o at he h ⊢
  cases he with
  | broken here =>
    obtain rfl := Except.error.inj h
    exact absurd (arrive_error (congrArg Prod.snd here)) nofun
  | absent | unmeasured | settled => cases h
  | @overrun s'' n p here =>
    obtain ⟨rfl, -⟩ := Fault.budgetExceeded.inj (Except.error.inj h)
    obtain ⟨w, ⟨hf, -, -⟩, rfl, -⟩ := arrive_some here
    exact ⟨n, Tree.mem_of_lookup hf, List.getLast?_concat, rfl⟩

theorem take_breaksAt {s : Session} {index : ℕ} {c : Choice × ℕ} {budget : Datum}
    {chain : List String} (h : (s.take index c).2 = .error (.budgetExceeded chain budget)) :
    ∃ n, (s.take index c).1.BreaksAt chain n := by
  have hc := take_cases s index c
  generalize s.take index c = o at hc h ⊢
  cases hc with
  | broken he =>
    obtain rfl := Except.error.inj h
    exact absurd (Effect.applyAll_fault (congrArg Prod.snd he)) nofun
  | finished => cases h
  | going => exact run_breaksAt h

theorem guarded_breaksAt {s : Session} {o : Session × Except Fault StepResult}
    {chain : List String} {budget : Datum}
    (ho : ∀ chain budget, o.2 = .error (.budgetExceeded chain budget) →
      ∃ n, o.1.BreaksAt chain n)
    (h : (s.guarded o).2 = .error (.budgetExceeded chain budget)) :
    ∃ n, (s.guarded o).1.BreaksAt chain n := by
  have hc := guarded_cases s o
  generalize s.guarded o = o' at hc h ⊢
  cases hc with
  | refused kept =>
    obtain ⟨rfl, -⟩ := snapshot_refused kept
    cases h
  | kept _ within => exact absurd h (within chain budget)
  | undone _ exceeded =>
    obtain ⟨rfl, rfl⟩ := Fault.budgetExceeded.inj (Except.error.inj h)
    obtain ⟨ht, -, hcur, -⟩ := undo_kept o.1 s
    obtain ⟨n, hn, hl, hs⟩ := ho _ _ exceeded
    exact ⟨n, ht ▸ hn, hl, hcur.trans hs⟩
  | stuck _ _ part =>
    obtain rfl := Except.error.inj h
    exact absurd (Store.restore_fault (undo_some part)) nofun

/-- A call that exceeds its budget leaves the history as it was, and the session at the last node
of the chain. -/
theorem step_overran {s : Session} {c : Call} {chain : List String} {budget : Datum}
    (h : (s.step c).2 = .error (.budgetExceeded chain budget)) :
    (s.step c).1.history = s.history ∧ ∃ n, (s.step c).1.BreaksAt chain n := by
  refine ⟨history_of_fails h rfl, ?_⟩
  have hc := step_cases s c
  generalize s.step c = o at hc h ⊢
  cases hc with
  | runs => exact guarded_breaksAt (fun _ _ => run_breaksAt) h
  | takes => exact guarded_breaksAt (fun _ _ => take_breaksAt) h
  | finishes => cases h
  | refused within => exact absurd (Except.error.inj h) (within chain budget)

/-! ## Runs of calls -/

/-- No call of a run exceeds its budget. -/
def StaysWithin : Session → List Call → Prop
  | _, [] => True
  | s, c :: calls =>
    (∀ chain budget, (s.step c).2 ≠ .error (.budgetExceeded chain budget)) ∧
      StaysWithin (s.step c).1 calls

theorem steps_walks : ∀ {calls : List Call} {s : Session}, s.StaysWithin calls →
    s.Walks (s.steps calls)
  | [], _, _ => .of_eq rfl rfl
  | _ :: _, _, ⟨here, rest⟩ => (step_walks here).trans (steps_walks rest)

theorem staysWithin_concat {c : Call} : ∀ {calls : List Call} {s : Session},
    s.StaysWithin calls →
    (∀ chain budget, ((s.steps calls).step c).2 ≠ .error (.budgetExceeded chain budget)) →
    s.StaysWithin (calls ++ [c])
  | [], _, _, h => ⟨h, trivial⟩
  | _ :: _, _, ⟨here, rest⟩, h => ⟨here, staysWithin_concat rest h⟩

/-- A run strays: one of its calls exceeded its budget, the chain broke off at a node that is not
the last one of the history, and the calls after it have come to no node. -/
def Strays (s : Session) (calls : List Call) : Prop :=
  ∃ pre c post chain budget n, calls = pre ++ c :: post ∧
    ((s.steps pre).step c).2 = .error (.budgetExceeded chain budget) ∧
    ((s.steps pre).step c).1.BreaksAt chain n ∧ (s.steps pre).last ≠ .scalar n.id ∧
    ((s.steps pre).step c).1.StaysWithin post ∧
    (s.steps calls).history = (s.steps pre).history

/-- A run that strays does not end where its history ends. -/
theorem current_of_strays {s : Session} {calls : List Call} (h : s.Strays calls) :
    (s.steps calls).current ≠ (s.steps calls).last := by
  obtain ⟨pre, c, post, chain, budget, n, rfl, spent, ⟨-, -, hcur⟩, hne, rest, hk⟩ := h
  have split : s.steps (pre ++ c :: post) = ((s.steps pre).step c).1.steps post :=
    steps_append s pre (c :: post)
  obtain ⟨hh, -⟩ := step_overran spent
  have last_eq : (s.steps (pre ++ c :: post)).last = (s.steps pre).last := by rw [last, hk, last]
  have current_eq : (s.steps (pre ++ c :: post)).current = .scalar n.id := by
    rcases (steps_walks rest).cases with ⟨-, hc⟩ | ⟨hn, -⟩
    · rw [split, hc, hcur]
    · exact absurd (by rw [← split, hk, hh]) hn
  rw [last_eq, current_eq]
  exact hne.symm

/-- A run ends where its history ends, or strays. -/
theorem current_or_strays {s₀ : Session} (new : s₀.current = s₀.last) (calls : List Call) :
    (s₀.steps calls).current = (s₀.steps calls).last ∨ s₀.Strays calls := by
  induction calls using List.reverseRecOn with
  | nil => exact .inl new
  | append_singleton calls c ih =>
    have hs : s₀.steps (calls ++ [c]) = ((s₀.steps calls).step c).1 := steps_append s₀ calls [c]
    by_cases within : ∀ chain budget,
        ((s₀.steps calls).step c).2 ≠ .error (.budgetExceeded chain budget)
    · rcases (step_walks within).cases with ⟨hh, hc⟩ | ⟨-, hc⟩
      · -- the call has come to no node, so all is as it was before
        rcases ih with hl | ⟨pre, d, post, chain, budget, n, rfl, spent, hb, hne, rest, hk⟩
        · left
          rw [hs, last, hh, hc, hl, last]
        · right
          have split : s₀.steps (pre ++ d :: post) = ((s₀.steps pre).step d).1.steps post :=
            steps_append s₀ pre (d :: post)
          refine ⟨pre, d, post ++ [c], chain, budget, n, by simp, spent, hb, hne, ?_, ?_⟩
          · exact staysWithin_concat rest (split ▸ within)
          · rw [hs, hh, hk]
      · exact .inl (by rw [hs, hc])
    · push Not at within
      obtain ⟨chain, budget, spent⟩ := within
      obtain ⟨hh, n, hb⟩ := step_overran spent
      by_cases he : (s₀.steps calls).last = .scalar n.id
      · left
        rw [hs, hb.2.2, ← he, last, last, hh]
      · exact .inr ⟨calls, c, [], chain, budget, n, rfl, spent, hb, he, trivial, by rw [hs, hh]⟩

/-- A run on a new session ends at the last node of its history, and a session that is made from
what is saved then goes on from there, unless the run strays. None does without a call that exceeds
its budget. -/
theorem current_last {s₀ : Session} (history : s₀.history = []) (current : s₀.current = .null)
    (calls : List Call) :
    let s := s₀.steps calls
    (s.current = s.last ↔ ¬ s₀.Strays calls) ∧ (s₀.StaysWithin calls → s.current = s.last) ∧
      (s₀.Keyed → s.save = .ok s.toDatum ∧
        ∀ budget, ∃ t, ofDatum s.tree s.world budget s.toDatum = .ok t ∧
          t.current = s.current ∧ t.history = s.history ∧
          (t.current = t.last ↔ ¬ s₀.Strays calls)) := by
  intro s
  have new : s₀.current = s₀.last := by rw [current, last, history]; rfl
  have ends : s.current = s.last ↔ ¬ s₀.Strays calls :=
    ⟨fun hl hs => current_of_strays hs hl, (current_or_strays new calls).resolve_right⟩
  refine ⟨ends, fun within => ?_, fun keyed => ?_⟩
  · rcases (steps_walks within).cases with ⟨hh, hc⟩ | ⟨-, hc⟩
    · rw [hc, current, last, hh, history]
      rfl
    · exact hc
  · have hk : s.Keyed := keyed_upheld.steps calls s₀ keyed
    exact ⟨(save_read hk .null).1, fun budget =>
      ⟨s.reread budget, (save_read hk budget).2, rfl, rfl, ends⟩⟩

end Session

end session

namespace Session

attribute [local instance] Text.noHalves

/-- A session that has been at the well stands where its history ends as soon as it comes to the
door again, and strays until then, also when what it has saved is read. -/
theorem current_last_byTheWell :
    byTheWell.history = [] ∧ byTheWell.current = .null ∧ byTheWell.Keyed ∧
      ¬ byTheWell.Strays [.start, .enter (.text "well"), .choose (.int 0), .start] ∧
      byTheWell.Strays [.start, .enter (.text "well"), .choose (.int 0), .end_] ∧
      ∃ t, ofDatum byTheWell.tree (byTheWell.steps [.start]).world .null
          (byTheWell.steps [.start]).toDatum = .ok t ∧ t.current = .text "door" := by
  have hk : byTheWell.Keyed := fun _ hk => absurd hk List.not_mem_nil
  refine ⟨rfl, rfl, hk, (current_last rfl rfl _).1.1 (by decide +kernel), ?_, ?_⟩
  · by_contra hs
    exact absurd ((current_last rfl rfl _).1.2 hs) (by decide +kernel)
  · obtain ⟨t, ht, hc, -, -⟩ := ((current_last rfl rfl [.start]).2.2 hk).2 .null
    exact ⟨t, ht, hc.trans (by decide +kernel)⟩

/-- A session that has entered a node that leads to itself stands there, with nothing in its
history. -/
theorem current_astray :
    byTheWell.history = [] ∧ byTheWell.current = .null ∧
      (byTheWell.step (.enter (.text "well"))).2 =
        .error (.budgetExceeded ["well", "well"] (.int 1)) ∧
      (byTheWell.steps [.enter (.text "well")]).history = [] ∧
      (byTheWell.steps [.enter (.text "well")]).current = .text "well" := by
  refine ⟨rfl, rfl, by decide +kernel, by decide +kernel, by decide +kernel⟩

end Session

end Colloquy
