import Colloquy.Proofs.Scripts
import Colloquy.Session
import Mathlib.Order.Basic

/-!
# How a call goes

A run arrives at one node after the other (`arrive`): some hops over nodes that advance by
themselves (`Hops`), and then one of five endings (`Ending`, `runFrom_cases`). A choice is resolved
before the run that it starts (`resolve`, `take_cases`), and what a call does is kept, refused or
undone (`Guarded`, `guarded_cases`). So a call runs or takes a choice, guarded in that way, or it
finishes at once or is refused (`Stepping`, `step_cases`). A relation that each of these parts
upholds is upheld by every call, whatever its outcome (`Upheld.step`).
-/

namespace Colloquy

variable [Text.Halves]

namespace Session

/-- Goes to the node that a value names and shows it, if there is one to go to. -/
def arrive (s : Session) (target : Datum) :
    Session × Except Fault (Option (Node × Presentation)) :=
  match s.tree.visit s.world target with
  | (world, .error f) => ({ s with world }, .error f)
  | (world, .ok none) => ({ s with world }, .ok none)
  | (world, .ok (some n)) =>
    match { s with world, history := s.history ++ [Datum.scalar n.id] }.present n with
    | (s, .error f) => (s, .error f)
    | (s, .ok p) => (s, .ok (some (n, p)))

theorem runFrom_eq (left : ℕ) (s : Session) (target : Datum) (passed : List Presentation)
    (chain : List String) : runFrom left s target passed chain =
      match s.arrive target with
      | (s, .error f) => (s, .error f)
      | (s, .ok none) => (s.finish.1, .ok { s.finish.2 with passed })
      | (s, .ok (some (n, p))) =>
        if n.advances then
          if (Budget.hops? s.budget).isNone then (s, .error .wrongKind)
          else
            match left with
            | 0 => ((s.overrun (chain ++ [n.name])).1, .error (s.overrun (chain ++ [n.name])).2)
            | left + 1 => runFrom left s n.next (passed ++ [p]) (chain ++ [n.name])
        else ((s.settle n p passed).1, .ok (s.settle n p passed).2) := by
  rw [runFrom.eq_def]
  simp only [arrive]
  rcases s.tree.visit s.world target with ⟨world, f | _ | n⟩
  · rfl
  · rfl
  · simp only
    generalize present _ n = shown
    rcases shown with ⟨s', f | p⟩
    · rfl
    · rfl

/-- The hops of a run over nodes that advance by themselves, each with what is shown of it. -/
inductive Hops : Session → Datum → List (Node × Presentation) → Session → Datum → Prop
  | done (s : Session) (target : Datum) : Hops s target [] s target
  | hop {s s₁ s₂ : Session} {target last : Datum} {n : Node} {p : Presentation}
      {ps : List (Node × Presentation)} (here : s.arrive target = (s₁, .ok (some (n, p))))
      (advances : n.advances = true) (rest : Hops s₁ n.next ps s₂ last) :
      Hops s target ((n, p) :: ps) s₂ last

/-- The ends of a run that arrives at its last target with so many hops left. -/
inductive Ending (left : ℕ) (passed : List Presentation) (chain : List String) (s : Session)
    (target : Datum) : Session × Except Fault StepResult → Prop
  | broken {s' : Session} {f : Fault} (here : s.arrive target = (s', .error f)) :
      Ending left passed chain s target (s', .error f)
  | absent {s' : Session} (here : s.arrive target = (s', .ok none)) :
      Ending left passed chain s target (s'.finish.1, .ok { s'.finish.2 with passed })
  | unmeasured {s' : Session} {n : Node} {p : Presentation}
      (here : s.arrive target = (s', .ok (some (n, p)))) (advances : n.advances = true)
      (none : (Budget.hops? s'.budget).isNone = true) :
      Ending left passed chain s target (s', .error .wrongKind)
  | overrun {s' : Session} {n : Node} {p : Presentation}
      (here : s.arrive target = (s', .ok (some (n, p)))) (advances : n.advances = true)
      (empty : left = 0) :
      Ending left passed chain s target
        ((s'.overrun (chain ++ [n.name])).1, .error (s'.overrun (chain ++ [n.name])).2)
  | settled {s' : Session} {n : Node} {p : Presentation}
      (here : s.arrive target = (s', .ok (some (n, p)))) (stays : n.advances = false) :
      Ending left passed chain s target
        ((s'.settle n p passed).1, .ok (s'.settle n p passed).2)

/-- A run is some hops and an ending. -/
theorem runFrom_cases : ∀ (left : ℕ) (s : Session) (target : Datum) (passed : List Presentation)
    (chain : List String), ∃ ps s' last, Hops s target ps s' last ∧ ps.length ≤ left ∧
      Ending (left - ps.length) (passed ++ ps.map (·.2)) (chain ++ ps.map (·.1.name)) s' last
        (runFrom left s target passed chain) := by
  intro left
  induction left with
  | zero =>
    intro s target passed chain
    refine ⟨[], s, target, .done s target, Nat.le_refl 0, ?_⟩
    simp only [List.map_nil, List.append_nil]
    rw [runFrom_eq]
    rcases ha : s.arrive target with ⟨s', f | _ | ⟨n, p⟩⟩
    · exact .broken ha
    · exact .absent ha
    · simp only
      split_ifs with hn hb
      · exact .unmeasured ha hn hb
      · exact .overrun ha hn rfl
      · exact .settled ha (Bool.eq_false_iff.2 hn)
  | succ left ih =>
    intro s target passed chain
    rw [runFrom_eq]
    rcases ha : s.arrive target with ⟨s', f | _ | ⟨n, p⟩⟩
    · refine ⟨[], s, target, .done s target, Nat.zero_le _, ?_⟩
      simpa using Ending.broken ha
    · refine ⟨[], s, target, .done s target, Nat.zero_le _, ?_⟩
      simpa using Ending.absent ha
    · simp only
      split_ifs with hn hb
      · refine ⟨[], s, target, .done s target, Nat.zero_le _, ?_⟩
        simpa using Ending.unmeasured ha hn hb
      · obtain ⟨ps, s₂, last, hps, hl, he⟩ := ih s' n.next (passed ++ [p]) (chain ++ [n.name])
        refine ⟨(n, p) :: ps, s₂, last, .hop ha hn hps, Nat.succ_le_succ hl, ?_⟩
        simpa using he
      · refine ⟨[], s, target, .done s target, Nat.zero_le _, ?_⟩
        simpa using Ending.settled ha (Bool.eq_false_iff.2 hn)

theorem run_cases (s : Session) (target : Datum) :
    ∃ left ps s' last, Hops s target ps s' last ∧
      Ending left (ps.map (·.2)) (ps.map (·.1.name)) s' last (s.run target) := by
  obtain ⟨ps, s', last, hps, -, he⟩ :=
    runFrom_cases ((Budget.hops? s.budget).getD 0) s target [] []
  exact ⟨_, ps, s', last, hps, he⟩

/-! ## Choices -/

/-- A session after the effects of a choice, with the choice among those taken once if it is one of
them. -/
def resolved (s : Session) (index : ℕ) (c : Choice × ℕ) (w : World) : Session :=
  { s with
    world := w.note (.choiceTaken s.tree.name index s.current c.1.goto)
    phase := .resolving
    onceTaken := if c.1.once then ChoiceKey.addTo s.onceTaken (s.keyOf s.currentId c.2)
      else s.onceTaken }

/-- Applies the effects of a choice. -/
def resolve (s : Session) (index : ℕ) (c : Choice × ℕ) : Session × Option Fault :=
  match Effect.applyAll s.world c.1.effects with
  | (world, some f) => ({ s with world, phase := .resolving }, some f)
  | (world, none) => (s.resolved index c world, none)

theorem resolve_kept (s : Session) (index : ℕ) (c : Choice × ℕ) :
    (s.resolve index c).1.tree = s.tree ∧ (s.resolve index c).1.offered = s.offered := by
  unfold resolve
  split
  · exact ⟨rfl, rfl⟩
  · exact ⟨rfl, rfl⟩

theorem take_eq (s : Session) (index : ℕ) (c : Choice × ℕ) : s.take index c =
    match s.resolve index c with
    | (s, some f) => (s, .error f)
    | (s, none) =>
      if c.1.isTerminal then (s.finish.1, .ok s.finish.2) else s.run c.1.goto := by
  unfold take resolve
  rcases Effect.applyAll s.world c.1.effects with ⟨world, _ | f⟩
  · have hr : ({ s with world, phase := .resolving }.remember c.1 (s.keyOf s.currentId c.2)).note
        (.choiceTaken s.tree.name index s.current c.1.goto) = s.resolved index c world := by
      unfold remember resolved note
      split
      · rfl
      · rfl
    have ht : ({ s with world, phase := .resolving }.remember c.1 (s.keyOf s.currentId c.2)).tree
        = s.tree := by
      unfold remember
      split <;> rfl
    have hc : ({ s with world, phase := .resolving }.remember c.1
        (s.keyOf s.currentId c.2)).current = s.current := by
      unfold remember
      split <;> rfl
    simp only [ht, hc, hr]
  · rfl

/-- How taking a choice goes. -/
inductive Taking (s : Session) (index : ℕ) (c : Choice × ℕ) :
    Session × Except Fault StepResult → Prop
  | broken {w : World} {f : Fault} (effects : Effect.applyAll s.world c.1.effects = (w, some f)) :
      Taking s index c ({ s with world := w, phase := .resolving }, .error f)
  | finished {w : World} (effects : Effect.applyAll s.world c.1.effects = (w, none))
      (last : c.1.goto = .null) :
      Taking s index c ((s.resolved index c w).finish.1, .ok (s.resolved index c w).finish.2)
  | going {w : World} (effects : Effect.applyAll s.world c.1.effects = (w, none))
      (ne : c.1.goto ≠ .null) : Taking s index c ((s.resolved index c w).run c.1.goto)

theorem take_cases (s : Session) (index : ℕ) (c : Choice × ℕ) :
    Taking s index c (s.take index c) := by
  rw [take_eq]
  unfold resolve Choice.isTerminal Datum.isNull
  rcases he : Effect.applyAll s.world c.1.effects with ⟨w, _ | f⟩
  · simp only
    split
    · rename_i hn
      exact .finished he hn
    · rename_i hn
      exact .going he hn
  · exact .broken he

/-! ## Guards -/

/-- Puts the store, the history and the choices taken once back to what they were before. -/
def undo (s before : Session) : Session × Option Fault :=
  match s.store.restore before.store with
  | (store, none) =>
    ({ s with
        world := { s.world with store }
        history := before.history
        onceTaken := before.onceTaken }, none)
  | (store, some f) => ({ s with world := { s.world with store } }, some f)

omit [Text.Halves] in
theorem undo_none {s before : Session} (h : (s.undo before).2 = none) :
    (s.store.restore before.store).2 = none ∧ (s.undo before).1 = { s with
      world := { s.world with store := (s.store.restore before.store).1 }
      history := before.history
      onceTaken := before.onceTaken } := by
  unfold undo at h ⊢
  split at h
  · rename_i hr
    exact ⟨by rw [hr], by rw [hr]⟩
  · exact absurd h nofun

omit [Text.Halves] in
theorem undo_some {s before : Session} {f : Fault} (h : (s.undo before).2 = some f) :
    (s.store.restore before.store).2 = some f := by
  unfold undo at h
  split at h
  · exact absurd h nofun
  · rename_i hr
    rw [hr]
    exact h

omit [Text.Halves] in
theorem undo_kept (s before : Session) : (s.undo before).1.tree = s.tree ∧
    (s.undo before).1.phase = s.phase ∧ (s.undo before).1.current = s.current ∧
      (s.undo before).1.offered = s.offered := by
  unfold undo
  split
  · exact ⟨rfl, rfl, rfl, rfl⟩
  · exact ⟨rfl, rfl, rfl, rfl⟩

/-- What becomes of the outcome of a call. -/
inductive Guarded (before : Session) (outcome : Session × Except Fault StepResult) :
    Session × Except Fault StepResult → Prop
  | refused {f : Fault} (kept : before.store.snapshot = .error f) :
      Guarded before outcome (before, .error f)
  | kept (kept : before.store.snapshot = .ok before.store)
      (within : ∀ chain budget, outcome.2 ≠ .error (.budgetExceeded chain budget)) :
      Guarded before outcome outcome
  | undone {chain : List String} {budget : Datum}
      (kept : before.store.snapshot = .ok before.store)
      (exceeded : outcome.2 = .error (.budgetExceeded chain budget))
      (whole : (outcome.1.undo before).2 = none) :
      Guarded before outcome ((outcome.1.undo before).1, .error (.budgetExceeded chain budget))
  | stuck {chain : List String} {budget : Datum} {f : Fault}
      (kept : before.store.snapshot = .ok before.store)
      (exceeded : outcome.2 = .error (.budgetExceeded chain budget))
      (part : (outcome.1.undo before).2 = some f) :
      Guarded before outcome ((outcome.1.undo before).1, .error f)

omit [Text.Halves] in
theorem snapshot_eq {s : Store} {kept : Snapshot} (h : s.snapshot = .ok kept) : kept = s := by
  unfold Store.snapshot at h
  split at h
  · exact (Except.ok.inj h).symm
  · exact absurd h nofun

omit [Text.Halves] in
/-- A store that cannot be kept has a context that cannot be copied. -/
theorem snapshot_refused {s : Store} {f : Fault} (h : s.snapshot = .error f) :
    f = .tooDeep ∧ s.context.isCopyable = false := by
  unfold Store.snapshot at h
  split at h
  · cases h
  · rename_i hc
    exact ⟨(Except.error.inj h).symm, Bool.eq_false_iff.2 hc⟩

omit [Text.Halves] in
theorem guarded_cases (before : Session) (outcome : Session × Except Fault StepResult) :
    Guarded before outcome (before.guarded outcome) := by
  unfold guarded
  split
  · rename_i f hk
    exact .refused hk
  · rename_i kept s chain budget hk
    obtain rfl := snapshot_eq hk
    have hu : s.undo before = match s.store.restore before.store with
        | (store, none) => ({ s with
            world := { s.world with store }
            history := before.history
            onceTaken := before.onceTaken }, none)
        | (store, some f) => ({ s with world := { s.world with store } }, some f) := rfl
    rcases hr : s.store.restore before.store with ⟨store, _ | f⟩
    · rw [hr] at hu
      have hg := @Guarded.undone before (s, .error (.budgetExceeded chain budget)) chain budget hk
        rfl (by rw [hu])
      rwa [hu] at hg
    · rw [hr] at hu
      have hg := @Guarded.stuck before (s, .error (.budgetExceeded chain budget)) chain budget f hk
        rfl (by rw [hu])
      rwa [hu] at hg
  · rename_i o _ _ kept hk hn
    obtain rfl := snapshot_eq hk
    exact .kept hk fun chain budget he => hn o.1 chain budget (Prod.ext rfl he)

omit [Text.Halves] in
theorem guarded_ok {s : Session} {o : Session × Except Fault StepResult} {r : StepResult}
    (h : (s.guarded o).2 = .ok r) : s.guarded o = o := by
  have hc := guarded_cases s o
  generalize s.guarded o = o' at hc h ⊢
  cases hc with
  | refused => exact absurd h nofun
  | kept => rfl
  | undone => exact absurd h nofun
  | stuck => exact absurd h nofun

omit [Text.Halves] in
/-- A call is refused, kept or taken back. -/
theorem guarded_undo (s : Session) (o : Session × Except Fault StepResult) : s.guarded o =
    if s.store.context.isCopyable then
      match o.2 with
      | .error (.budgetExceeded chain budget) => ((o.1.undo s).1,
        .error ((o.1.undo s).2.getD (.budgetExceeded chain budget)))
      | _ => o
    else (s, .error .tooDeep) := by
  have hk : s.store.snapshot =
      if s.store.context.isCopyable then .ok s.store else .error .tooDeep := rfl
  obtain ⟨t, o⟩ := o
  unfold guarded undo
  rw [hk]
  split_ifs
  · rcases o with f | r
    · cases f
      case budgetExceeded =>
        simp only
        rcases t.store.restore s.store with ⟨store, _ | f⟩
        · rfl
        · rfl
      all_goals rfl
    · rfl
  · rfl

omit [Text.Halves] in
/-- A guarded call only returns from a store that can be kept. -/
theorem copyable_of_guarded {s : Session} {o : Session × Except Fault StepResult} {r : StepResult}
    (h : (s.guarded o).2 = .ok r) : s.store.context.isCopyable = true := by
  by_contra hc
  have hk : s.store.snapshot = .error .tooDeep := if_neg hc
  unfold guarded at h
  rw [hk] at h
  cases h

omit [Text.Halves] in
theorem guarded_eq {s : Session} {o : Session × Except Fault StepResult}
    (copyable : s.store.context.isCopyable = true)
    (within : ∀ chain budget, o.2 ≠ .error (.budgetExceeded chain budget)) : s.guarded o = o := by
  have hc := guarded_cases s o
  generalize s.guarded o = o' at hc ⊢
  cases hc with
  | refused kept =>
    rw [Store.snapshot, if_pos copyable] at kept
    cases kept
  | kept => rfl
  | undone _ exceeded | stuck _ exceeded => exact absurd exceeded (within _ _)

/-! ## Calls -/

omit [Text.Halves] in
theorem offeredAt?_some {s : Session} {index : Datum} {i : ℕ} {c : Choice × ℕ}
    (h : s.offeredAt? index = some (i, c)) : index = .int i ∧ s.offered[i]? = some c := by
  unfold offeredAt? at h
  split at h
  · rename_i j
    obtain ⟨c', hc, he⟩ := Option.map_eq_some_iff.1 h
    obtain ⟨rfl, rfl⟩ := Prod.mk.inj he
    exact ⟨rfl, hc⟩
  · exact absurd h nofun

omit [Text.Halves] in
theorem mem_offered {s : Session} {index : Datum} {i : ℕ} {c : Choice × ℕ}
    (h : s.offeredAt? index = some (i, c)) : c ∈ s.offered :=
  List.mem_of_getElem? (offeredAt?_some h).2

/-- The choice that a call takes. -/
def taken? (s : Session) : Call → Option Choice
  | .choose index => (s.offeredAt? index).map (·.2.1)
  | _ => none

/-- Where a call heads for; null when it heads nowhere. -/
def heading (s : Session) : Call → Datum
  | .start => s.tree.start
  | .enter target => target
  | .choose index => ((s.taken? (.choose index)).map (·.goto)).getD .null
  | .advance =>
    match s.following with
    | .ok target => target
    | .error _ => .null
  | .end_ => .null

/-- The session in which a call sets out. -/
inductive SetsOut (s : Session) : Call → Session → Prop
  | start : SetsOut s .start s
  | enter (target : Datum) : SetsOut s (.enter target) s
  | choose {index : Datum} {i : ℕ} {c : Choice × ℕ} {w : World} (open_ : s.phase = .presenting)
      (some : s.offeredAt? index = some (i, c))
      (effects : Effect.applyAll s.world c.1.effects = (w, none)) :
      SetsOut s (.choose index) (s.resolved i c w)
  | advance (open_ : s.phase = .presenting) : SetsOut s .advance s
  | end_ : SetsOut s .end_ s

/-- What a call comes to. -/
inductive Stepping (s : Session) : Call → Session × Except Fault StepResult → Prop
  | runs {c : Call} (out : s.SetsOut c s) : Stepping s c (s.guarded (s.run (s.heading c)))
  | takes {index : Datum} {i : ℕ} {c : Choice × ℕ} (open_ : s.phase = .presenting)
      (some : s.offeredAt? index = some (i, c)) :
      Stepping s (.choose index) (s.guarded (s.take i c))
  | finishes {c : Call} (out : s.SetsOut c s) (nowhere : s.heading c = .null) :
      Stepping s c (s.finish.1, .ok s.finish.2)
  | refused {c : Call} {f : Fault} (within : ∀ chain budget, f ≠ .budgetExceeded chain budget) :
      Stepping s c (s, .error f)

omit [Text.Halves] in
theorem badIndex_ne (s : Session) (index : Datum) (available : ℕ) (chain : List String)
    (budget : Datum) : s.badIndex index available ≠ .budgetExceeded chain budget := by
  unfold badIndex
  split_ifs
  · exact nofun
  · exact nofun

omit [Text.Halves] in
theorem following_ne {s : Session} {f : Fault} (h : s.following = .error f) (chain : List String)
    (budget : Datum) : f ≠ .budgetExceeded chain budget := by
  unfold following at h
  split at h
  · rename_i hl
    obtain rfl := Except.error.inj h
    rw [Tree.lookup_error hl]
    exact nofun
  · exact absurd h nofun
  · exact absurd h nofun

theorem step_cases (s : Session) : ∀ c : Call, s.Stepping c (s.step c)
  | .start => .runs .start
  | .enter target => .runs (.enter target)
  | .choose index => by
    change s.Stepping _ (s.choose index)
    unfold choose
    split_ifs with hp
    · exact .refused (badIndex_ne s index 0)
    · have ho : s.phase = .presenting := not_not.1 fun hn => hp (.inl hn)
      split
      · exact .refused (badIndex_ne s index s.offered.length)
      · rename_i i c hi
        exact .takes ho hi
  | .advance => by
    change s.Stepping _ s.advance
    unfold advance
    split_ifs with hp
    · exact .refused nofun
    · have ho := not_not.1 hp
      split
      · rename_i hf
        exact .refused (following_ne hf)
      · rename_i hf
        exact .finishes (.advance ho) (by simp [heading, hf])
      · rename_i target _ hf
        have hh : s.heading .advance = target := by simp [heading, hf]
        rw [← hh]
        exact .runs (.advance ho)
  | .end_ => .finishes .end_ rfl

/-! ## What is upheld -/

/-- A relation between a session and what becomes of it that every part of a call upholds. -/
structure Upheld (R : Session → Session → Prop) : Prop where
  refl (s : Session) : R s s
  trans {a b c : Session} : R a b → R b c → R a c
  arrive (s : Session) (target : Datum) : R s (s.arrive target).1
  finish (s : Session) : R s s.finish.1
  settle (s : Session) (n : Node) (p : Presentation) (passed : List Presentation) :
    R s (s.settle n p passed).1
  overrun (s : Session) (chain : List String) : R s (s.overrun chain).1
  resolve (s : Session) (index : ℕ) (c : Choice × ℕ) (here : c ∈ s.offered) :
    R s (s.resolve index c).1
  undo {s before : Session} : R before s → R before (s.undo before).1

namespace Upheld

variable {R : Session → Session → Prop}

theorem hops (H : Upheld R) {s s' : Session} {target last : Datum}
    {ps : List (Node × Presentation)} (h : Hops s target ps s' last) : R s s' := by
  induction h with
  | done s target => exact H.refl s
  | @hop s s₁ s₂ target last n p ps here _ _ ih =>
    have ha := H.arrive s target
    rw [here] at ha
    exact H.trans ha ih

theorem setsOut (H : Upheld R) {s s₁ : Session} {c : Call} (h : SetsOut s c s₁) : R s s₁ := by
  cases h with
  | start | enter | advance | end_ => exact H.refl s
  | @choose _ i c w _ hi ha =>
    have hr := H.resolve s i c (mem_offered hi)
    rwa [Session.resolve, ha] at hr

theorem ending (H : Upheld R) {left : ℕ} {passed : List Presentation} {chain : List String}
    {s : Session} {target : Datum} {o : Session × Except Fault StepResult}
    (h : Ending left passed chain s target o) : R s o.1 := by
  have ha := H.arrive s target
  cases h with
  | broken here => rwa [here] at ha
  | absent here =>
    rw [here] at ha
    exact H.trans ha (H.finish _)
  | unmeasured here => rwa [here] at ha
  | overrun here =>
    rw [here] at ha
    exact H.trans ha (H.overrun _ _)
  | settled here =>
    rw [here] at ha
    exact H.trans ha (H.settle _ _ _ passed)

theorem run (H : Upheld R) (s : Session) (target : Datum) : R s (s.run target).1 := by
  obtain ⟨left, ps, s', last, hps, he⟩ := run_cases s target
  exact H.trans (H.hops hps) (H.ending he)

theorem take (H : Upheld R) (s : Session) (index : ℕ) (c : Choice × ℕ) (here : c ∈ s.offered) :
    R s (s.take index c).1 := by
  have hr := H.resolve s index c here
  rw [take_eq]
  rcases hs : s.resolve index c with ⟨s', _ | f⟩
  all_goals rw [hs] at hr
  · simp only
    split_ifs
    · exact H.trans hr (H.finish s')
    · exact H.trans hr (H.run s' c.1.goto)
  · exact hr

theorem guarded (H : Upheld R) {before : Session} {outcome : Session × Except Fault StepResult}
    (h : R before outcome.1) : R before (before.guarded outcome).1 := by
  have hg := guarded_cases before outcome
  generalize before.guarded outcome = o at hg ⊢
  cases hg with
  | refused => exact H.refl before
  | kept => exact h
  | undone => exact H.undo h
  | stuck => exact H.undo h

/-- What every part of a call upholds, the call upholds, whatever its outcome. -/
theorem step (H : Upheld R) (s : Session) (c : Call) : R s (s.step c).1 := by
  have hc := step_cases s c
  generalize s.step c = o at hc ⊢
  cases hc with
  | runs => exact H.guarded (H.run s _)
  | takes _ hi => exact H.guarded (H.take s _ _ (mem_offered hi))
  | finishes => exact H.finish s
  | refused => exact H.refl s

theorem steps (H : Upheld R) : ∀ (calls : List Call) (s : Session), R s (s.steps calls)
  | [], s => H.refl s
  | c :: calls, s => H.trans (H.step s c) (H.steps calls (s.step c).1)

end Upheld

end Session

end Colloquy
