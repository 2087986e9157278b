import Colloquy.Proofs.Answered
import Colloquy.Proofs.Driven

/-!
# Plain talk

On a tree that only talks (`Tree.IsTalk`) there are texts to show, references to follow and
conditions to ask, and nothing that changes the store. With a store on which every condition is
found out (`Tree.Talks`), a session arrives at a node or finds that there is none to go to
(`Session.Talks.arrive`). So it hops and settles or has no budget left (`Session.Talks.run`), and a
call that may be made returns what is shown of nodes of the tree or fails for its budget
(`Session.Talks.step`).
-/

namespace Colloquy

/-- Whether a value is a text. -/
def Datum.IsText (d : Datum) : Prop := ∃ s, d = .text s

variable [Text.Halves]

/-- A choice with texts, a reference, and no effects. -/
structure Choice.IsTalk (c : Choice) : Prop where
  text : c.text.IsText
  requirements : ∀ d ∈ c.requirements, d.IsText
  goto : c.goto.IsName
  deeds : c.deeds = []

/-- A node with texts, a reference, and no effects. -/
structure Node.IsTalk (n : Node) : Prop where
  text : n.text.IsText
  speaker : n.speaker.IsText
  next : n.next.IsName
  deeds : n.deeds = []
  choices : ∀ c ∈ n.choices, c.IsTalk

/-- A tree that only talks. -/
structure Tree.IsTalk (t : Tree) : Prop where
  title : t.title.IsText
  start : t.start.IsName
  nodes : ∀ n ∈ t.nodes, n.IsTalk

/-- A tree that only talks, and a store that can be kept and on which every condition is found
out. -/
structure Tree.Talks (t : Tree) (st : Store) : Prop where
  named : t.Named
  talk : t.IsTalk
  decided : ∀ c : Condition, c.isDecided st = true
  copyable : st.context.isCopyable = true
  table : st.context.root.ref?.isSome = true

omit [Text.Halves] in
theorem Node.IsTalk.effects {n : Node} (talk : n.IsTalk) : n.effects = [] := by
  rw [Node.effects, talk.deeds, List.map_nil]

omit [Text.Halves] in
theorem Choice.IsTalk.effects {c : Choice} (talk : c.IsTalk) : c.effects = [] := by
  rw [Choice.effects, talk.deeds, List.map_nil]

theorem Condition.allHold_ok {st : Store} (decided : ∀ c : Condition, c.isDecided st = true)
    (cs : List Condition) : ∃ b, allHold st cs = .ok b := by
  have sure : areDecided st cs = true := by
    induction cs with
    | nil => rfl
    | cons c cs ih =>
      rw [areDecided, decided, ih]
      cases c.holds st with
      | error f => rfl
      | ok b => cases b <;> rfl
  exact Session.ok_of_isOk ((allHold_isOk st cs).trans sure)

/-- What is shown of a node of a tree. -/
def Presentation.IsOf (t : Tree) (p : Presentation) : Prop :=
  ∃ n ∈ t.nodes, ∃ offered : List (Choice × ℕ), p = Session.shownOf n offered ∧
    ∀ o ∈ offered, o.1 ∈ n.choices

/-- A result that shows nodes of a tree only. -/
structure StepResult.IsOf (t : Tree) (r : StepResult) : Prop where
  passed : ∀ p ∈ r.passed, p.IsOf t
  shown : ∀ p, r.presentation = some p → p.IsOf t

theorem StepResult.IsOf.choices {t : Tree} {r : StepResult} (of : r.IsOf t) :
    ∀ c ∈ r.choices, ∃ n ∈ t.nodes, c ∈ n.choices := by
  intro c hc
  unfold StepResult.choices at hc
  rcases hr : r.presentation with _ | shown
  · rw [hr] at hc
    cases hc
  · rw [hr] at hc
    obtain ⟨n, hn, offered, rfl, within⟩ := of.shown shown hr
    obtain ⟨x, hx, rfl⟩ := List.mem_map.1 hc
    exact ⟨n, hn, within x hx⟩

namespace Session

/-- A session that talks on a tree and a store, with a budget. -/
structure Talks (t : Tree) (st : Store) (budget : ℤ) (s : Session) : Prop where
  tree : s.tree = t
  store : s.store = st
  budget : s.budget = .int budget
  current : s.current = .null ∨ ∃ n ∈ t.nodes, s.current = .text n.name
  offered : ∀ o ∈ s.offered, ∃ n ∈ t.nodes, o.1 ∈ n.choices

variable {t : Tree} {st : Store} {budget : ℤ} {s : Session}

/-- What a call on such a session comes to: a result of the tree, or a chain of its nodes that is
too long. -/
inductive Converses (t : Tree) (st : Store) (budget : ℤ) :
    Session × Except Fault StepResult → Prop
  | returns {s : Session} {r : StepResult} (talks : s.Talks t st budget) (of : r.IsOf t) :
      Converses t st budget (s, .ok r)
  | spent {s : Session} {chain : List String} (table : s.store.context.root.ref?.isSome = true)
      (names : ∀ name ∈ chain, ∃ n ∈ t.nodes, n.name = name) :
      Converses t st budget (s, .error (.budgetExceeded chain (.int budget)))

theorem Talks.current_isName (talks : s.Talks t st budget) : s.current.IsName :=
  talks.current.imp_right fun ⟨n, _, h⟩ => ⟨n.name, h⟩

/-- What a session comes to at a target: nothing to go to, or a node of the tree. -/
inductive Comes (t : Tree) (st : Store) (budget : ℤ) :
    Session × Except Fault (Option (Node × Presentation)) → Prop
  | nowhere {s : Session} (talks : s.Talks t st budget) : Comes t st budget (s, .ok none)
  | shown {s : Session} {n : Node} {p : Presentation} (talks : s.Talks t st budget)
      (there : n ∈ t.nodes) (of : p.IsOf t) : Comes t st budget (s, .ok (some (n, p)))

theorem Talks.arrive (easy : t.Talks st) (talks : s.Talks t st budget) {target : Datum}
    (name : target.IsName) : Comes t st budget (s.arrive target) := by
  have ended : ∀ js, Comes t st budget
      ({ s with world := { s.world with journal := js } }, .ok none) :=
    fun js => .nowhere { talks with }
  rcases easy.named.lookup_cases name with ⟨n, there, -, found⟩ | ⟨found, -⟩
  · have talk := easy.talk.nodes n there
    rw [← talks.tree] at found
    obtain ⟨b, allowed⟩ := Condition.allHold_ok easy.decided n.conditions
    rw [← talks.store] at allowed
    cases b with
    | false =>
      simp only [Session.arrive, Tree.visit, found, show s.world.store = s.store from rfl, allowed]
      exact ended _
    | true =>
      have visited : s.tree.visit s.world target = (s.world, .ok (some n)) :=
        Tree.visit_eq found allowed (by rw [talk.effects]; rfl)
      rw [arrive_eq visited (offersAmong_eq fun c _ => ?_)]
      · refine .shown ⟨talks.tree, talks.store, talks.budget, .inr ⟨n, there, ?_⟩, ?_⟩ there
          ⟨n, there, _, rfl, ?_⟩
        · exact congrArg Datum.scalar (easy.named.ids n there)
        · exact fun o ho => ⟨n, there, List.mem_of_getElem? (mem_openIn ho)⟩
        · exact fun o ho => List.mem_of_getElem? (mem_openIn ho)
      · have store : ({ s with world := s.world } : Session).store = st := talks.store
        rw [store]
        exact Condition.allHold_ok easy.decided c.1.conditions
  · rw [← talks.tree] at found
    simp only [Session.arrive, Tree.visit, found]
    exact ended _

theorem Talks.hops (easy : t.Talks st) {s' : Session} {target last : Datum}
    {ps : List (Node × Presentation)} (h : Hops s target ps s' last) :
    s.Talks t st budget → target.IsName →
      s'.Talks t st budget ∧ last.IsName ∧ ∀ x ∈ ps, x.1 ∈ t.nodes ∧ x.2.IsOf t := by
  induction h with
  | done => exact fun talks name => ⟨talks, name, List.forall_mem_nil _⟩
  | hop here _ _ ih =>
    intro talks name
    have comes := talks.arrive easy name
    rw [here] at comes
    cases comes with
    | shown talks there of =>
      obtain ⟨talks, name, all⟩ := ih talks (easy.talk.nodes _ there).next
      exact ⟨talks, name, List.forall_mem_cons.2 ⟨⟨there, of⟩, all⟩⟩

theorem Talks.finish (talks : s.Talks t st budget) : s.finish.1.Talks t st budget :=
  { talks with offered := List.forall_mem_nil _ }

theorem Talks.overrun (easy : t.Talks st) (talks : s.Talks t st budget) {chain : List String}
    (names : ∀ name ∈ chain, ∃ n ∈ t.nodes, n.name = name) :
    Converses t st budget ((s.overrun chain).1, .error (s.overrun chain).2) := by
  have fault : (s.overrun chain).2 = .budgetExceeded chain (.int budget) := by
    rw [← talks.budget]
    rfl
  have table : s.store.context.root.ref?.isSome = true := talks.store ▸ easy.table
  rw [fault]
  exact .spent table names

theorem Talks.run (easy : t.Talks st) (talks : s.Talks t st budget) {target : Datum}
    (name : target.IsName) : Converses t st budget (s.run target) := by
  obtain ⟨left, ps, s', last, hps, ending⟩ := run_cases s target
  obtain ⟨talks, name, all⟩ := Talks.hops easy hps talks name
  have comes := talks.arrive easy name
  have passed : ∀ p ∈ ps.map (·.2), p.IsOf t :=
    List.forall_mem_map.2 fun x hx => (all x hx).2
  have chain : ∀ m ∈ ps.map (·.1.name), ∃ n ∈ t.nodes, n.name = m :=
    List.forall_mem_map.2 fun x hx => ⟨x.1, (all x hx).1, rfl⟩
  generalize s.run target = o at ending ⊢
  cases ending with
  | broken here =>
    rw [here] at comes
    cases comes
  | absent here =>
    rw [here] at comes
    cases comes with
    | nowhere talks => exact .returns talks.finish ⟨passed, nofun⟩
  | unmeasured here _ none =>
    rw [here] at comes
    cases comes with
    | shown talks =>
      rw [talks.budget] at none
      cases none
  | overrun here =>
    rw [here] at comes
    cases comes with
    | shown talks there =>
      refine talks.overrun easy fun m hm => ?_
      rcases List.mem_append.1 hm with hm | hm
      · exact chain m hm
      · exact ⟨_, there, (List.mem_singleton.1 hm).symm⟩
  | settled here =>
    rw [here] at comes
    cases comes with
    | shown talks there of =>
      exact .returns { talks with } ⟨passed, fun p hp => Option.some.inj hp ▸ of⟩

/-- A call is taken back as a whole if its chain is too long, and else left as it is. -/
theorem Talks.guarded (easy : t.Talks st) (talks : s.Talks t st budget)
    {o : Session × Except Fault StepResult} (h : Converses t st budget o) :
    Converses t st budget (s.guarded o) := by
  have copyable : s.store.context.isCopyable = true := talks.store ▸ easy.copyable
  cases h with
  | returns talks of =>
    rw [guarded_eq copyable (by rintro _ _ ⟨⟩)]
    exact .returns talks of
  | @spent s' chain table names =>
    have whole := undo_whole table (talks.store ▸ easy.table : s.store.context.root.ref?.isSome)
    have kept : (s'.undo s).1.store.context.root.ref?.isSome = true := by
      have hu : (s'.undo s).1.store.context = _ := undo_context s' s
      rwa [hu, Context.load_root]
    rw [guarded_undo, if_pos copyable]
    simp only [whole, Option.getD_none]
    exact .spent kept names

theorem Talks.take (easy : t.Talks st) (talks : s.Talks t st budget) {i : ℕ} {c : Choice × ℕ}
    (here : s.offered[i]? = some c) : Converses t st budget (s.take i c) := by
  obtain ⟨n, there, hc⟩ := talks.offered c (List.mem_of_getElem? here)
  have talk := (easy.talk.nodes n there).choices c.1 hc
  have resolved : ∀ {w}, Effect.applyAll s.world c.1.effects = (w, none) →
      (s.resolved i c w).Talks t st budget := by
    intro w applied
    rw [talk.effects] at applied
    obtain rfl := (Prod.mk.inj applied).1
    exact { talks with }
  have taking := take_cases s i c
  generalize s.take i c = o at taking ⊢
  cases taking with
  | broken applied =>
    rw [talk.effects] at applied
    cases applied
  | finished applied => exact .returns (resolved applied).finish ⟨List.forall_mem_nil _, nofun⟩
  | going applied => exact (resolved applied).run easy talk.goto

/-- Whether a call starts, goes on where something is presented, or takes a choice on offer. -/
def May (s : Session) (c : Call) : Prop :=
  c = .start ∨ s.phase = .presenting ∧
    (c = .advance ∨ ∃ (i : ℕ) (o : Choice × ℕ), c = .choose (.int i) ∧ s.offered[i]? = some o)

/-- A call that may be made returns what is shown of nodes of the tree or fails for its budget. -/
theorem Talks.step (easy : t.Talks st) (talks : s.Talks t st budget) {c : Call} (may : s.May c) :
    Converses t st budget (s.step c) := by
  rcases may with rfl | ⟨open_, rfl | ⟨i, o, rfl, here⟩⟩
  · exact talks.guarded easy (talks.run easy (talks.tree ▸ easy.talk.start))
  · change Converses t st budget s.advance
    rw [advance, if_neg (not_not.2 open_), following, talks.tree]
    rcases easy.named.lookup_cases talks.current_isName with ⟨n, there, -, found⟩ | ⟨found, -⟩
    · rw [found]
      dsimp only
      rcases (easy.talk.nodes n there).next with hn | ⟨id, hn⟩
      · rw [hn]
        exact .returns talks.finish ⟨List.forall_mem_nil _, nofun⟩
      · rw [hn]
        exact talks.guarded easy (talks.run easy (.inr ⟨id, rfl⟩))
    · rw [found]
      exact .returns talks.finish ⟨List.forall_mem_nil _, nofun⟩
  · rw [show s.step (.choose (.int i)) = s.guarded (s.take i o) from choose_offered open_ here]
    exact talks.guarded easy (talks.take easy here)

end Session

end Colloquy
