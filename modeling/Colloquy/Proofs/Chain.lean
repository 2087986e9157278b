import Colloquy.Proofs.Undone

/-!
# How far a conversation goes by itself

From a target on, a conversation goes by itself over nodes that are found, available in the store
that the effects of those before them leave, and advance (`Tree.Chain`). The hops of a run are such
a chain (`chain_of_hops`), and where a run stops without a fault, no chain is longer than its hops
(`chain_length_le`). So, if nothing on the way fails, a run exceeds its budget just when there is a
chain that is longer (`run_exceeds`, `run_ends`), and with a larger budget a run that returns comes
to the same end (`run_allowing`).
-/

namespace Colloquy

section session
variable [Text.Halves]

/-- The nodes over which a conversation goes on by itself from a target, up to a world and the
target after the last of them, apart from what is reported. -/
inductive Tree.Chain (t : Tree) : World → Datum → List Node → World → Datum → Prop
  | nil {w w' : World} (target : Datum) (still : w.silent = w'.silent) :
      Chain t w target [] w' target
  | cons {w w₁ w' : World} {target last : Datum} {n : Node} {ns : List Node}
      (found : t.lookup target = .ok (some n))
      (allowed : Condition.allHold w.store n.conditions = .ok true)
      (applied : Effect.applyAll w n.effects = (w₁, none)) (advances : n.advances = true)
      (rest : Chain t w₁ n.next ns w' last) : Chain t w target (n :: ns) w' last

namespace Tree.Chain

theorem still_left {t : Tree} {w w₁ w' : World} {target last : Datum} {ns : List Node}
    (h : t.Chain w target ns w' last) (still : w.silent = w₁.silent) :
    t.Chain w₁ target ns w' last := by
  induction h generalizing w₁ with
  | nil target still' => exact .nil target (still.symm.trans still')
  | cons found allowed applied advances _ ih =>
    obtain ⟨_, applied', hs⟩ := Effect.applyAll_still still applied
    exact .cons found (World.store_eq_of_silent still ▸ allowed) applied' advances (ih hs)

/-- A chain goes on over one more node. -/
theorem concat {t : Tree} {w w₁ w₂ : World} {target last : Datum} {ns : List Node} {n : Node}
    (h : t.Chain w target ns w₁ last) (found : t.lookup last = .ok (some n))
    (allowed : Condition.allHold w₁.store n.conditions = .ok true)
    (applied : Effect.applyAll w₁ n.effects = (w₂, none)) (advances : n.advances = true) :
    t.Chain w target (ns ++ [n]) w₂ n.next := by
  induction h with
  | nil target still =>
    obtain ⟨_, applied', hs⟩ := Effect.applyAll_still still.symm applied
    exact .cons found (World.store_eq_of_silent still ▸ allowed) applied' advances
      (.nil n.next hs.symm)
  | cons found' allowed' applied' advances' _ ih =>
    exact .cons found' allowed' applied' advances' (ih found allowed applied)

end Tree.Chain

/-- Whether a datum names a node. -/
def Node.IsNamed (n : Node) (d : Datum) : Prop := ∃ id, d = .scalar id ∧ n.id.alike id = true

/-- Nodes each of which is named by the one before as the next, the first by a target. -/
def Node.Follow : Datum → List Node → Prop
  | _, [] => True
  | target, n :: ns => n.IsNamed target ∧ Follow n.next ns

omit [Text.Halves] in
theorem Tree.lookup_isNamed {t : Tree} {d : Datum} {n : Node} (h : t.lookup d = .ok (some n)) :
    n.IsNamed d := by
  unfold Tree.lookup at h
  split at h
  · exact absurd h nofun
  · rename_i id _
    exact ⟨id, rfl, List.find?_some (p := fun m : Node => m.id.alike id) (Except.ok.inj h)⟩
  · exact absurd h nofun

theorem Tree.Chain.follow {t : Tree} {w w' : World} {target last : Datum} {ns : List Node}
    (h : t.Chain w target ns w' last) : Node.Follow target ns := by
  induction h with
  | nil => trivial
  | cons found _ _ _ _ ih => exact ⟨Tree.lookup_isNamed found, ih⟩

/-- At none of the targets that a conversation comes to by itself with so many hops does anything
fail, be it a name, an effect, or a condition of the node or of its choices. -/
def Tree.Clear (t : Tree) (hops : ℕ) (w : World) (target : Datum) : Prop :=
  ∀ ns w' last, t.Chain w target ns w' last → ns.length ≤ hops →
    ∃ w₁ found, t.visit w' last = (w₁, .ok found) ∧
      ∀ n, found = some n → ∀ c ∈ n.choices, ∃ a, c.isAvailable w₁.store = .ok a

namespace Session

theorem chain_of_hops {s s' : Session} {target last : Datum} {ps : List (Node × Presentation)}
    (h : Hops s target ps s' last) :
    s.tree.Chain s.world target (ps.map (·.1)) s'.world last := by
  induction h with
  | done s target => exact .nil target rfl
  | @hop s s₁ s₂ target last n p ps here advances _ ih =>
    obtain ⟨w, ⟨hf, ha, he⟩, rfl, -⟩ := arrive_some here
    have still : (s.arrivedAt n w).world.silent = w.silent := rfl
    exact .cons hf ha he advances (ih.still_left still)

/-- Where hops end at a node that does not advance, or at none, every chain ends. -/
theorem chain_length_le {s s' : Session} {target last : Datum} {ps : List (Node × Presentation)}
    (h : Hops s target ps s' last)
    (stop : ∀ n p, (s'.arrive last).2 = .ok (some (n, p)) → n.advances = false)
    (clear : ∀ f, (s'.arrive last).2 ≠ .error f) :
    ∀ {ns : List Node} {w : World} {end_ : Datum},
      s.tree.Chain s.world target ns w end_ → ns.length ≤ ps.length := by
  induction h with
  | done s target =>
    intro ns w end_ hc
    cases hc with
    | nil => exact le_rfl
    | @cons _ w₁ _ _ _ n ns found allowed applied advances rest =>
      have hv := Tree.visit_eq found allowed applied
      have ha := arrive_cases s target
      generalize s.arrive target = o at ha stop clear
      cases ha with
      | failed hv' => exact absurd rfl (clear _)
      | nowhere hv' =>
        rw [hv] at hv'
        cases hv'
      | unclear => exact absurd rfl (clear _)
      | shown hv' =>
        rw [hv] at hv'
        cases hv'
        exact absurd (advances.symm.trans (stop _ _ rfl)) nofun
  | @hop s s₁ s₂ target last m p ps here advances _ ih =>
    intro ns w end_ hc
    obtain ⟨w', ⟨hf, ha, he⟩, rfl, -⟩ := arrive_some here
    cases hc with
    | nil => exact Nat.zero_le _
    | @cons _ w₁ _ _ _ n ns found allowed applied advances rest =>
      rw [hf] at found
      cases found
      rw [he] at applied
      cases applied
      have still : w'.silent = (s.arrivedAt m w').world.silent := rfl
      exact Nat.succ_le_succ (ih stop clear (rest.still_left still))

theorem arrive_clear {s s' : Session} {target last : Datum} {ps : List (Node × Presentation)}
    {hops : ℕ} (h : Hops s target ps s' last) (hl : ps.length ≤ hops)
    (clear : s.tree.Clear hops s.world target) : ∀ f, (s'.arrive last).2 ≠ .error f := by
  intro f hf
  have ht := (hops_kept h).tree
  obtain ⟨w₁, found, hv, hc⟩ := clear _ _ _ (chain_of_hops h) (by simpa using hl)
  rw [← ht] at hv
  unfold arrive at hf
  rw [hv] at hf
  rcases found with _ | n
  · cases hf
  · simp only [present_eq] at hf
    rw [offersAmong_eq] at hf
    · cases hf
    · intro c hm
      exact hc n rfl c.1 (List.mem_zipIdx_iff_getElem?.1 hm |> List.mem_of_getElem?)

/-! ## Runs -/

omit [Text.Halves] in
theorem hops_of_budget {s : Session} {b : ℕ} (hb : s.budget = .int b) :
    (Budget.hops? s.budget).getD 0 = b := by
  rw [hb]
  rfl

/-- A run whose budget is so many hops takes at most so many, and then arrives once more. -/
theorem run_hops {s : Session} {b : ℕ} (hb : s.budget = .int b) (target : Datum) :
    ∃ ps s' last, Hops s target ps s' last ∧ ps.length ≤ b ∧
      Ending (b - ps.length) (ps.map (·.2)) (ps.map (·.1.name)) s' last (s.run target) := by
  have hr := runFrom_cases b s target [] []
  rw [run, hops_of_budget hb]
  simpa using hr

/-- A run exceeds its budget by the nodes of a chain that is one longer. -/
theorem run_exceeds {s : Session} {target budget : Datum} {chain : List String} {b : ℕ}
    (hb : s.budget = .int b) (h : (s.run target).2 = .error (.budgetExceeded chain budget)) :
    budget = s.budget ∧ ∃ ns w last, s.tree.Chain s.world target ns w last ∧
      ns.length = b + 1 ∧ chain = ns.map (·.name) := by
  obtain ⟨ps, s', last, hps, hl, he⟩ := run_hops hb target
  generalize s.run target = o at he h
  cases he with
  | broken here =>
    have hd := arrive_error (congrArg Prod.snd here)
    rw [Except.error.inj h] at hd
    exact absurd hd nofun
  | absent | settled | unmeasured => cases h
  | @overrun s'' n p here advances empty =>
    obtain ⟨w, ⟨hf, ha, he⟩, rfl, -⟩ := arrive_some here
    have hk := hops_kept hps
    obtain ⟨rfl, rfl⟩ := Fault.budgetExceeded.inj (Except.error.inj h)
    refine ⟨hk.budget, ps.map (·.1) ++ [n], w, n.next, ?_, ?_, ?_⟩
    · exact (chain_of_hops hps).concat (hk.tree ▸ hf) ha he advances
    · rw [List.length_append, List.length_map, List.length_singleton]
      omega
    · simp

/-- A run on which nothing fails exceeds its budget or returns. -/
theorem run_ends {s : Session} {target : Datum} {b : ℕ} (hb : s.budget = .int b)
    (clear : s.tree.Clear b s.world target) :
    (∃ chain budget, (s.run target).2 = .error (.budgetExceeded chain budget)) ∨
      ∃ r, (s.run target).2 = .ok r ∧ r.passed.length ≤ b := by
  obtain ⟨ps, s', last, hps, hl, he⟩ := run_hops hb target
  have hc := arrive_clear hps hl clear
  have hk := (hops_kept hps).trans (arrive_kept s' last)
  generalize s.run target = o at he ⊢
  cases he with
  | broken here => exact absurd (congrArg Prod.snd here) (hc _)
  | absent => exact .inr ⟨_, rfl, by simpa using hl⟩
  | unmeasured here _ none =>
    rw [here] at hk
    rw [hk.budget, hb] at none
    exact absurd none nofun
  | overrun => exact .inl ⟨_, _, rfl⟩
  | settled => exact .inr ⟨_, rfl, by simpa [settle] using hl⟩

/-- A run that returns has come to the end of every chain. -/
theorem run_short {s : Session} {target : Datum} {b : ℕ} {r : StepResult}
    (hb : s.budget = .int b) (h : (s.run target).2 = .ok r) :
    ∀ ns w last, s.tree.Chain s.world target ns w last → ns.length ≤ b := by
  obtain ⟨ps, s', last, hps, hl, he⟩ := run_hops hb target
  intro ns w end_ hn
  refine le_trans ?_ hl
  generalize s.run target = o at he h
  cases he with
  | broken | unmeasured | overrun => cases h
  | absent here => exact chain_length_le hps (by simp [here]) (by simp [here]) hn
  | @settled s'' n p here stays =>
    refine chain_length_le hps (fun m q hm => ?_) (by simp [here]) hn
    rw [here] at hm
    cases hm
    exact stays

/-! ## Larger budgets -/

/-- The same session with another budget. -/
def allowing (s : Session) (budget : Datum) : Session := { s with budget }

theorem present_allowing (s : Session) (n : Node) (budget : Datum) :
    (s.allowing budget).present n =
      ((s.present n).1.allowing budget, (s.present n).2) := by
  have ho : (s.allowing budget).offersAmong n n.choices.zipIdx =
      s.offersAmong n n.choices.zipIdx := offersAmong_congr fun _ _ => rfl
  rw [present_eq, present_eq, ho]
  rcases s.offersAmong n n.choices.zipIdx with f | offered
  · rfl
  · rfl

theorem arrive_allowing (s : Session) (target budget : Datum) :
    (s.allowing budget).arrive target =
      ((s.arrive target).1.allowing budget, (s.arrive target).2) := by
  have hv : (s.allowing budget).tree.visit (s.allowing budget).world target =
      s.tree.visit s.world target := rfl
  rw [arrive, arrive, hv]
  rcases s.tree.visit s.world target with ⟨w, f | _ | n⟩
  · rfl
  · rfl
  · have hp := present_allowing { s with
      world := w, history := s.history ++ [Datum.scalar n.id] } n budget
    simp only [allowing] at hp ⊢
    rw [hp]
    rcases present _ n with ⟨s', f | p⟩
    · rfl
    · rfl

/-- A run that returns comes to the same end when it may take more hops. -/
theorem runFrom_allowing {budget : Datum} (hb : (Budget.hops? budget).isNone = false) :
    ∀ {left left' : ℕ}, left ≤ left' → ∀ {s : Session} {target : Datum}
      {passed : List Presentation} {chain : List String} {r : StepResult},
      (runFrom left s target passed chain).2 = .ok r →
        runFrom left' (s.allowing budget) target passed chain =
          ((runFrom left s target passed chain).1.allowing budget, .ok r) := by
  intro left
  induction left with
  | zero =>
    intro left' _ s target passed chain r h
    rw [runFrom_eq] at h ⊢
    rw [runFrom_eq, arrive_allowing]
    generalize s.arrive target = o at h ⊢
    rcases o with ⟨s', f | _ | ⟨n, p⟩⟩
    · cases h
    · cases h
      rfl
    · simp only at h ⊢
      split_ifs at h ⊢
      cases h
      rfl
  | succ left ih =>
    intro left' hle s target passed chain r h
    obtain ⟨left', rfl⟩ := Nat.exists_eq_add_of_le' hle
    rw [runFrom_eq] at h ⊢
    rw [runFrom_eq, arrive_allowing]
    generalize s.arrive target = o at h ⊢
    rcases o with ⟨s', f | _ | ⟨n, p⟩⟩
    · cases h
    · cases h
      rfl
    · have hn : (Budget.hops? (s'.allowing budget).budget).isNone ≠ true := by
        rw [allowing, hb]
        exact nofun
      simp only [if_neg hn] at h ⊢
      split_ifs at h ⊢
      · exact ih (Nat.le_add_left left left') h
      · cases h
        rfl

theorem run_allowing {s : Session} {target : Datum} {b b' : ℕ} {r : StepResult}
    (hb : s.budget = .int b) (hle : b ≤ b') (h : (s.run target).2 = .ok r) :
    (s.allowing (.int b')).run target = ((s.run target).1.allowing (.int b'), .ok r) := by
  have hb' : (s.allowing (.int b')).budget = .int b' := rfl
  have hr : s.run target = runFrom b s target [] [] := by rw [run, hops_of_budget hb]
  rw [hr] at h ⊢
  rw [run, hops_of_budget hb']
  exact runFrom_allowing rfl hle h

/-! ## Entering -/

omit [Text.Halves] in
/-- A store that has a table is restored whole to one that has one. -/
theorem restore_tables {s old : Store} {r q : Ref} (hr : s.context.root = .map r)
    (hq : old.context.root = .map q) : (s.restore old).2 = none := by
  have hl : (s.context.load old.context).2 = none := by simp only [Context.load, hr, hq]
  unfold Store.restore
  split
  · rfl
  · rename_i hf
    rw [hf] at hl
    exact hl

/-- Where its store can be kept and has a table, entering a node is a run, undone if it exceeds the
budget. -/
theorem enter_cases {s : Session} {r : Ref} (copyable : s.store.context.isCopyable = true)
    (table : s.store.context.root = .map r) (target : Datum) :
    (s.enter target).2 = (s.run target).2 ∧
      ∀ res, (s.run target).2 = .ok res → s.enter target = s.run target := by
  have hg := (run_grown s target).root
  unfold enter
  have hc := guarded_cases s (s.run target)
  generalize s.run target = o at hc hg ⊢
  generalize s.guarded o = o' at hc ⊢
  cases hc with
  | refused kept =>
    rw [Store.snapshot, if_pos copyable] at kept
    cases kept
  | kept => exact ⟨rfl, fun _ _ => rfl⟩
  | undone _ exceeded => exact ⟨exceeded.symm, fun res h => by cases exceeded.symm.trans h⟩
  | stuck _ _ part =>
    rw [table] at hg
    rcases ho : o.1.store.context.root with _ | _ | q
    all_goals rw [ho] at hg
    · cases hg
    · cases hg
    · exact absurd ((undo_some part).symm.trans (restore_tables ho table)) (Option.some_ne_none _)

/-- On a store that can be kept, and if nothing fails on the way, entering a node with a budget of
`b` hops arrives at most `b + 1` times. It exceeds the budget just when the conversation goes on by
itself over more than `b` nodes; the first `b + 1` of them are then the chain of the fault, each
named as the next by the one before. Otherwise it returns, having passed at most `b` nodes, and
comes to the same end with any larger budget. -/
theorem enter_within_budget {s : Session} {target : Datum} {b : ℕ} {root : Ref}
    (budget : s.budget = .int b) (copyable : s.store.context.isCopyable = true)
    (table : s.store.context.root = .map root) (clear : s.tree.Clear b s.world target) :
    let exceeded := ∃ chain budget, (s.enter target).2 = .error (.budgetExceeded chain budget)
    (∃ ps s' last, Hops s target ps s' last ∧ ps.length ≤ b ∧
      Ending (b - ps.length) (ps.map (·.2)) (ps.map (·.1.name)) s' last (s.run target)) ∧
    (exceeded ↔ ∃ ns w last, s.tree.Chain s.world target ns w last ∧ b < ns.length) ∧
    (∀ chain budget, (s.enter target).2 = .error (.budgetExceeded chain budget) →
      budget = s.budget ∧ ∃ ns w last, s.tree.Chain s.world target ns w last ∧
        ns.length = b + 1 ∧ Node.Follow target ns ∧ chain = ns.map (·.name)) ∧
    (¬ exceeded → ∃ r, (s.enter target).2 = .ok r ∧ r.passed.length ≤ b ∧
      ∀ b' : ℕ, b ≤ b' → (s.allowing (.int b')).enter target =
        ((s.enter target).1.allowing (.int b'), .ok r)) := by
  intro exceeded
  obtain ⟨he, hok⟩ := enter_cases copyable table target
  have hex : ∀ chain budget, (s.enter target).2 = .error (.budgetExceeded chain budget) →
      budget = s.budget ∧ ∃ ns w last, s.tree.Chain s.world target ns w last ∧
        ns.length = b + 1 ∧ chain = ns.map (·.name) :=
    fun chain budget' h => run_exceeds budget (he ▸ h)
  refine ⟨run_hops budget target, ⟨?_, ?_⟩, ?_, ?_⟩
  · rintro ⟨chain, budget', h⟩
    obtain ⟨-, ns, w, last, hc, hl, -⟩ := hex chain budget' h
    exact ⟨ns, w, last, hc, by omega⟩
  · rintro ⟨ns, w, last, hc, hl⟩
    rcases run_ends budget clear with ⟨chain, budget', h⟩ | ⟨r, hr, -⟩
    · exact ⟨chain, budget', he.trans h⟩
    · have hle := run_short budget hr ns w last hc
      omega
  · intro chain budget' h
    obtain ⟨hb, ns, w, last, hc, hl, hn⟩ := hex chain budget' h
    exact ⟨hb, ns, w, last, hc, hl, hc.follow, hn⟩
  · intro hn
    obtain ⟨r, hr, hp⟩ := (run_ends budget clear).resolve_left fun ⟨chain, budget', h⟩ =>
      hn ⟨chain, budget', he.trans h⟩
    refine ⟨r, he.trans hr, hp, fun b' hle => ?_⟩
    have ha := run_allowing budget hle hr
    have hc' : (s.allowing (.int b')).store.context.isCopyable = true := copyable
    rw [(enter_cases hc' table target).2 r (by rw [ha]), ha, hok r hr]

end Session

end session

namespace Session

attribute [local instance] Text.noHalves

/-- A session on two nodes that lead to each other until one of them is not available any more. -/
def toAndFro : Session :=
  let here : Node := { id := .text "here", text := .null, speaker := .null, portrait := .null
                       choices := [], autoAdvance := .bool true, next := .text "there"
                       voiceLine := .null, guards := [], tags := [], priority := .null
                       deeds := [⟨.null, .toggleFlag "open"⟩] }
  let there : Node := { here with
    id := .text "there", next := .text "here", guards := [⟨.null, .flag "open"⟩], deeds := [] }
  { tree := { id := .text "t", nodes := [here, there] }
    world := { store := .empty #[] }, budget := .int 2 }

theorem toAndFro_clear : toAndFro.tree.Clear 2 toAndFro.world (.text "here") := by
  intro ns w last h hl
  cases h with
  | nil _ still =>
    obtain ⟨js, rfl⟩ := World.eq_of_silent still
    exact ⟨_, _, rfl, fun n hn c hc => by cases hn; cases hc⟩
  | @cons _ w₁ _ _ _ n ns found allowed applied advances rest =>
    cases found
    cases applied
    cases rest with
    | nil _ still =>
      obtain ⟨js, rfl⟩ := World.eq_of_silent still
      exact ⟨_, _, rfl, fun n hn c hc => by cases hn; cases hc⟩
    | @cons _ w₁ _ _ _ n ns found allowed applied advances rest =>
      cases found
      cases applied
      cases rest with
      | nil _ still =>
        obtain ⟨js, rfl⟩ := World.eq_of_silent still
        exact ⟨_, _, rfl, fun n hn c hc => by cases hn; cases hc⟩
      | cons => simp at hl

theorem enter_within_budget_toAndFro :
    toAndFro.store.context.isCopyable = true ∧
      toAndFro.tree.Clear 2 toAndFro.world (.text "here") ∧
      (toAndFro.enter (.text "here")).2 =
        .error (.budgetExceeded ["here", "there", "here"] (.int 2)) ∧
      ∃ ns : List Node, ns.length = 3 ∧ Node.Follow (.text "here") ns ∧
        ns.map (·.name) = ["here", "there", "here"] := by
  have hc : toAndFro.store.context.isCopyable = true := by decide +kernel
  have ho : (toAndFro.enter (.text "here")).2 =
      .error (.budgetExceeded ["here", "there", "here"] (.int 2)) := by decide +kernel
  obtain ⟨-, -, he, -⟩ := enter_within_budget rfl hc rfl toAndFro_clear
  obtain ⟨-, ns, -, -, -, hl, hf, hn⟩ := he _ _ ho
  exact ⟨hc, toAndFro_clear, ho, ns, hl, hf, hn.symm⟩

/-- A session at a node whose first condition compares two tables that hold themselves, and whose
second condition is false. -/
def atTwins : Session :=
  let node : Node := { id := .text "a", text := .null, speaker := .null, portrait := .null
                       choices := [], autoAdvance := .null, next := .null, voiceLine := .null
                       deeds := [], tags := [], priority := .null
                       guards := [⟨.null, .comparison (.context "p") .eqEq (.context "q")⟩,
                         ⟨.null, .literal false⟩] }
  let heap : Heap := #[[(.text "p", .map 1), (.text "q", .map 2)], [(.text "x", .map 1)],
    [(.text "x", .map 2)]]
  { tree := { id := .text "t", nodes := [node] }
    world := { store := { Store.empty #[] with context := ⟨heap, .map 0⟩ } } }

/-- Where a condition has no answer, entering a node neither returns nor exceeds the budget, though
there is no effect that could fail. -/
theorem enter_without_answer :
    atTwins.budget = .int 32 ∧ atTwins.store.context.isCopyable = true ∧
      (∀ n ∈ atTwins.tree.nodes, n.effects = [] ∧ n.choices = []) ∧
      (atTwins.enter (.text "a")).2 = .error .tooDeep := by
  refine ⟨rfl, by decide +kernel, by decide +kernel, by decide +kernel⟩

end Session

end Colloquy
