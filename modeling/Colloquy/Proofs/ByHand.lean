import Colloquy.Proofs.Undone

/-!
# Going on by hand

A tree can be made to wait at every node (`Tree.byHand`). Arriving somewhere in it leaves behind
and shows what it does in the tree itself (`arrive_byHand`), but then the run is over
(`run_byHand`), and the next node is come to by a call (`advance_byHand`). So a run that goes on by
itself for some hops comes to the same as one by hand and that many calls, provided that every store
between two nodes can be kept: a run keeps the store once, and each call keeps it anew
(`enter_by_hand`).
-/

namespace Colloquy

section session
variable [Text.Halves]

/-- A node at which the conversation waits. -/
def Node.waiting (n : Node) : Node := { n with autoAdvance := .bool false }

/-- The tree that waits at every node. -/
def Tree.byHand (t : Tree) : Tree := { t with nodes := t.nodes.map Node.waiting }

namespace Tree

omit [Text.Halves] in
theorem lookup_byHand (t : Tree) (d : Datum) :
    t.byHand.lookup d = (t.lookup d).map (·.map Node.waiting) := by
  have hf : ∀ id, t.byHand.find? id = (t.find? id).map Node.waiting := by
    intro id
    rw [find?, byHand, List.find?_map]
    rfl
  unfold lookup
  split
  · rfl
  · rw [hf]
    rfl
  · rfl

theorem visit_byHand (t : Tree) (w : World) (d : Datum) :
    t.byHand.visit w d = ((t.visit w d).1, (t.visit w d).2.map (·.map Node.waiting)) := by
  rw [visit, visit, lookup_byHand]
  rcases t.lookup d with f | _ | n
  · rfl
  · rfl
  · have hc : n.waiting.conditions = n.conditions := rfl
    have he : n.waiting.effects = n.effects := rfl
    simp only [Except.map, Option.map_some, hc, he]
    rcases Condition.allHold w.store n.conditions with f | _ | _
    · rfl
    · rfl
    · rcases Effect.applyAll w n.effects with ⟨w', _ | f⟩
      · rfl
      · rfl

end Tree

namespace Session

/-- The session on the tree that waits at every node. -/
def byHand (s : Session) : Session := { s with tree := s.tree.byHand }

/-- The session in another phase. -/
def inPhase (s : Session) (phase : Phase) : Session := { s with phase }

theorem present_byHand (s : Session) (n : Node) (phase : Phase) :
    (s.byHand.inPhase phase).present n.waiting =
      ((s.present n).1.byHand.inPhase phase, (s.present n).2) := by
  have ho : (s.byHand.inPhase phase).offersAmong n.waiting n.choices.zipIdx =
      s.offersAmong n n.choices.zipIdx := offersAmong_congr fun _ _ => rfl
  have hc : n.waiting.choices = n.choices := rfl
  rw [present_eq, present_eq, hc, ho]
  rcases s.offersAmong n n.choices.zipIdx with f | offered
  · rfl
  · rfl

theorem arrive_byHand (s : Session) (target : Datum) (phase : Phase) :
    (s.byHand.inPhase phase).arrive target = ((s.arrive target).1.byHand.inPhase phase,
      (s.arrive target).2.map (·.map fun np => (np.1.waiting, np.2))) := by
  have hv : (s.byHand.inPhase phase).tree.visit (s.byHand.inPhase phase).world target =
      ((s.tree.visit s.world target).1,
        (s.tree.visit s.world target).2.map (·.map Node.waiting)) := s.tree.visit_byHand _ _
  rw [arrive, arrive, hv]
  rcases s.tree.visit s.world target with ⟨w, f | _ | n⟩
  · rfl
  · rfl
  · have hp := present_byHand { s with
      world := w, history := s.history ++ [Datum.scalar n.id] } n phase
    have hi : n.waiting.id = n.id := rfl
    simp only [byHand, inPhase, Except.map, Option.map_some, hi] at hp ⊢
    rw [hp]
    rcases present _ n with ⟨s', f | p⟩
    · rfl
    · rfl

/-- By hand, a run is over where it arrives. -/
theorem run_byHand (s : Session) (target : Datum) (phase : Phase) :
    (s.byHand.inPhase phase).run target =
      match s.arrive target with
      | (s', .error f) => (s'.byHand.inPhase phase, .error f)
      | (s', .ok none) => (s'.finish.1.byHand, .ok s'.finish.2)
      | (s', .ok (some (n, p))) => ((s'.settle n p []).1.byHand, .ok (s'.settle n p []).2) := by
  rw [run, runFrom_eq, arrive_byHand]
  rcases s.arrive target with ⟨s', f | _ | ⟨n, p⟩⟩
  · rfl
  · rfl
  · rfl

/-- By hand, no run is too long. -/
theorem run_byHand_within (s : Session) (target : Datum) (phase : Phase) (chain : List String)
    (budget : Datum) :
    ((s.byHand.inPhase phase).run target).2 ≠ .error (.budgetExceeded chain budget) := by
  rw [run_byHand]
  rcases ha : s.arrive target with ⟨s', f | _ | ⟨n, p⟩⟩
  · intro h
    have hd := arrive_error (congrArg Prod.snd ha)
    exact Fault.ne_budgetExceeded hd chain budget (Except.error.inj h)
  · exact nofun
  · exact nofun

theorem advance_eq {s : Session} {next : Datum} (open_ : s.phase = .presenting)
    (following : s.following = .ok next) (ne : next ≠ .null) :
    s.advance = s.guarded (s.run next) := by
  rw [advance, if_neg (not_not.2 open_), following]
  simp only

/-- From a node that would advance by itself, the next one is come to by a call. -/
theorem advance_byHand {s : Session} {n : Node} (here : s.tree.lookup s.current = .ok (some n))
    (advances : n.advances = true) (copyable : s.store.context.isCopyable = true) :
    (s.byHand.inPhase .presenting).advance = (s.byHand.inPhase .presenting).run n.next := by
  have hl : (s.byHand.inPhase .presenting).tree.lookup (s.byHand.inPhase .presenting).current =
      .ok (some n.waiting) := (s.tree.lookup_byHand s.current).trans (by rw [here]; rfl)
  have hf : (s.byHand.inPhase .presenting).following = .ok n.next := by
    rw [following, hl]
    rfl
  have hn : n.next ≠ .null := by
    intro he
    rw [Node.advances, he] at advances
    exact absurd (Bool.and_eq_true_iff.1 advances).2 nofun
  rw [advance_eq rfl hf hn]
  exact guarded_eq copyable (run_byHand_within s n.next .presenting)

/-- What is shown by hand of the nodes that are hopped over, one call for each. -/
theorem hops_byHand {s s' : Session} {target last : Datum} {ps : List (Node × Presentation)}
    (h : Hops s target ps s' last)
    (copyable : ∀ qs t d, Hops s target qs t d → t.store.context.isCopyable = true)
    {t : Session} {r : StepResult}
    (final : ∀ phase, (s'.byHand.inPhase phase).run last = (t.byHand, .ok r)) (phase : Phase) :
    let o := (s.byHand.inPhase phase).run target
    let calls := List.replicate ps.length Call.advance
    o.2 :: o.1.outcomes calls =
        ps.map (fun p => .ok { phase := .presenting, presentation := some p.2 }) ++ [.ok r] ∧
      o.1.steps calls = t.byHand := by
  induction h generalizing phase with
  | done s target =>
    simp only [final]
    exact ⟨rfl, rfl⟩
  | @hop s s₁ s₂ target last n p ps here advances rest ih =>
    have hc := copyable [(n, p)] s₁ n.next (.hop here advances (.done s₁ n.next))
    have ih := ih (fun qs t d hq => copyable ((n, p) :: qs) t d (.hop here advances hq)) final
      .presenting
    have hn : n.next.isNull = false := by
      simpa using (Bool.and_eq_true_iff.1 advances).2
    have ho : (s.byHand.inPhase phase).run target = (s₁.byHand.inPhase .presenting,
        .ok { phase := .presenting, presentation := some p }) := by
      rw [run_byHand, here]
      simp only [settle, hn, Bool.and_false]
      rfl
    have hs : s₁.tree.lookup s₁.current = .ok (some n) := by
      obtain ⟨w, ha, rfl, -⟩ := arrive_some here
      exact Tree.lookup_id ha.found
    have hstep := advance_byHand hs advances hc
    simp only [ho, List.length_cons, List.replicate_succ, List.map_cons, List.cons_append]
    refine ⟨?_, ?_⟩
    · rw [outcomes, step, hstep, ih.1]
    · rw [steps, List.foldl_cons, step, hstep]
      exact ih.2

/-- If every store between two of its nodes can be kept, a run that goes on by itself comes to the
same as one by hand, with one call more for each node that it passes: the nodes are shown one after
the other, the last call returns what the run does, and the sessions are the same afterwards. -/
theorem enter_by_hand {s : Session} {target : Datum} {r : StepResult}
    (returns : (s.enter target).2 = .ok r)
    (copyable : ∀ ps s' last, Hops s target ps s' last → s'.store.context.isCopyable = true) :
    let calls := .enter target :: List.replicate r.passed.length .advance
    s.byHand.outcomes calls =
        r.passed.map (fun p => .ok { phase := .presenting, presentation := some p }) ++
          [.ok { r with passed := [] }] ∧
      s.byHand.steps calls = (s.enter target).1.byHand := by
  intro calls
  have hs := copyable [] s target (.done s target)
  have hr : s.enter target = s.run target := guarded_ok returns
  have hh : s.byHand.enter target = (s.byHand.inPhase s.phase).run target :=
    guarded_eq hs (run_byHand_within s target s.phase)
  rw [hr] at returns ⊢
  obtain ⟨left, ps, s', last, hps, he⟩ := run_cases s target
  have hl : r.passed = ps.map (·.2) ∧ ∀ phase, (s'.byHand.inPhase phase).run last =
      ((s.run target).1.byHand, .ok { r with passed := [] }) := by
    generalize s.run target = o at he returns ⊢
    cases he with
    | broken | unmeasured | overrun => cases returns
    | absent here =>
      cases returns
      exact ⟨rfl, fun phase => by rw [run_byHand, here]; rfl⟩
    | settled here =>
      cases returns
      exact ⟨rfl, fun phase => by rw [run_byHand, here]; rfl⟩
  have hp := hops_byHand hps copyable hl.2 s.phase
  simp only [← hh] at hp
  have hk : ps.length = r.passed.length := by rw [hl.1, List.length_map]
  rw [hk] at hp
  refine ⟨?_, hp.2⟩
  rw [hl.1, List.map_map]
  exact hp.1

end Session

end session

namespace Session

attribute [local instance] Text.noHalves

/-- A session before a node that puts a list into the store and leads on to one that takes it out
again. -/
def beforeLoad (items : Datum) : Session :=
  let load : Node := { id := .text "load", text := .null, speaker := .null, portrait := .null
                       choices := [], autoAdvance := .bool true, next := .text "unload"
                       voiceLine := .null, guards := [], tags := [], priority := .null
                       deeds := [⟨.null, .write "items" .set (.value (.list [items]))⟩] }
  let unload : Node := { load with
    id := .text "unload", next := .null
    deeds := [⟨.null, .write "items" .set (.value (.scalar .null))⟩] }
  { tree := { id := .text "t", nodes := [load, unload] }, world := { store := .empty #[] } }

theorem beforeLoad_copyable : ∀ ps s' last, Hops (beforeLoad .null) (.text "load") ps s' last →
    s'.store.context.isCopyable = true := by
  intro ps s' last h
  cases h with
  | done => decide +kernel
  | hop here advances rest =>
    obtain ⟨w, ⟨hf, -, ha⟩, rfl, -⟩ := arrive_some here
    cases hf
    cases ha
    cases rest with
    | done => decide +kernel
    | hop here advances =>
      obtain ⟨w, ⟨hf, -, -⟩, -, -⟩ := arrive_some here
      cases hf
      cases advances

theorem enter_by_hand_beforeLoad :
    ∃ r p, ((beforeLoad .null).enter (.text "load")).2 = .ok r ∧ r.passed = [p] ∧
      p.node = "load" ∧ (beforeLoad .null).byHand.outcomes [.enter (.text "load"), .advance] =
        [.ok { phase := .presenting, presentation := some p }, .ok { r with passed := [] }] := by
  obtain ⟨r, hr⟩ :=
    ok_of_isOk (o := ((beforeLoad .null).enter (.text "load")).2) (by decide +kernel)
  have hp : (((beforeLoad .null).enter (.text "load")).2.map fun r =>
      r.passed.map (·.node)) = .ok ["load"] := by decide +kernel
  obtain ⟨ho, -⟩ := enter_by_hand hr beforeLoad_copyable
  rw [hr] at hp
  obtain ⟨p, hp, hn⟩ : ∃ p, r.passed = [p] ∧ p.node = "load" := by
    simpa [Except.map, List.map_eq_singleton_iff] using hp
  rw [hp] at ho
  exact ⟨r, p, hr, hp, hn, ho⟩

/-- Lists inside each other, so many of them. -/
def nested : ℕ → Datum
  | 0 => .null
  | n + 1 => .list [nested n]

/-- When the store between two nodes is nested too deeply to be kept, the run goes on by itself, but
not by hand. -/
theorem enter_alone_beforeLoad :
    ((beforeLoad (nested 492)).enter (.text "load")).2.map (·.passed.length) = .ok 1 ∧
      ((beforeLoad (nested 492)).byHand.outcomes [.enter (.text "load"), .advance]).map
        (·.map (·.phase)) = [.ok .presenting, .error .tooDeep] := by
  refine ⟨by decide +kernel, by decide +kernel⟩

end Session

end Colloquy
