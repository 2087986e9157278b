import Colloquy.Proofs.Landing

/-!
# Cells that are left alone

What a call comes to are the effects of the choice that it takes and of the nodes on its way
(`Session.ComesTo`), and a call that is taken back changes the table of the context only. So a run
leaves all cells as they are that none of its effects leads into (`Session.steps_same`). What the
context and the tree of a session refer to stays within a fence (`Session.fenced_upheld`), and no
effect leads out of it (`Session.misses_outside`).
-/

namespace Colloquy

section session
variable [Text.Halves]

theorem Tree.visit_same {t : Tree} {N : Ref → Prop} {w : World} {target : Datum}
    (h : ∀ n, t.lookup target = .ok (some n) → Condition.allHold w.store n.conditions = .ok true →
      Effect.AvoidAll N w n.effects)
    (bound : ∀ r, N r → r < w.store.context.heap.size) :
    Heap.Same N w.store.context.heap (t.visit w target).1.store.context.heap := by
  unfold visit
  rcases hl : t.lookup target with f | _ | n
  · exact fun _ _ => rfl
  · exact fun _ _ => rfl
  · simp only
    rcases hc : Condition.allHold w.store n.conditions with f | _ | _
    · exact fun _ _ => rfl
    · exact fun _ _ => rfl
    · have hs := Effect.applyAll_same (h n hl hc) bound
      simp only
      split <;> rename_i ha <;> rwa [ha] at hs

theorem Tree.visit_fenced {t : Tree} {G : Ref → Prop} {w : World} (hG : w.store.context.Fenced G)
    (ht : ∀ e ∈ t.effects, ∀ r, e.ref? = some r → w.store.context.heap.There G r)
    (target : Datum) : (t.visit w target).1.store.context.Fenced G := by
  unfold visit
  rcases hl : t.lookup target with f | _ | n
  · exact hG
  · exact hG
  · simp only
    rcases Condition.allHold w.store n.conditions with f | _ | _
    · exact hG
    · exact hG
    · have hs := (Effect.applyAll_fenced hG fun e he =>
        ht e (Tree.mem_effects_of_node (mem_of_lookup hl) he)).1
      simp only
      split <;> rename_i ha <;> rwa [ha] at hs

namespace Session

/-! ## Calls -/

/-- The effects that a call comes to, in the world in which they are applied: those of the choice
that it takes, and those of each node on its way whose conditions hold. -/
inductive ComesTo (s : Session) (c : Call) : World → List Effect → Prop
  | choice (open_ : s.phase = .presenting) : ComesTo s c s.world (s.chosen c)
  | node {s₁ s₂ : Session} {last : Datum} {ps : List (Node × Presentation)} {n : Node}
      (out : SetsOut s c s₁) (hops : Hops s₁ (s.heading c) ps s₂ last)
      (within : ps.length ≤ (Budget.hops? s.budget).getD 0)
      (found : s₂.tree.lookup last = .ok (some n))
      (allowed : Condition.allHold s₂.store n.conditions = .ok true) :
      ComesTo s c s₂.world n.effects

/-- No effect that a call comes to leads into some cells. -/
def Misses (N : Ref → Prop) (s : Session) (c : Call) : Prop :=
  ∀ w es, s.ComesTo c w es → Effect.AvoidAll N w es

/-- No effect of a run of calls leads into some cells. -/
def Avoids (N : Ref → Prop) : Session → List Call → Prop
  | _, [] => True
  | s, c :: calls => s.Misses N c ∧ Avoids N (s.step c).1 calls

theorem Misses.join {N N₁ N₂ : Ref → Prop} {s : Session} {c : Call}
    (hN : ∀ r, N r → N₁ r ∨ N₂ r) (h₁ : s.Misses N₁ c) (h₂ : s.Misses N₂ c) : s.Misses N c :=
  fun w es h => (h₁ w es h).join hN (h₂ w es h)

/-- Cells that are there, and are not the table of the context. -/
structure Aside (N : Ref → Prop) (c : Context) : Prop where
  bound : ∀ r, N r → r < c.heap.size
  root : ∀ r, c.root.ref? = some r → ¬ N r

omit [Text.Halves] in
theorem Aside.upheld {N : Ref → Prop} {c c' : Context} (h : Aside N c)
    (hc : c.heap.size ≤ c'.heap.size ∧ c'.root.ref? = c.root.ref?) : Aside N c' :=
  ⟨fun r hr => (h.bound r hr).trans_le hc.1, fun r hr => h.root r (hc.2 ▸ hr)⟩

omit [Text.Halves] in
theorem Aside.grown {N : Ref → Prop} {c c' : Context} (h : Aside N c) (g : c.Grown c') :
    Aside N c' := h.upheld ⟨g.heap.size_le, g.root⟩

theorem arrive_same {s : Session} {N : Ref → Prop} {target : Datum}
    (h : ∀ n, s.tree.lookup target = .ok (some n) →
      Condition.allHold s.store n.conditions = .ok true → Effect.AvoidAll N s.world n.effects)
    (bound : ∀ r, N r → r < s.store.context.heap.size) :
    Heap.Same N s.store.context.heap (s.arrive target).1.store.context.heap := by
  rw [arrive_store]
  exact Tree.visit_same h bound

theorem hops_same {N : Ref → Prop} {s s' : Session} {target last : Datum}
    {ps : List (Node × Presentation)} (h : Hops s target ps s' last)
    (aside : Aside N s.store.context)
    (avoids : ∀ qs t d n, Hops s target qs t d → qs.length ≤ ps.length →
      t.tree.lookup d = .ok (some n) → Condition.allHold t.store n.conditions = .ok true →
      Effect.AvoidAll N t.world n.effects) :
    Heap.Same N s.store.context.heap s'.store.context.heap := by
  induction h with
  | done => exact fun _ _ => rfl
  | @hop s s₁ s₂ target last n p ps here advances rest ih =>
    have hs := arrive_same (fun m => avoids [] s target m (.done s target) (Nat.zero_le _))
      aside.bound
    have hg := arrive_grown s target
    rw [here] at hs hg
    refine hs.trans (ih (aside.grown hg) fun qs t d m hq hl => ?_)
    exact avoids ((n, p) :: qs) t d m (.hop here advances hq) (Nat.succ_le_succ hl)

theorem run_same {N : Ref → Prop} {s : Session} {target : Datum} (aside : Aside N s.store.context)
    (avoids : ∀ ps t d n, Hops s target ps t d → ps.length ≤ (Budget.hops? s.budget).getD 0 →
      t.tree.lookup d = .ok (some n) → Condition.allHold t.store n.conditions = .ok true →
      Effect.AvoidAll N t.world n.effects) :
    Heap.Same N s.store.context.heap (s.run target).1.store.context.heap := by
  obtain ⟨ps, s', last, hps, hl, he⟩ :=
    runFrom_cases ((Budget.hops? s.budget).getD 0) s target [] []
  have hh := hops_same hps aside fun qs t d n hq hle => avoids qs t d n hq (hle.trans hl)
  have ha := arrive_same (fun n => avoids ps s' last n hps hl) (aside.grown (hops_grown hps)).bound
  refine hh.trans ?_
  rw [run]
  generalize runFrom _ s target [] [] = o at he ⊢
  cases he with
  | broken here | absent here | unmeasured here | overrun here | settled here =>
    rw [here] at ha
    exact ha

omit [Text.Halves] in
theorem guarded_same {N : Ref → Prop} {s : Session} {o : Session × Except Fault StepResult}
    (aside : Aside N s.store.context) (grown : s.store.context.Grown o.1.store.context)
    (h : Heap.Same N s.store.context.heap o.1.store.context.heap) :
    Heap.Same N s.store.context.heap (s.guarded o).1.store.context.heap := by
  have hu : Heap.Same N s.store.context.heap (o.1.undo s).1.store.context.heap := by
    have ha := aside.grown grown
    rw [undo_context]
    exact h.trans (Context.load_same (congrArg Option.isSome grown.root) ha.bound ha.root)
  have hc := guarded_cases s o
  generalize s.guarded o = o' at hc ⊢
  cases hc with
  | refused => exact fun _ _ => rfl
  | kept => exact h
  | undone | stuck => exact hu

/-- A call leaves cells as they are that none of its effects leads into. -/
theorem step_same {N : Ref → Prop} {s : Session} {c : Call} (aside : Aside N s.store.context)
    (misses : s.Misses N c) :
    Heap.Same N s.store.context.heap (s.step c).1.store.context.heap := by
  have hc := step_cases s c
  generalize s.step c = o at hc ⊢
  cases hc with
  | runs out =>
    refine guarded_same aside (run_grown s _) (run_same aside fun ps t d n hq hl hn ha => ?_)
    exact misses _ _ (.node out hq hl hn ha)
  | @takes index i c open_ hi =>
    have he := misses _ _ (.choice open_)
    rw [chosen_eq hi] at he
    have hs := Effect.applyAll_same he aside.bound
    have hg := Effect.applyAll_grown c.1.effects s.world
    have ht := take_cases s i c
    generalize s.take i c = o at ht ⊢
    cases ht with
    | broken ha | finished ha =>
      rw [ha] at hs hg
      exact guarded_same aside hg hs
    | @going w ha ne =>
      rw [ha] at hs hg
      have hrg : w.store.context.Grown _ := run_grown (s.resolved i c w) c.1.goto
      have ha' : Aside N (s.resolved i c w).store.context := aside.grown hg
      refine guarded_same aside (hg.trans hrg) (hs.trans (run_same ha' ?_))
      intro ps t d n hq hl hn hc
      refine misses _ _ (.node (.choose open_ hi ha) ?_ hl hn hc)
      rwa [heading_eq hi]
  | finishes => exact fun _ _ => rfl
  | refused => exact fun _ _ => rfl

/-- No call takes a cell away or moves the table of the context. -/
theorem size_upheld : Upheld fun s s' : Session =>
    s.store.context.heap.size ≤ s'.store.context.heap.size ∧
      s'.store.context.root.ref? = s.store.context.root.ref? where
  refl s := ⟨le_rfl, rfl⟩
  trans h h' := ⟨h.1.trans h'.1, h'.2.trans h.2⟩
  arrive s target := ⟨(arrive_grown s target).heap.size_le, (arrive_grown s target).root⟩
  finish s := ⟨le_rfl, rfl⟩
  settle s _ _ _ := ⟨le_rfl, rfl⟩
  overrun s _ := ⟨le_rfl, rfl⟩
  resolve s index c _ := by
    have hg := Effect.applyAll_grown c.1.effects s.world
    rw [resolve_store]
    exact ⟨hg.heap.size_le, hg.root⟩
  undo {s before} h := by
    rw [undo_context]
    have hr := congrArg Option.isSome h.2
    exact ⟨h.1.trans (Context.load_size hr), (Context.load_heap hr).1.trans h.2⟩

/-- A run leaves cells as they are that none of its effects leads into. -/
theorem steps_same {N : Ref → Prop} : ∀ {calls : List Call} {s : Session},
    Aside N s.store.context → s.Avoids N calls →
    Heap.Same N s.store.context.heap (s.steps calls).store.context.heap
  | [], _, _, _ => fun _ _ => rfl
  | c :: _, s, aside, ⟨hc, hcs⟩ =>
    (step_same aside hc).trans (steps_same (aside.upheld (size_upheld.step s c)) hcs)

/-! ## Fences -/

/-- References that lead to each other only: all those in the context, in the tree and in what is on
offer, and all fresh ones. -/
structure Fenced (G : Ref → Prop) (s : Session) : Prop where
  context : s.store.context.Fenced G
  tree : ∀ e ∈ s.tree.effects, ∀ r, e.ref? = some r → s.store.context.heap.There G r
  offered : ∀ c ∈ s.offered, ∀ e ∈ c.1.effects, ∀ r, e.ref? = some r →
    s.store.context.heap.There G r

omit [Text.Halves] in
/-- A fence stays one in a session on the same tree, whose context has grown within it. -/
theorem Fenced.grown {G : Ref → Prop} {s s' : Session} (hG : s.Fenced G)
    (hs : s.store.context.heap.size ≤ s'.store.context.heap.size)
    (hc : s'.store.context.Fenced G) (ht : s'.tree = s.tree)
    (ho : ∀ c ∈ s'.offered, c ∈ s.offered ∨ ∀ e ∈ c.1.effects, e ∈ s.tree.effects) :
    s'.Fenced G where
  context := hc
  tree e he r hr := (hG.tree e (ht ▸ he) r hr).grown hs
  offered c hc e he r hr := (ho c hc).elim
    (fun hc => (hG.offered c hc e he r hr).grown hs)
    fun hc => (hG.tree e (hc e he) r hr).grown hs

theorem arrive_fenced {G : Ref → Prop} {s : Session} (hG : s.Fenced G) (target : Datum) :
    (s.arrive target).1.Fenced G := by
  have hv := Tree.visit_fenced hG.context hG.tree target
  have hs := (arrive_grown s target).heap.size_le
  have hc := arrive_cases s target
  generalize s.arrive target = o at hc hs ⊢
  cases hc with
  | failed visited | nowhere visited | unclear visited =>
    rw [visited] at hv
    exact hG.grown hs hv rfl fun _ => .inl
  | shown visited =>
    have hn := Tree.mem_of_lookup (visit_some visited).found
    rw [visited] at hv
    refine hG.grown hs hv rfl fun c hc => .inr fun e he => ?_
    exact Tree.mem_effects_of_choice hn (List.mem_of_getElem? (mem_openIn hc)) he

theorem fenced_upheld (G : Ref → Prop) : Upheld fun s s' : Session => s.Fenced G →
    s'.Fenced G ∧ s'.store.context.root.ref? = s.store.context.root.ref? where
  refl s h := ⟨h, rfl⟩
  trans h h' hs := ⟨(h' (h hs).1).1, (h' (h hs).1).2.trans (h hs).2⟩
  arrive s target h := ⟨arrive_fenced h target, (arrive_grown s target).root⟩
  finish s h := ⟨h.grown le_rfl h.context rfl nofun, rfl⟩
  settle s _ _ _ h := ⟨h.grown le_rfl h.context rfl fun _ => .inl, rfl⟩
  overrun s _ h := ⟨h.grown le_rfl h.context rfl nofun, rfl⟩
  resolve s index c here h := by
    have hc := (Effect.applyAll_fenced h.context (h.offered c here)).1
    have hg := Effect.applyAll_grown c.1.effects s.world
    rw [← resolve_store s index c] at hc hg
    refine ⟨h.grown hg.heap.size_le hc ?_ fun c' hc' => .inl ?_, hg.root⟩
    · exact (resolve_kept s index c).1
    · exact (resolve_kept s index c).2 ▸ hc'
  undo {s before} h hb := by
    obtain ⟨hs, hr⟩ := h hb
    obtain ⟨ht, -, -, ho⟩ := undo_kept s before
    have htables := congrArg Option.isSome hr
    have hl := (Context.load_heap htables).1
    rw [undo_context]
    refine ⟨hs.grown ?_ ?_ ht fun c hc => .inl (ho ▸ hc), hl.trans hr⟩
    · rw [undo_context]
      exact Context.load_size htables
    · rw [undo_context]
      exact Context.load_fenced htables hs.context

/-- A call does not lead out of what its session refers to. -/
theorem misses_outside {G : Ref → Prop} {s : Session} (hG : s.Fenced G) (c : Call) :
    s.Misses (fun r => ¬ G r) c := by
  intro w es h
  cases h with
  | choice =>
    refine (Effect.applyAll_fenced hG.context fun e he => ?_).2
    obtain ⟨o, ho, he⟩ := mem_chosen he
    exact hG.offered o ho e he
  | node out hops _ found _ =>
    have hs₁ := ((fenced_upheld G).setsOut out hG).1
    have hs := ((fenced_upheld G).hops hops hs₁).1
    refine (Effect.applyAll_fenced hs.context fun e he => hs.tree e ?_).2
    exact Tree.mem_effects_of_node (Tree.mem_of_lookup found) he

end Session

end session

end Colloquy
