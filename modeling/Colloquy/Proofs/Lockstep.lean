import Colloquy.Proofs.Untouched

/-!
# Sessions in lockstep

Let a relation between worlds be such that conditions come out alike in related worlds, that
effects do the same there, and that reporting and restoring keep worlds related
(`World.Lockstep`). Then sessions that are the same but for such worlds go on being so through every
part of a call, with the same outcomes (`Session.InStep.step`). The relation may ask something of
the effects that it is good for, and also of the conditions (`World.LockstepOn`). Where all that the
tree has are such, its sessions go on in step through every run of calls
(`Session.InStep.steps_on`).
-/

namespace Colloquy

variable [Text.Halves]

/-- A relation between worlds that is kept by all that a call does in them, if the effects that are
applied have a property. -/
structure World.Lockstep (R : World → World → Prop) (K : Effect → Prop) : Prop where
  note {w w' : World} (H : R w w') (n : Notice) : R (w.note n) (w'.note n)
  holds {w w' : World} (H : R w w') (c : Condition) : c.holds w'.store = c.holds w.store
  apply {w w' : World} (H : R w w') {e : Effect} (he : K e) :
    R (e.apply w).1 (e.apply w').1 ∧ (e.apply w').2 = (e.apply w).2
  copyable {w w' : World} (H : R w w') :
    w'.store.context.isCopyable = w.store.context.isCopyable
  restore {w w' v v' : World} (H : R w w') (B : R v v') :
    R { w with store := (w.store.restore v.store).1 }
        { w' with store := (w'.store.restore v'.store).1 } ∧
      (w'.store.restore v'.store).2 = (w.store.restore v.store).2

/-- As `World.Lockstep`, where conditions with a property come out alike. -/
structure World.LockstepOn (R : World → World → Prop) (C : Condition → Prop) (K : Effect → Prop) :
    Prop where
  note {w w' : World} (H : R w w') (n : Notice) : R (w.note n) (w'.note n)
  holds {w w' : World} (H : R w w') {c : Condition} (hc : C c) :
    c.holds w'.store = c.holds w.store
  apply {w w' : World} (H : R w w') {e : Effect} (he : K e) :
    R (e.apply w).1 (e.apply w').1 ∧ (e.apply w').2 = (e.apply w).2
  copyable {w w' : World} (H : R w w') :
    w'.store.context.isCopyable = w.store.context.isCopyable
  restore {w w' v v' : World} (H : R w w') (B : R v v') :
    R { w with store := (w.store.restore v.store).1 }
        { w' with store := (w'.store.restore v'.store).1 } ∧
      (w'.store.restore v'.store).2 = (w.store.restore v.store).2

theorem World.Lockstep.on {R : World → World → Prop} {K : Effect → Prop}
    (L : World.Lockstep R K) : World.LockstepOn R (fun _ => True) K where
  note := L.note
  holds H c _ := L.holds H c
  apply := L.apply
  copyable := L.copyable
  restore := L.restore

/-- The conditions of a node and of its choices. -/
def Node.allConditions (n : Node) : List Condition :=
  n.conditions ++ n.choices.flatMap (·.conditions)

/-- The conditions of a tree: those of its nodes and of their choices. -/
def Tree.conditions (t : Tree) : List Condition := t.nodes.flatMap Node.allConditions

omit [Text.Halves] in
theorem Tree.mem_conditions_of_node {t : Tree} {n : Node} {c : Condition} (hn : n ∈ t.nodes)
    (hc : c ∈ n.conditions) : c ∈ t.conditions :=
  List.mem_flatMap.2 ⟨n, hn, List.mem_append_left _ hc⟩

omit [Text.Halves] in
theorem Tree.mem_conditions_of_choice {t : Tree} {n : Node} {o : Choice} {c : Condition}
    (hn : n ∈ t.nodes) (ho : o ∈ n.choices) (hc : c ∈ o.conditions) : c ∈ t.conditions :=
  List.mem_flatMap.2 ⟨n, hn, List.mem_append_right _ (List.mem_flatMap.2 ⟨o, ho, hc⟩)⟩

namespace World.LockstepOn

variable {R : World → World → Prop} {C : Condition → Prop} {K : Effect → Prop} {w w' : World}

theorem noteAll (L : World.LockstepOn R C K) : ∀ (ns : List Notice) {w w' : World}, R w w' →
    R (w.noteAll ns) (w'.noteAll ns)
  | [], _, _, H => H
  | n :: ns, w, w', H => by
    have step : ∀ w : World, w.noteAll (n :: ns) = (w.note n).noteAll ns := by
      intro w
      simp [World.noteAll, World.note]
    rw [step, step]
    exact L.noteAll ns (L.note H n)

theorem allHold (L : World.LockstepOn R C K) (H : R w w') : ∀ {cs : List Condition},
    (∀ c ∈ cs, C c) → Condition.allHold w'.store cs = Condition.allHold w.store cs
  | [], _ => rfl
  | c :: cs, hC => by
    rw [List.forall_mem_cons] at hC
    rw [Condition.allHold, Condition.allHold, L.holds H hC.1, L.allHold H hC.2]

theorem allNotices (L : World.LockstepOn R C K) (H : R w w') : ∀ {cs : List Condition},
    (∀ c ∈ cs, C c) → Condition.allNotices w'.store cs = Condition.allNotices w.store cs
  | [], _ => rfl
  | c :: cs, hC => by
    rw [List.forall_mem_cons] at hC
    rw [Condition.allNotices, Condition.allNotices, L.holds H hC.1, L.allNotices H hC.2]

theorem isAvailable (L : World.LockstepOn R C K) (H : R w w') {c : Choice}
    (hC : ∀ d ∈ c.conditions, C d) : c.isAvailable w'.store = c.isAvailable w.store :=
  L.allHold H hC

/-- Of choices with such conditions the same is reported. -/
theorem noticesAmong (L : World.LockstepOn R C K) (H : R w w') : ∀ {cs : List Choice},
    (∀ c ∈ cs, ∀ d ∈ c.conditions, C d) →
      ((cs.takeWhile fun c => (c.isAvailable w'.store).isOk).flatMap fun c =>
          Condition.allNotices w'.store c.conditions) =
        (cs.takeWhile fun c => (c.isAvailable w.store).isOk).flatMap fun c =>
          Condition.allNotices w.store c.conditions
  | [], _ => rfl
  | c :: cs, hC => by
    rw [List.forall_mem_cons] at hC
    have ih := L.noticesAmong H hC.2
    simp only [List.takeWhile_cons, L.isAvailable H hC.1]
    split
    · rw [List.flatMap_cons, List.flatMap_cons, ih, L.allNotices H hC.1]
    · rfl

theorem choiceNotices (L : World.LockstepOn R C K) (H : R w w') {n : Node}
    (hC : ∀ c ∈ n.choices, ∀ d ∈ c.conditions, C d) :
    n.choiceNotices w'.store = n.choiceNotices w.store := L.noticesAmong H hC

theorem applyAll (L : World.LockstepOn R C K) : ∀ {es : List Effect} {w w' : World}, R w w' →
    (∀ e ∈ es, K e) → R (Effect.applyAll w es).1 (Effect.applyAll w' es).1 ∧
      (Effect.applyAll w' es).2 = (Effect.applyAll w es).2
  | [], _, _, H, _ => ⟨H, rfl⟩
  | e :: es, w, w', H, kept => by
    rw [List.forall_mem_cons] at kept
    obtain ⟨h₁, h₂⟩ := L.apply H kept.1
    unfold Effect.applyAll
    rcases ha : e.apply w with ⟨w₁, o⟩
    rcases ha' : e.apply w' with ⟨w₁', o'⟩
    rw [ha, ha'] at h₁ h₂
    obtain rfl : o' = o := h₂
    cases o' with
    | none => exact L.applyAll h₁ kept.2
    | some fault => exact ⟨h₁, rfl⟩

theorem visit (L : World.LockstepOn R C K) {t : Tree} (H : R w w')
    (hC : ∀ c ∈ t.conditions, C c) (kept : ∀ e ∈ t.effects, K e) (target : Datum) :
    R (t.visit w target).1 (t.visit w' target).1 ∧
      (t.visit w' target).2 = (t.visit w target).2 := by
  unfold Tree.visit
  rcases hl : t.lookup target with fault | _ | n
  · exact ⟨H, rfl⟩
  · exact ⟨L.note H _, rfl⟩
  · have hn : ∀ c ∈ n.conditions, C c := fun c hc =>
      hC c (Tree.mem_conditions_of_node (Tree.mem_of_lookup hl) hc)
    simp only [L.allHold H hn, L.allNotices H hn]
    rcases Condition.allHold w.store n.conditions with fault | _ | _
    · exact ⟨H, rfl⟩
    · exact ⟨L.note (L.noteAll _ H) _, rfl⟩
    · obtain ⟨h₁, h₂⟩ := L.applyAll H fun e he =>
        kept e (Tree.mem_effects_of_node (Tree.mem_of_lookup hl) he)
      rcases ha : Effect.applyAll w n.effects with ⟨w₁, o⟩
      rcases ha' : Effect.applyAll w' n.effects with ⟨w₁', o'⟩
      rw [ha, ha'] at h₁ h₂
      obtain rfl : o' = o := h₂
      cases o' with
      | none => exact ⟨h₁, rfl⟩
      | some fault => exact ⟨h₁, rfl⟩

end World.LockstepOn

namespace Session

/-- Two sessions that are the same but for related worlds, where the effects of their tree and of
their offers have a property. -/
structure InStep (R : World → World → Prop) (K : Effect → Prop) (s s' : Session) : Prop where
  world : R s.world s'.world
  rest : s' = { s with world := s'.world }
  tree : ∀ e ∈ s.tree.effects, K e
  offered : ∀ c ∈ s.offered, ∀ e ∈ c.1.effects, K e

/-- What comes of two sessions in step: the same, and sessions in step. -/
def InStepOutcome {α : Type} (R : World → World → Prop) (K : Effect → Prop)
    (o o' : Session × α) : Prop :=
  o.1.InStep R K o'.1 ∧ o'.2 = o.2

namespace InStep

variable {R : World → World → Prop} {C : Condition → Prop} {K : Effect → Prop} {s s' : Session}

omit [Text.Halves] in
theorem exists_world (H : s.InStep R K s') : ∃ w', s' = { s with world := w' } := ⟨_, H.rest⟩

theorem finish (L : World.LockstepOn R C K) (H : s.InStep R K s') :
    InStepOutcome R K s.finish s'.finish := by
  obtain ⟨w', rfl⟩ := H.exists_world
  exact ⟨⟨L.note H.world _, rfl, H.tree, nofun⟩, rfl⟩

omit [Text.Halves] in
theorem settle (H : s.InStep R K s') (n : Node) (p : Presentation)
    (passed : List Presentation) :
    InStepOutcome R K (s.settle n p passed) (s'.settle n p passed) := by
  obtain ⟨w', rfl⟩ := H.exists_world
  exact ⟨⟨H.world, rfl, H.tree, H.offered⟩, rfl⟩

theorem overrun (L : World.LockstepOn R C K) (H : s.InStep R K s') (chain : List String) :
    InStepOutcome R K (s.overrun chain) (s'.overrun chain) := by
  obtain ⟨w', rfl⟩ := H.exists_world
  exact ⟨⟨L.note H.world _, rfl, H.tree, nofun⟩, rfl⟩

theorem present (L : World.LockstepOn R C K) (H : s.InStep R K s')
    (hC : ∀ c ∈ s.tree.conditions, C c) {n : Node} (hn : n ∈ s.tree.nodes) :
    InStepOutcome R K (s.present n) (s'.present n) := by
  obtain ⟨w', rfl⟩ := H.exists_world
  have hc : ∀ c ∈ n.choices, ∀ d ∈ c.conditions, C d := fun c hc d hd =>
    hC d (Tree.mem_conditions_of_choice hn hc hd)
  have ho : { s with world := w' }.offersAmong n n.choices.zipIdx =
      s.offersAmong n n.choices.zipIdx := by
    refine offersAmong_congr fun c hm => ?_
    unfold offers
    rw [store, L.isAvailable H.world (hc c.1 (List.fst_mem_of_mem_zipIdx hm))]
    rfl
  have hf : (s.facing n).InStep R K (facing { s with world := w' } n) := by
    refine ⟨?_, rfl, H.tree, H.offered⟩
    unfold facing
    simp only [store, L.choiceNotices H.world hc]
    exact L.noteAll _ H.world
  rw [present_eq, present_eq, ho]
  rcases hs : s.offersAmong n n.choices.zipIdx with fault | offered
  · exact ⟨hf, rfl⟩
  · refine ⟨⟨hf.world, rfl, H.tree, fun c hc e he => H.tree e ?_⟩, rfl⟩
    rw [offersAmong_ok hs] at hc
    exact Tree.mem_effects_of_choice hn (List.mem_of_getElem? (mem_openIn hc)) he

theorem arrive (L : World.LockstepOn R C K) (H : s.InStep R K s')
    (hC : ∀ c ∈ s.tree.conditions, C c) (target : Datum) :
    InStepOutcome R K (s.arrive target) (s'.arrive target) := by
  obtain ⟨w', rfl⟩ := H.exists_world
  obtain ⟨h₁, h₂⟩ := L.visit H.world hC H.tree target
  unfold Session.arrive
  rcases hv : s.tree.visit s.world target with ⟨w₁, o⟩
  rcases hv' : s.tree.visit w' target with ⟨w₁', o'⟩
  rw [hv, hv'] at h₁ h₂
  obtain rfl : o' = o := h₂
  simp only
  rcases o' with fault | _ | n
  · exact ⟨⟨h₁, rfl, H.tree, H.offered⟩, rfl⟩
  · exact ⟨⟨h₁, rfl, H.tree, H.offered⟩, rfl⟩
  · have Hn : InStep R K { s with world := w₁, history := s.history ++ [Datum.scalar n.id] }
        { s with world := w₁', history := s.history ++ [Datum.scalar n.id] } :=
      ⟨h₁, rfl, H.tree, H.offered⟩
    obtain ⟨hp, hr⟩ := present L Hn hC (Tree.mem_of_lookup (visit_some hv).found)
    simp only
    rcases hs : Session.present { s with
      world := w₁, history := s.history ++ [Datum.scalar n.id] } n with ⟨s₁, o⟩
    rcases hs' : Session.present { s with
      world := w₁', history := s.history ++ [Datum.scalar n.id] } n with ⟨s₁', o'⟩
    rw [hs, hs'] at hp hr
    obtain rfl : o' = o := hr
    cases o' with
    | error => exact ⟨hp, rfl⟩
    | ok => exact ⟨hp, rfl⟩

omit [Text.Halves] in
theorem budget_eq (H : s.InStep R K s') : s'.budget = s.budget := by rw [H.rest]

theorem runFrom (L : World.LockstepOn R C K) : ∀ (left : ℕ) {s s' : Session} (_ : s.InStep R K s')
    (_ : ∀ c ∈ s.tree.conditions, C c) (target : Datum) (passed : List Presentation)
    (chain : List String), InStepOutcome R K (s.runFrom left target passed chain)
      (s'.runFrom left target passed chain)
  | left, s, s', H, hC, target, passed, chain => by
    obtain ⟨h₁, h₂⟩ := arrive L H hC target
    have ht := (arrive_kept s target).tree
    rw [runFrom_eq, runFrom_eq]
    rcases ha : s.arrive target with ⟨t, o⟩
    rcases ha' : s'.arrive target with ⟨t', o'⟩
    rw [ha, ha'] at h₁ h₂
    rw [ha] at ht
    obtain rfl : o' = o := h₂
    rcases o' with fault | _ | ⟨n, p⟩
    · exact ⟨h₁, rfl⟩
    · obtain ⟨hf, hr⟩ := finish L h₁
      exact ⟨hf, congrArg (fun r => Except.ok { r with passed }) hr⟩
    · replace h₁ : t.InStep R K t' := h₁
      simp only [h₁.budget_eq]
      split_ifs
      · exact ⟨h₁, rfl⟩
      · cases left with
        | zero =>
          obtain ⟨ho, hr⟩ := overrun L h₁ (chain ++ [n.name])
          exact ⟨ho, congrArg Except.error hr⟩
        | succ left => exact runFrom L left h₁ (ht ▸ hC) n.next _ _
      · obtain ⟨hs, hr⟩ := h₁.settle n p passed
        exact ⟨hs, congrArg Except.ok hr⟩

theorem run (L : World.LockstepOn R C K) (H : s.InStep R K s')
    (hC : ∀ c ∈ s.tree.conditions, C c) (target : Datum) :
    InStepOutcome R K (s.run target) (s'.run target) := by
  rw [Session.run, Session.run, H.budget_eq]
  exact runFrom L _ H hC target [] []

theorem resolve (L : World.LockstepOn R C K) (H : s.InStep R K s') (index : ℕ) {c : Choice × ℕ}
    (hc : c ∈ s.offered) : InStepOutcome R K (s.resolve index c) (s'.resolve index c) := by
  obtain ⟨w', rfl⟩ := H.exists_world
  obtain ⟨h₁, h₂⟩ := L.applyAll H.world (H.offered c hc)
  unfold Session.resolve
  rcases ha : Effect.applyAll s.world c.1.effects with ⟨w₁, o⟩
  rcases ha' : Effect.applyAll w' c.1.effects with ⟨w₁', o'⟩
  rw [ha, ha'] at h₁ h₂
  obtain rfl : o' = o := h₂
  cases o' with
  | none => exact ⟨⟨L.note h₁ _, rfl, H.tree, H.offered⟩, rfl⟩
  | some fault => exact ⟨⟨h₁, rfl, H.tree, H.offered⟩, rfl⟩

theorem take (L : World.LockstepOn R C K) (H : s.InStep R K s')
    (hC : ∀ c ∈ s.tree.conditions, C c) (index : ℕ) {c : Choice × ℕ} (hc : c ∈ s.offered) :
    InStepOutcome R K (s.take index c) (s'.take index c) := by
  obtain ⟨h₁, h₂⟩ := resolve L H index hc
  have ht := (resolve_kept s index c).1
  rw [take_eq, take_eq]
  rcases hr : s.resolve index c with ⟨t, o⟩
  rcases hr' : s'.resolve index c with ⟨t', o'⟩
  rw [hr, hr'] at h₁ h₂
  rw [hr] at ht
  obtain rfl : o' = o := h₂
  cases o' with
  | some fault => exact ⟨h₁, rfl⟩
  | none =>
    simp only
    split_ifs
    · obtain ⟨hf, he⟩ := finish L h₁
      exact ⟨hf, congrArg Except.ok he⟩
    · exact run L h₁ (ht ▸ hC) c.1.goto

theorem undo (L : World.LockstepOn R C K) {before before' : Session} (H : s.InStep R K s')
    (B : before.InStep R K before') : InStepOutcome R K (s.undo before) (s'.undo before') := by
  obtain ⟨w', rfl⟩ := H.exists_world
  obtain ⟨v', rfl⟩ := B.exists_world
  obtain ⟨h₁, h₂⟩ := L.restore H.world B.world
  unfold Session.undo
  simp only [store]
  rcases hr : s.world.store.restore before.world.store with ⟨st, o⟩
  rcases hr' : w'.store.restore v'.store with ⟨st', o'⟩
  rw [hr, hr'] at h₁ h₂
  obtain rfl : o' = o := h₂
  cases o' with
  | none => exact ⟨⟨h₁, rfl, H.tree, H.offered⟩, rfl⟩
  | some fault => exact ⟨⟨h₁, rfl, H.tree, H.offered⟩, rfl⟩

theorem guarded (L : World.LockstepOn R C K) {o o' : Session × Except Fault StepResult}
    (H : s.InStep R K s') (ho : InStepOutcome R K o o') :
    InStepOutcome R K (s.guarded o) (s'.guarded o') := by
  obtain ⟨t, o⟩ := o
  obtain ⟨t', o'⟩ := o'
  obtain ⟨h₁, rfl⟩ : t.InStep R K t' ∧ o' = o := ho
  have hc : s'.store.context.isCopyable = s.store.context.isCopyable := L.copyable H.world
  obtain ⟨hu, he⟩ := undo L h₁ H
  rw [guarded_undo, guarded_undo, hc]
  split_ifs
  · simp only [he]
    split
    · exact ⟨hu, rfl⟩
    · exact ⟨h₁, rfl⟩
  · exact ⟨H, rfl⟩

theorem choose (L : World.LockstepOn R C K) (H : s.InStep R K s')
    (hC : ∀ c ∈ s.tree.conditions, C c) (index : Datum) :
    InStepOutcome R K (s.choose index) (s'.choose index) := by
  obtain ⟨w', rfl⟩ := H.exists_world
  have ho : offeredAt? { s with world := w' } index = s.offeredAt? index := rfl
  unfold Session.choose
  rw [ho]
  split_ifs
  · exact ⟨H, rfl⟩
  · rcases hi : s.offeredAt? index with _ | ⟨i, c⟩
    · exact ⟨H, rfl⟩
    · exact guarded L H (take L H hC i (mem_offered hi))

theorem advance (L : World.LockstepOn R C K) (H : s.InStep R K s')
    (hC : ∀ c ∈ s.tree.conditions, C c) :
    InStepOutcome R K s.advance s'.advance := by
  obtain ⟨w', rfl⟩ := H.exists_world
  have hf : following { s with world := w' } = s.following := rfl
  unfold Session.advance
  rw [hf]
  split_ifs
  · exact ⟨H, rfl⟩
  · split
    · exact ⟨H, rfl⟩
    · obtain ⟨h₁, h₂⟩ := finish L H
      exact ⟨h₁, congrArg Except.ok h₂⟩
    · exact guarded L H (run L H hC _)

/-- A call on sessions in step comes to the same, and they still are, if conditions such as those
of the tree come out alike. -/
theorem step_on (L : World.LockstepOn R C K) (H : s.InStep R K s')
    (hC : ∀ c ∈ s.tree.conditions, C c) : ∀ c : Call, InStepOutcome R K (s.step c) (s'.step c)
  | .start => by
    have ht : s'.tree.start = s.tree.start := by rw [H.rest]
    simp only [Session.step, Session.start, ht]
    exact guarded L H (run L H hC _)
  | .enter target => guarded L H (run L H hC target)
  | .choose index => choose L H hC index
  | .advance => advance L H hC
  | .end_ => by
    obtain ⟨h₁, h₂⟩ := finish L H
    exact ⟨h₁, congrArg Except.ok h₂⟩

theorem steps_on (L : World.LockstepOn R C K) : ∀ (calls : List Call) {s s' : Session},
    s.InStep R K s' → (∀ c ∈ s.tree.conditions, C c) →
      s'.outcomes calls = s.outcomes calls ∧ (s.steps calls).InStep R K (s'.steps calls)
  | [], _, _, H, _ => ⟨rfl, H⟩
  | c :: calls, s, s', H, hC => by
    obtain ⟨h₁, h₂⟩ := step_on L H hC c
    have ht : (s.step c).1.tree = s.tree := tree_upheld.step s c
    obtain ⟨ho, hs⟩ := steps_on L calls h₁ (ht ▸ hC)
    exact ⟨congrArg₂ List.cons h₂ ho, hs⟩

/-- A call on sessions in step comes to the same, and they still are. -/
theorem step (L : World.Lockstep R K) (H : s.InStep R K s') (c : Call) :
    InStepOutcome R K (s.step c) (s'.step c) := step_on L.on H (fun _ _ => trivial) c

end InStep

end Session

end Colloquy
