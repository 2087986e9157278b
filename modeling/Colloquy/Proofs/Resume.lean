import Colloquy.Proofs.Offer
import Colloquy.Proofs.Reload

/-!
# Going on after a save

The keys that a session makes can always be saved and are read back (`save_read`), so a session that
presents a node can be made again from what was saved. Entering the node anew looks at its
conditions and applies its effects once more, in a store that they have already changed. So the
session goes on as it was exactly if all that changes nothing (`resumes_iff`), as at a node without
effects, and not if the node is shut by its own effects (`resumes_not`).
-/

namespace Colloquy

section session
variable [Text.Halves]

namespace ChoiceKey

/-- A key that tells a choice by its tree, its node and its place. -/
def IsOf (k : ChoiceKey) : Prop := ∃ tree node place, k = .of tree node place

theorem isBefore?_isSome {k l : ChoiceKey} (hk : k.IsOf) (hl : l.IsOf) :
    (k.isBefore? l).isSome = true := by
  obtain ⟨t, n, i, rfl⟩ := hk
  obtain ⟨t', n', i', rfl⟩ := hl
  simp only [isBefore?, of, arePartsBefore?]
  split_ifs
  · rfl
  · rfl
  · rfl
  · rfl

theorem areOrdered_of : ∀ {ks : List ChoiceKey}, (∀ k ∈ ks, k.IsOf) → areOrdered ks = true
  | [], _ => rfl
  | k :: ks, h => by
    rw [List.forall_mem_cons] at h
    rw [areOrdered, areOrdered_of h.2, Bool.and_true, List.all_eq_true]
    exact fun l hl => isBefore?_isSome h.1 (h.2 l hl)

/-- Keys of choices are read back as they were saved. -/
theorem mapM_ofDatum : ∀ {ks : List ChoiceKey}, (∀ k ∈ ks, k.IsOf) →
    (ks.map toDatum).mapM ofDatum = .ok ks
  | [], _ => rfl
  | k :: ks, h => by
    rw [List.forall_mem_cons] at h
    obtain ⟨t, n, i, rfl⟩ := h.1
    rw [List.map_cons, List.mapM_cons, ofDatum_toDatum (alike_self _), mapM_ofDatum h.2]
    rfl

omit [Text.Halves] in
theorem mem_addTo {keys : List ChoiceKey} {k l : ChoiceKey} (h : l ∈ addTo keys k) :
    l ∈ keys ∨ l = k := by
  unfold addTo at h
  split at h
  · exact .inl h
  · simpa using h

omit [Text.Halves] in
theorem mem_foldl_addTo {l : ChoiceKey} : ∀ (ks : List ChoiceKey) {keys : List ChoiceKey},
    l ∈ ks.foldl addTo keys → l ∈ keys ∨ l ∈ ks
  | [], _, h => .inl h
  | k :: ks, keys, h => by
    rcases mem_foldl_addTo ks h with h | h
    · exact (mem_addTo h).imp_right (List.mem_cons.2 ∘ .inl)
    · exact .inr (List.mem_cons_of_mem k h)

end ChoiceKey

namespace Session

/-! ## The keys of a session -/

/-- All choices taken once are known by keys of choices. -/
def Keyed (s : Session) : Prop := ∀ k ∈ s.onceTaken, k.IsOf

theorem keyed_upheld : Upheld fun s s' : Session => s.Keyed → s'.Keyed where
  refl s := id
  trans h h' := h' ∘ h
  arrive s target h := by
    unfold Keyed
    rwa [(arrive_kept s target).onceTaken]
  finish s := id
  settle s _ _ _ := id
  overrun s _ := id
  resolve s index c _ h := by
    unfold resolve
    rcases Effect.applyAll s.world c.1.effects with ⟨w, _ | f⟩
    · intro k hk
      unfold resolved at hk
      simp only at hk
      split at hk
      · rcases ChoiceKey.mem_addTo hk with hk | rfl
        · exact h k hk
        · exact ⟨_, _, _, rfl⟩
      · exact h k hk
    · exact h
  undo {s before} h hb := by
    unfold undo
    split
    · exact hb
    · exact h hb

/-- A session made again from saved data: what it has taken, shown so far and stands at. -/
def reread (s : Session) (budget : Datum) : Session where
  tree := s.tree
  world := s.world
  budget := budget
  onceTaken := (ChoiceKey.sorted s.onceTaken).foldl ChoiceKey.addTo []
  history := s.history
  current := s.current

/-- What a session saves can be read back. -/
theorem save_read {s : Session} (keyed : s.Keyed) (budget : Datum) :
    s.save = .ok s.toDatum ∧
      ofDatum s.tree s.world budget s.toDatum = .ok (s.reread budget) := by
  have hs : ∀ k ∈ ChoiceKey.sorted s.onceTaken, k.IsOf := fun k hk =>
    keyed k ((Sorting.sort_perm _ _).mem_iff.1 hk)
  refine ⟨if_pos (ChoiceKey.areOrdered_of keyed), ?_⟩
  have hl : ChoiceKey.listOf ChoiceKey.ofDatum
      ((ChoiceKey.sorted s.onceTaken).map ChoiceKey.toDatum) =
      .ok ((ChoiceKey.sorted s.onceTaken).foldl ChoiceKey.addTo []) := by
    rw [ChoiceKey.listOf, ChoiceKey.mapM_ofDatum hs]
    rfl
  rw [ofDatum_toDatum, hl]
  rfl

theorem hasTaken_reread {s : Session} (keyed : s.Keyed) (budget : Datum) (tree node : String)
    (place : Int) : (s.reread budget).hasTaken (.of tree node place) =
      s.hasTaken (.of tree node place) := by
  rw [Bool.eq_iff_iff]
  constructor
  · intro h
    obtain ⟨k, hk, ha⟩ := List.any_eq_true.1 h
    have hk' : k ∈ s.onceTaken := (Sorting.sort_perm _ _).mem_iff.1
      ((ChoiceKey.mem_foldl_addTo _ hk).resolve_left List.not_mem_nil)
    exact List.any_eq_true.2 ⟨k, hk', ha⟩
  · obtain ⟨hsave, hread⟩ := save_read keyed budget
    exact hasTaken_ofDatum hsave hread

/-! ## The node that waits -/

/-- A session that waits at a node which it has entered and shown. -/
structure Settled (s : Session) (n : Node) : Prop where
  found : s.tree.lookup s.current = .ok (some n)
  current : s.current = .scalar n.id
  stays : n.advances = false
  waits : (s.offered.isEmpty && n.next.isNull) = false
  known : s.offersAmong n n.choices.zipIdx = .ok s.offered
  shown : s.presentation = some (shownOf n s.offered)
  /-- The store is the one after the effects of the node, where its conditions held. -/
  entered : ∃ w₀ w, Condition.allHold w₀.store n.conditions = .ok true ∧
    Effect.applyAll w₀ n.effects = (w, none) ∧ s.store = w.store

theorem arrive_known {s s' : Session} {target : Datum} {n : Node} {p : Presentation}
    (h : s.arrive target = (s', .ok (some (n, p)))) :
    s'.offersAmong n n.choices.zipIdx = .ok s'.offered := by
  unfold arrive at h
  rcases hv : s.tree.visit s.world target with ⟨w, f | _ | m⟩
  all_goals rw [hv] at h
  · cases h
  · cases h
  · simp only [present_eq] at h
    rcases ho : offersAmong _ m m.choices.zipIdx with f | offered
    all_goals rw [ho] at h
    · cases h
    · cases h
      refine Eq.trans ?_ ho
      exact offersAmong_congr fun _ _ => rfl

theorem run_settled {s : Session} {target : Datum} {r : StepResult}
    (h : (s.run target).2 = .ok r) (hp : (s.run target).1.phase = .presenting) :
    ∃ n, (s.run target).1.Settled n := by
  obtain ⟨left, ps, s', last, -, he⟩ := run_cases s target
  generalize s.run target = o at he h hp ⊢
  cases he with
  | broken | unmeasured | overrun => cases h
  | absent => cases hp
  | @settled s'' n p here stays =>
    obtain ⟨w, ⟨hf, ha, he⟩, rfl, rfl⟩ := arrive_some here
    have hk := arrive_known here
    refine ⟨n, Tree.lookup_id hf, rfl, stays, ?_, ?_, rfl, _, w, ha, he, rfl⟩
    · by_contra hn
      have hc : ((shownOf n (s'.openIn w.store n)).choices.isEmpty && n.next.isNull) = true := by
        rw [shownOf, List.isEmpty_map]
        exact eq_true_of_ne_false hn
      simp only [settle, hc, if_true] at hp
      cases hp
    · refine Eq.trans ?_ hk
      exact offersAmong_congr fun _ _ => rfl

/-- What a session presents that was reached by calls that return, or fail for a reason that is
about dialogue, is a node where it waits. -/
theorem steps_settled {s₀ : Session} {calls : List Call} (idle : s₀.phase = .idle)
    (behaves : s₀.Behaves calls) (presenting : (s₀.steps calls).phase = .presenting) :
    ∃ n, (s₀.steps calls).Settled n := by
  obtain ⟨pre, c, post, r, -, hstep, -⟩ := last_returned idle behaves presenting
  have hok : ((s₀.steps pre).step c).2 = .ok r := by rw [hstep]
  obtain ⟨s₁, -, he | ⟨-, he⟩⟩ := step_ok hok
  · rw [hstep] at he
    have hs : (s₁.run ((s₀.steps pre).heading c)).1 = s₀.steps calls := by rw [← he]
    rw [← hs] at presenting ⊢
    exact run_settled (by rw [← he]) presenting
  · rw [hstep] at he
    obtain ⟨he, -⟩ := Prod.mk.inj he
    rw [he] at presenting
    cases presenting

/-! ## The node entered anew -/

/-- Entering shows what a session has shown, and leaves its store as it was. -/
structure Resumes (s : Session) (o : Session × Except Fault StepResult) : Prop where
  returned : ∃ r, o.2 = .ok r ∧ r.phase = .presenting ∧ r.presentation = s.presentation
  phase : o.1.phase = .presenting
  current : o.1.current = s.current
  offered : o.1.offered = s.offered
  store : o.1.store.toDatum = s.store.toDatum

/-- The node at which a session waits changes nothing when it is entered once more: its conditions
hold in the store as it is, and after its effects the store and the choices on offer are the
same. -/
structure Still (s : Session) (n : Node) : Prop where
  copyable : s.store.context.isCopyable = true
  allowed : Condition.allHold s.store n.conditions = .ok true
  unchanged : ∃ w, Effect.applyAll s.world n.effects = (w, none) ∧
    w.store.toDatum = s.store.toDatum ∧
    { s with world := w }.offersAmong n n.choices.zipIdx = .ok s.offered

theorem still_of_effects {s : Session} {n : Node} (settled : s.Settled n)
    (copyable : s.store.context.isCopyable = true) (none : n.effects = []) : s.Still n := by
  obtain ⟨w₀, w, ha, he, hw⟩ := settled.entered
  rw [none] at he
  cases he
  refine ⟨copyable, hw ▸ ha, s.world, by rw [none]; rfl, rfl, settled.known⟩

theorem offersAmong_reread {s : Session} (keyed : s.Keyed) (budget : Datum) (n : Node) (w : World)
    (cs : List (Choice × ℕ)) : { s.reread budget with world := w }.offersAmong n cs =
      { s with world := w }.offersAmong n cs := by
  refine offersAmong_congr fun c _ => ?_
  have hk : { s.reread budget with world := w }.hasTaken (s.keyOf n.name c.2) =
      { s with world := w }.hasTaken (s.keyOf n.name c.2) := hasTaken_reread keyed budget _ _ _
  unfold offers
  exact congrArg (fun taken => (c.1.isAvailable w.store).map fun isAvailable =>
    isAvailable && !(c.1.once && taken)) hk

/-- A session waits at a node that offers something or leads on. -/
theorem settle_waits {s : Session} {n : Node} {offered : List (Choice × ℕ)}
    {passed : List Presentation} (waits : (offered.isEmpty && n.next.isNull) = false) :
    s.settle n (shownOf n offered) passed = ({ s with phase := .presenting },
      { phase := .presenting, presentation := some (shownOf n offered), passed }) := by
  have hp : ((shownOf n offered).choices.isEmpty && n.next.isNull) = false := by
    rw [shownOf, List.isEmpty_map]
    exact waits
  simp only [settle, hp, Bool.false_eq_true, if_false]

theorem run_of_arrive {s s' : Session} {target : Datum} {n : Node} {p : Presentation}
    (here : s.arrive target = (s', .ok (some (n, p)))) (stays : n.advances = false) :
    s.run target = ((s'.settle n p []).1, .ok (s'.settle n p []).2) := by
  rw [run, runFrom_eq, here]
  simp only [stays, Bool.false_eq_true, if_false]

/-- Where nothing changes, the node is shown as it was when it is entered anew. -/
theorem resumes_of_still {s : Session} {n : Node} (settled : s.Settled n) (keyed : s.Keyed)
    (budget : Datum) (still : s.Still n) :
    s.Resumes ((s.reread budget).enter (s.reread budget).current) := by
  obtain ⟨copyable, ha, w, he, hs, ho⟩ := still
  have hv : (s.reread budget).tree.visit (s.reread budget).world (s.reread budget).current =
      (w, .ok (some n)) := Tree.visit_eq settled.found ha he
  have hk : { s.reread budget with world := w }.offersAmong n n.choices.zipIdx = .ok s.offered :=
    (offersAmong_reread keyed budget n w _).trans ho
  have hf : s.offered = (s.reread budget).openIn w.store n := offersAmong_ok hk
  have hr := run_of_arrive (arrive_eq hv hk) settled.stays
  rw [← hf, settle_waits settled.waits] at hr
  rw [enter, guarded_eq (s := s.reread budget) copyable (by rw [hr]; exact nofun), hr]
  exact ⟨⟨_, rfl, rfl, settled.shown.symm⟩, rfl, settled.current.symm, hf.symm, hs⟩

/-- A node that is shown as it was when it is entered anew changes nothing. -/
theorem still_of_resumes {s : Session} {n : Node} (settled : s.Settled n) (keyed : s.Keyed)
    (budget : Datum) (h : s.Resumes ((s.reread budget).enter (s.reread budget).current)) :
    s.Still n := by
  obtain ⟨⟨r, hr, hp, -⟩, -, -, ho, hs⟩ := h
  have hg : (s.reread budget).enter (s.reread budget).current =
      (s.reread budget).run (s.reread budget).current := guarded_ok hr
  have hc : s.store.context.isCopyable = true := copyable_of_guarded (s := s.reread budget) hr
  rw [hg] at hr ho hs
  rw [run, runFrom_eq] at hr ho hs
  rcases here : (s.reread budget).arrive (s.reread budget).current with ⟨t, f | _ | ⟨m, p⟩⟩
  all_goals rw [here] at hr ho hs
  · cases hr
  · cases hr
    cases hp
  · have hk := arrive_known here
    obtain ⟨w, ⟨hf, ha, he⟩, rfl, -⟩ := arrive_some here
    have hm : s.tree.lookup s.current = .ok (some m) := hf
    rw [settled.found] at hm
    cases hm
    simp only [settled.stays, Bool.false_eq_true, if_false] at ho hs
    refine ⟨hc, ha, w, he, hs, ?_⟩
    rw [← offersAmong_reread keyed budget, ← ho]
    refine Eq.trans ?_ hk
    exact offersAmong_congr fun _ _ => rfl

/-- A session that presents something, reached by calls that return or fail for a reason that is
about dialogue, can be saved and made again from what was saved. Entering its node there goes on as
it was exactly if the node changes nothing when it is entered once more; a node without effects
never does. -/
theorem resumes_iff {s₀ : Session} {calls : List Call} (idle : s₀.phase = .idle)
    (keyed : s₀.Keyed) (behaves : s₀.Behaves calls)
    (presenting : (s₀.steps calls).phase = .presenting) (budget : Datum) :
    let s := s₀.steps calls
    ∃ n t, s.Settled n ∧ s.save = .ok s.toDatum ∧
      ofDatum s.tree s.world budget s.toDatum = .ok t ∧ t.current = s.current ∧
      (s.Resumes (t.enter t.current) ↔ s.Still n) ∧
      (n.effects = [] → s.store.context.isCopyable = true → s.Resumes (t.enter t.current)) := by
  intro s
  obtain ⟨n, settled⟩ := steps_settled idle behaves presenting
  have hk : s.Keyed := keyed_upheld.steps calls s₀ keyed
  obtain ⟨hsave, hread⟩ := save_read hk budget
  refine ⟨n, s.reread budget, settled, hsave, hread, rfl, ?_, fun none copyable => ?_⟩
  · exact ⟨still_of_resumes settled hk budget, resumes_of_still settled hk budget⟩
  · exact resumes_of_still settled hk budget (still_of_effects settled copyable none)

end Session

end session

namespace Session

attribute [local instance] Text.noHalves

theorem resumes_iff_atTheDoor :
    atTheDoor.phase = .idle ∧ atTheDoor.Keyed ∧ atTheDoor.Behaves [.start] ∧
      (atTheDoor.steps [.start]).phase = .presenting ∧
      ∃ t, ofDatum atTheDoor.tree (atTheDoor.steps [.start]).world Budget.standard
          (atTheDoor.steps [.start]).toDatum = .ok t ∧
        (atTheDoor.steps [.start]).Resumes (t.enter t.current) := by
  have hk : atTheDoor.Keyed := fun _ hk => absurd hk List.not_mem_nil
  have hp : (atTheDoor.steps [.start]).phase = .presenting := by decide +kernel
  have hc : (atTheDoor.steps [.start]).store.context.isCopyable = true := by decide +kernel
  have he : ((atTheDoor.steps [.start]).tree.lookup (atTheDoor.steps [.start]).current).map
      (·.map (·.effects)) = .ok (some []) := by decide +kernel
  obtain ⟨n, t, hn, -, ht, -, -, h⟩ := resumes_iff rfl hk behaves_atTheDoor hp Budget.standard
  rw [hn.found] at he
  exact ⟨rfl, hk, behaves_atTheDoor, hp, t, ht, h (Option.some.inj (Except.ok.inj he)) hc⟩

/-- A session with a node for those who have not met yet, after which they have. -/
def unmet : Session :=
  let bye : Choice := { text := .text "bye", goto := .null, guards := [], deeds := []
                        priority := .null, once := false, requirements := [] }
  let hello : Node :=
    { id := .text "start", text := .null, speaker := .null, portrait := .null, choices := [bye]
      autoAdvance := .null, next := .null, voiceLine := .null, tags := [], priority := .null
      guards := [⟨.null, .comparison (.flag "met") .eqEq (.literal (.bool false))⟩]
      deeds := [⟨.null, .setFlag "met" true⟩] }
  { tree := { id := .text "t", nodes := [hello] }, world := { store := .empty #[] } }

/-- A node that is shut by its own effects is not shown again when a save is gone on with. -/
theorem resumes_not :
    unmet.phase = .idle ∧ unmet.Keyed ∧
      (unmet.step .start).2.map (fun r => (r.phase, r.choices.length)) = .ok (.presenting, 1) ∧
      (ofDatum unmet.tree (unmet.steps [.start]).world Budget.standard
        (unmet.steps [.start]).toDatum).map (fun t =>
          (t.enter t.current).2.map fun r => (r.phase, r.presentation)) =
            .ok (.ok (.terminal, none)) := by
  refine ⟨rfl, fun _ hk => absurd hk List.not_mem_nil, ?_, ?_⟩
  · decide +kernel
  · decide +kernel

end Session

end Colloquy
