import Colloquy.Proofs.Scripts
import Colloquy.Proofs.Walk

/-!
# Arriving at a node

Going to a node comes to one of four things (`Arriving`, `arrive_cases`), and changes the world,
the history and what is shown, and nothing else of a session (`arrive_kept`). A session that
arrives has found the node with all its conditions true, has applied its effects, and offers those
of its choices that are open to it, in order (`arrive_some`). Where there is no node to go to,
nothing is done but reporting (`arrive_none`), and a fault on the way is never one about dialogue
(`arrive_error`).
-/

namespace Colloquy

/-- No text at hand has half a surrogate pair. -/
@[reducible] def Text.noHalves : Text.Halves := ⟨[]⟩

variable [Text.Halves]

/-- A node whose conditions hold is come to with its effects applied. -/
theorem Tree.visit_eq {t : Tree} {w w₁ : World} {target : Datum} {n : Node}
    (found : t.lookup target = .ok (some n))
    (allowed : Condition.allHold w.store n.conditions = .ok true)
    (applied : Effect.applyAll w n.effects = (w₁, none)) :
    t.visit w target = (w₁, .ok (some n)) := by
  rw [visit, found]
  simp only
  rw [allowed, applied]

namespace Session

/-- Whether a choice of a node is open: its conditions hold in a store, and it is not one that
was taken once. -/
def isOpen (s : Session) (at_ : Store) (n : Node) (c : Choice × ℕ) : Bool :=
  (c.1.isAvailable at_).toOption == some true && !(c.1.once && s.hasTaken (s.keyOf n.name c.2))

/-- The choices of a node that are open, each with its place among all of them. -/
def openIn (s : Session) (at_ : Store) (n : Node) : List (Choice × ℕ) :=
  n.choices.zipIdx.filter (s.isOpen at_ n)

theorem mem_openIn {s : Session} {at_ : Store} {n : Node} {c : Choice} {place : ℕ}
    (h : (c, place) ∈ s.openIn at_ n) : n.choices[place]? = some c :=
  List.mem_zipIdx_iff_getElem?.1 (List.mem_filter.1 h).1

theorem offers_ok {s : Session} {n : Node} {c : Choice × ℕ} {b : Bool}
    (h : s.offers n c = .ok b) : s.isOpen s.store n c = b := by
  unfold offers at h
  rcases ha : c.1.isAvailable s.store with f | a
  · rw [ha] at h
    exact absurd h nofun
  · rw [ha] at h
    rw [← Except.ok.inj h, isOpen, ha]
    cases a <;> rfl

theorem offersAmong_ok {s : Session} {n : Node} : ∀ {cs offered : List (Choice × ℕ)},
    s.offersAmong n cs = .ok offered → offered = cs.filter (s.isOpen s.store n)
  | [], _, h => (Except.ok.inj h).symm
  | c :: cs, offered, h => by
    unfold offersAmong at h
    split at h
    · exact absurd h nofun
    · rename_i rest hc hr
      rw [List.filter_cons_of_pos (offers_ok hc), ← offersAmong_ok hr]
      exact (Except.ok.inj h).symm
    · rename_i rest hc hr
      rw [List.filter_cons_of_neg (by simp [offers_ok hc]), ← offersAmong_ok hr]
      exact (Except.ok.inj h).symm
    · exact absurd h nofun

theorem offersAmong_error {s : Session} {n : Node} {f : Fault} : ∀ {cs : List (Choice × ℕ)},
    s.offersAmong n cs = .error f → f = .tooDeep
  | [], h => absurd h nofun
  | c :: cs, h => by
    unfold offersAmong at h
    split at h
    · rename_i hc
      obtain rfl := Except.error.inj h
      unfold offers at hc
      rcases ha : c.1.isAvailable s.store with g | a
      · rw [ha] at hc
        exact Except.error.inj hc ▸ Condition.allHold_error ha
      · rw [ha] at hc
        exact absurd hc nofun
    · exact absurd h nofun
    · exact absurd h nofun
    · rename_i hr
      exact Except.error.inj h ▸ offersAmong_error hr

/-- What is on offer only depends on what is offered of each choice. -/
theorem offersAmong_congr {s s' : Session} {n n' : Node} : ∀ {cs : List (Choice × ℕ)},
    (∀ c ∈ cs, s'.offers n' c = s.offers n c) → s'.offersAmong n' cs = s.offersAmong n cs
  | [], _ => rfl
  | c :: cs, h => by
    rw [List.forall_mem_cons] at h
    rw [offersAmong, offersAmong, h.1, offersAmong_congr h.2]

/-- Where it is known of each choice whether its conditions hold, it is known what is on offer. -/
theorem offersAmong_eq {s : Session} {n : Node} : ∀ {cs : List (Choice × ℕ)},
    (∀ c ∈ cs, ∃ a, c.1.isAvailable s.store = .ok a) →
      s.offersAmong n cs = .ok (cs.filter (s.isOpen s.store n))
  | [], _ => rfl
  | c :: cs, h => by
    rw [List.forall_mem_cons] at h
    obtain ⟨a, ha⟩ := h.1
    have ho : s.offers n c = .ok (s.isOpen s.store n c) := by
      rw [offers, isOpen, ha]
      cases a <;> rfl
    rw [offersAmong, ho, offersAmong_eq h.2]
    cases hc : s.isOpen s.store n c
    · rw [List.filter_cons_of_neg (by simp [hc])]
    · rw [List.filter_cons_of_pos hc]

/-- What is shown of a node with some of its choices on offer. -/
def shownOf (n : Node) (offered : List (Choice × ℕ)) : Presentation where
  node := n.name
  text := n.text
  speaker := n.speaker
  portrait := n.portrait
  voiceLine := n.voiceLine
  choices := offered.map (·.1)
  next := n.next

/-- A session that faces a node, whatever it offers there. -/
def facing (s : Session) (n : Node) : Session :=
  { s with current := .scalar n.id, world := s.world.noteAll (n.choiceNotices s.store) }

theorem present_eq (s : Session) (n : Node) : s.present n =
    match s.offersAmong n n.choices.zipIdx with
    | .error f => (s.facing n, .error f)
    | .ok offered => ({ s.facing n with offered, presentation := some (shownOf n offered) },
        .ok (shownOf n offered)) := rfl

/-- A session after it has arrived at a node that left a world behind. -/
def arrivedAt (s : Session) (n : Node) (w : World) : Session :=
  { s with
    world := w.noteAll (n.choiceNotices w.store)
    history := s.history ++ [Datum.scalar n.id]
    current := .scalar n.id
    offered := s.openIn w.store n
    presentation := some (shownOf n (s.openIn w.store n)) }

/-- What arriving at a node takes, and what it leaves behind. -/
structure Arrived (s : Session) (target : Datum) (n : Node) (w : World) : Prop where
  found : s.tree.lookup target = .ok (some n)
  allowed : Condition.allHold s.store n.conditions = .ok true
  applied : Effect.applyAll s.world n.effects = (w, none)

theorem visit_some {s : Session} {target : Datum} {w : World} {n : Node}
    (h : s.tree.visit s.world target = (w, .ok (some n))) : s.Arrived target n w := by
  unfold Tree.visit at h
  split at h
  · exact absurd h nofun
  · exact absurd h nofun
  · rename_i m hl
    split at h
    · exact absurd h nofun
    · rename_i ha
      split at h
      · rename_i w' he
        obtain ⟨rfl, hm⟩ := Prod.mk.inj h
        obtain rfl := Option.some.inj (Except.ok.inj hm)
        exact ⟨hl, ha, he⟩
      · exact absurd h nofun
    · exact absurd h nofun

theorem visit_none {s : Session} {target : Datum} {w : World}
    (h : s.tree.visit s.world target = (w, .ok none)) :
    (∃ js, w = { s.world with journal := js }) ∧
      (s.tree.lookup target = .ok none ∨ ∃ n, s.tree.lookup target = .ok (some n) ∧
        Condition.allHold s.store n.conditions = .ok false) := by
  unfold Tree.visit at h
  split at h
  · exact absurd h nofun
  · rename_i hl
    obtain ⟨rfl, -⟩ := Prod.mk.inj h
    exact ⟨⟨_, rfl⟩, .inl hl⟩
  · rename_i n hl
    split at h
    · exact absurd h nofun
    · split at h
      · exact absurd h nofun
      · exact absurd h nofun
    · rename_i ha
      obtain ⟨rfl, -⟩ := Prod.mk.inj h
      exact ⟨⟨_, rfl⟩, .inr ⟨n, hl, ha⟩⟩

/-- What going to a node that a value names comes to. -/
inductive Arriving (s : Session) (target : Datum) :
    Session × Except Fault (Option (Node × Presentation)) → Prop
  | failed {w : World} {f : Fault} (visited : s.tree.visit s.world target = (w, .error f)) :
      Arriving s target ({ s with world := w }, .error f)
  | nowhere {w : World} (visited : s.tree.visit s.world target = (w, .ok none)) :
      Arriving s target ({ s with world := w }, .ok none)
  | unclear {w : World} {n : Node} (visited : s.tree.visit s.world target = (w, .ok (some n))) :
      Arriving s target (facing { s with
        world := w
        history := s.history ++ [Datum.scalar n.id] } n, .error .tooDeep)
  | shown {w : World} {n : Node} (visited : s.tree.visit s.world target = (w, .ok (some n))) :
      Arriving s target (s.arrivedAt n w, .ok (some (n, shownOf n (s.openIn w.store n))))

theorem arrive_cases (s : Session) (target : Datum) : s.Arriving target (s.arrive target) := by
  unfold arrive
  rcases hv : s.tree.visit s.world target with ⟨w, f | _ | n⟩
  · exact .failed hv
  · exact .nowhere hv
  · simp only [present_eq]
    rcases ho : offersAmong _ n n.choices.zipIdx with f | offered
    · obtain rfl := offersAmong_error ho
      exact .unclear hv
    · obtain rfl : offered = s.openIn w.store n := offersAmong_ok ho
      exact .shown hv

theorem arrive_some {s s' : Session} {target : Datum} {n : Node} {p : Presentation}
    (h : s.arrive target = (s', .ok (some (n, p)))) :
    ∃ w, s.Arrived target n w ∧ s' = s.arrivedAt n w ∧ p = shownOf n (s.openIn w.store n) := by
  have hc := arrive_cases s target
  rw [h] at hc
  cases hc with
  | shown hv => exact ⟨_, visit_some hv, rfl, rfl⟩

/-- A session arrives at a node that it comes to if it is known what is on offer there. -/
theorem arrive_eq {s : Session} {target : Datum} {n : Node} {w : World}
    {offered : List (Choice × ℕ)} (visited : s.tree.visit s.world target = (w, .ok (some n)))
    (known : { s with world := w }.offersAmong n n.choices.zipIdx = .ok offered) :
    s.arrive target = (s.arrivedAt n w, .ok (some (n, shownOf n (s.openIn w.store n)))) := by
  have ho : { s with world := w, history := s.history ++ [Datum.scalar n.id] }.offersAmong n
      n.choices.zipIdx = .ok (s.openIn w.store n) := by
    have hf : offered = s.openIn w.store n := offersAmong_ok known
    rw [← hf, ← known]
    exact offersAmong_congr fun _ _ => rfl
  rw [arrive, visited]
  simp only [present_eq, ho]
  rfl

theorem arrive_none {s s' : Session} {target : Datum} (h : s.arrive target = (s', .ok none)) :
    (∃ js, s' = { s with world := { s.world with journal := js } }) ∧
      (s.tree.lookup target = .ok none ∨ ∃ n, s.tree.lookup target = .ok (some n) ∧
        Condition.allHold s.store n.conditions = .ok false) := by
  have hc := arrive_cases s target
  rw [h] at hc
  cases hc with
  | nowhere hv =>
    obtain ⟨⟨js, rfl⟩, hl⟩ := visit_none hv
    exact ⟨⟨js, rfl⟩, hl⟩

theorem arrive_error {s : Session} {target : Datum} {f : Fault}
    (h : (s.arrive target).2 = .error f) : f.isDialogue = false := by
  have hc := arrive_cases s target
  generalize s.arrive target = o at hc h
  cases hc with
  | failed hv =>
    obtain rfl := Except.error.inj h
    exact Tree.visit_error (congrArg Prod.snd hv)
  | nowhere => cases h
  | unclear =>
    obtain rfl := Except.error.inj h
    rfl
  | shown => cases h

/-- Only values that are nested too deeply stop a session between two nodes. -/
theorem arrive_broken {s s' : Session} {target : Datum} {f : Fault}
    (h : s.arrive target = (s', .error f)) (hf : f ≠ .tooDeep) :
    ∃ w, s' = { s with world := w } := by
  have hc := arrive_cases s target
  rw [h] at hc
  cases hc with
  | @failed w _ _ => exact ⟨w, rfl⟩
  | unclear => exact absurd rfl hf

/-- What a session keeps when it arrives somewhere, or fails to. -/
structure Kept (s s' : Session) : Prop where
  tree : s'.tree = s.tree
  budget : s'.budget = s.budget
  onceTaken : s'.onceTaken = s.onceTaken
  phase : s'.phase = s.phase
  failure : s'.failure = s.failure

theorem arrive_kept (s : Session) (target : Datum) : s.Kept (s.arrive target).1 := by
  have hc := arrive_cases s target
  generalize s.arrive target = o at hc ⊢
  cases hc with
  | failed | nowhere | unclear | shown => exact ⟨rfl, rfl, rfl, rfl, rfl⟩

omit [Text.Halves] in
theorem Kept.refl (s : Session) : s.Kept s := ⟨rfl, rfl, rfl, rfl, rfl⟩

omit [Text.Halves] in
theorem Kept.trans {s s₁ s₂ : Session} (h : s.Kept s₁) (h' : s₁.Kept s₂) : s.Kept s₂ :=
  ⟨h'.tree.trans h.tree, h'.budget.trans h.budget, h'.onceTaken.trans h.onceTaken,
    h'.phase.trans h.phase, h'.failure.trans h.failure⟩

theorem hops_kept {s s' : Session} {target last : Datum} {ps : List (Node × Presentation)}
    (h : Hops s target ps s' last) : s.Kept s' := by
  induction h with
  | done s => exact .refl s
  | @hop s s₁ s₂ target last n p ps here _ _ ih =>
    have hk := arrive_kept s target
    rw [here] at hk
    exact hk.trans ih

/-- A session stays on its tree. -/
theorem tree_upheld : Upheld fun s s' : Session => s'.tree = s.tree where
  refl _ := rfl
  trans h h' := h'.trans h
  arrive s target := (arrive_kept s target).tree
  finish _ := rfl
  settle _ _ _ _ := rfl
  overrun _ _ := rfl
  resolve s index c _ := (resolve_kept s index c).1
  undo {s before} h := (undo_kept s before).1.trans h

/-- No run adds to the choices taken once, or takes from them. -/
theorem run_onceTaken (s : Session) (target : Datum) :
    (s.run target).1.onceTaken = s.onceTaken := by
  obtain ⟨left, ps, s', last, hps, he⟩ := run_cases s target
  have hk := (arrive_kept s' last).onceTaken
  generalize s.run target = o at he ⊢
  rw [← (hops_kept hps).onceTaken]
  cases he with
  | broken here => rwa [here] at hk
  | absent here => rwa [here] at hk
  | unmeasured here => rwa [here] at hk
  | overrun here => rwa [here] at hk
  | settled here => rwa [here] at hk

end Session

end Colloquy
