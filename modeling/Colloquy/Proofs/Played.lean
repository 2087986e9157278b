import Colloquy.Proofs.Outcome

/-!
# What a run does to the store

The things in a run that have effects are the choices taken and the nodes entered, each one a beat
(`Beat`). Beats play in a world when the conditions of each node hold where it stands and its
effects can be applied there (`Plays`), and then the world is that of all their effects one after
the other (`Plays.applyAll`). The nodes that a call enters are a trail from where it heads
(`Trail`, `step_goes`), and a node whose conditions do not hold is not on it. So a run of calls that
all return plays its beats and nothing else (`steps_plays`).
-/

namespace Colloquy

section session
variable [Text.Halves]

/-- One of the things in a run that have effects. -/
inductive Beat where
  | choice (c : Choice)
  | node (n : Node)

namespace Beat

def effects : Beat → List Effect
  | .choice c => c.effects
  | .node n => n.effects

/-- The conditions that are looked at when the effects are about to be applied. -/
def conditions : Beat → List Condition
  | .choice _ => []
  | .node n => n.conditions

end Beat

/-- Beats play in a world and leave another one behind, apart from what is reported. -/
def Plays : World → List Beat → World → Prop
  | w, [], w' => w.silent = w'.silent
  | w, b :: bs, w' => Condition.allHold w.store b.conditions = .ok true ∧
      ∃ w₁, Effect.applyAll w b.effects = (w₁, none) ∧ Plays w₁ bs w'

namespace Plays

theorem still_left : ∀ {bs : List Beat} {w w₁ w' : World}, w.silent = w₁.silent →
    Plays w bs w' → Plays w₁ bs w'
  | [], _, _, _, h, hp => h.symm.trans hp
  | b :: bs, w, w₁, w', h, ⟨hc, w₂, ha, hp⟩ => by
    obtain ⟨w₃, ha', hs⟩ := Effect.applyAll_still h ha
    exact ⟨World.store_eq_of_silent h ▸ hc, w₃, ha', still_left hs hp⟩

theorem append : ∀ {bs cs : List Beat} {w w₁ w' : World}, Plays w bs w₁ → Plays w₁ cs w' →
    Plays w (bs ++ cs) w'
  | [], _, _, _, _, h, h' => h'.still_left (h : _ = _).symm
  | _ :: _, _, _, _, _, ⟨hc, w₂, ha, hp⟩, h' => ⟨hc, w₂, ha, append hp h'⟩

/-- Beats that play leave the world behind that all their effects do, in order and once each. -/
theorem applyAll : ∀ {bs : List Beat} {w w' : World}, Plays w bs w' →
    Effect.SilentlySame (Effect.applyAll w (bs.flatMap Beat.effects)) (w', none)
  | [], _, _, h => ⟨h, rfl⟩
  | b :: bs, w, w', ⟨_, w₁, ha, hp⟩ => by
    rw [List.flatMap_cons, Effect.applyAll_append, ha]
    exact applyAll hp

/-- Where a beat stands, its conditions hold. -/
theorem allowed : ∀ {pre post : List Beat} {b : Beat} {w w' : World},
    Plays w (pre ++ b :: post) w' →
    Condition.allHold (Effect.applyAll w (pre.flatMap Beat.effects)).1.store b.conditions = .ok true
  | [], _, _, _, _, h => h.1
  | c :: pre, post, b, w, w', ⟨_, w₁, ha, hp⟩ => by
    rw [List.flatMap_cons, Effect.applyAll_append, ha]
    exact allowed hp

end Plays

/-! ## Trails -/

/-- The nodes that are entered on the way from a target, each with its conditions true where it is
entered and its effects applied there. The way ends where there is no node, at a node whose
conditions do not all hold, which does nothing, and at one that does not advance by itself. -/
inductive Trail (t : Tree) : World → Datum → List Node → World → Prop
  | unknown {w w' : World} {target : Datum} (none : t.lookup target = .ok none)
      (still : w.silent = w'.silent) : Trail t w target [] w'
  | shut {w w' : World} {target : Datum} {n : Node} (found : t.lookup target = .ok (some n))
      (shut : Condition.allHold w.store n.conditions = .ok false) (still : w.silent = w'.silent) :
      Trail t w target [] w'
  | last {w w₁ w' : World} {target : Datum} {n : Node}
      (found : t.lookup target = .ok (some n))
      (allowed : Condition.allHold w.store n.conditions = .ok true)
      (applied : Effect.applyAll w n.effects = (w₁, none)) (still : w₁.silent = w'.silent)
      (stays : n.advances = false) : Trail t w target [n] w'
  | hop {w w₁ w₂ w' : World} {target : Datum} {n : Node} {ns : List Node}
      (found : t.lookup target = .ok (some n))
      (allowed : Condition.allHold w.store n.conditions = .ok true)
      (applied : Effect.applyAll w n.effects = (w₁, none)) (still : w₁.silent = w₂.silent)
      (advances : n.advances = true) (rest : Trail t w₂ n.next ns w') :
      Trail t w target (n :: ns) w'

namespace Trail

theorem plays {t : Tree} {w w' : World} {target : Datum} {ns : List Node}
    (h : Trail t w target ns w') : Plays w (ns.map .node) w' := by
  induction h with
  | unknown _ still => exact still
  | shut _ _ still => exact still
  | last _ allowed applied still => exact ⟨allowed, _, applied, still⟩
  | hop _ allowed applied still _ _ ih => exact ⟨allowed, _, applied, ih.still_left still.symm⟩

/-- Every node on a trail is found under its own id. -/
theorem lookup_id {t : Tree} {w w' : World} {target : Datum} {ns : List Node}
    (h : Trail t w target ns w') : ∀ n ∈ ns, t.lookup (.scalar n.id) = .ok (some n) := by
  induction h with
  | unknown => exact fun _ hn => absurd hn List.not_mem_nil
  | shut => exact fun _ hn => absurd hn List.not_mem_nil
  | last found =>
    intro m hm
    obtain rfl := List.mem_singleton.1 hm
    exact Tree.lookup_id found
  | hop found _ _ _ _ _ ih => exact List.forall_mem_cons.2 ⟨Tree.lookup_id found, ih⟩

theorem still_left {t : Tree} {w w₁ w' : World} {target : Datum} {ns : List Node}
    (h : Trail t w target ns w') (still : w.silent = w₁.silent) : Trail t w₁ target ns w' := by
  cases h with
  | unknown none still' => exact .unknown none (still.symm.trans still')
  | shut found shut still' =>
    exact .shut found (World.store_eq_of_silent still ▸ shut) (still.symm.trans still')
  | last found allowed applied still' stays =>
    obtain ⟨_, applied', hs⟩ := Effect.applyAll_still still applied
    exact .last found (World.store_eq_of_silent still ▸ allowed) applied' (hs.symm.trans still')
      stays
  | hop found allowed applied still' advances rest =>
    obtain ⟨_, applied', hs⟩ := Effect.applyAll_still still applied
    exact .hop found (World.store_eq_of_silent still ▸ allowed) applied' (hs.symm.trans still')
      advances rest

end Trail

namespace Session

theorem trail_of_hops {s s' : Session} {target last : Datum} {ps : List (Node × Presentation)}
    (h : Hops s target ps s' last) : s'.tree = s.tree ∧
      s'.history = s.history ++ ps.map (Datum.scalar ·.1.id) ∧
      ∀ {ns : List Node} {w' : World}, Trail s.tree s'.world last ns w' →
        Trail s.tree s.world target (ps.map (·.1) ++ ns) w' := by
  induction h with
  | done s target => exact ⟨rfl, by simp, id⟩
  | @hop s s₁ s₂ target last n p ps here advances _ ih =>
    obtain ⟨w, ⟨hf, ha, he⟩, rfl, -⟩ := arrive_some here
    obtain ⟨ht, hh, hr⟩ := ih
    have still : w.silent = (s.arrivedAt n w).world.silent := rfl
    refine ⟨ht, ?_, fun h => .hop hf ha he still advances (hr h)⟩
    rw [hh]
    simp [arrivedAt]

/-- The nodes that a run adds to the history are a trail. -/
theorem run_trail {s : Session} {target : Datum} {r : StepResult}
    (h : (s.run target).2 = .ok r) : ∃ ns, Trail s.tree s.world target ns (s.run target).1.world ∧
      (s.run target).1.history = s.history ++ ns.map (Datum.scalar ·.id) := by
  obtain ⟨left, ps, s', last, hps, he⟩ := run_cases s target
  obtain ⟨ht, hh, hr⟩ := trail_of_hops hps
  generalize s.run target = o at he h ⊢
  cases he with
  | broken => exact absurd h nofun
  | absent here =>
    obtain ⟨⟨js, rfl⟩, hl⟩ := arrive_none here
    refine ⟨ps.map (·.1) ++ [], hr ?_, by simp [finish, note, hh]⟩
    rcases hl with hl | ⟨n, hl, hc⟩
    · exact .unknown (ht ▸ hl) rfl
    · exact .shut (ht ▸ hl) hc rfl
  | unmeasured => exact absurd h nofun
  | overrun => exact absurd h nofun
  | @settled s'' n p here stays =>
    obtain ⟨w, ⟨hf, ha, he⟩, rfl, -⟩ := arrive_some here
    refine ⟨ps.map (·.1) ++ [n], hr (.last (ht ▸ hf) ha he rfl stays), ?_⟩
    simp [settle, arrivedAt, hh]

/-- The nodes that some ids name. -/
def nodesOf (t : Tree) (ids : List Datum) : List Node :=
  ids.filterMap fun id =>
    match t.lookup id with
    | .ok n => n
    | .error _ => none

/-- The nodes that a call adds to the history, in its order. -/
def entered (s : Session) (c : Call) : List Node :=
  nodesOf s.tree ((s.step c).1.history.drop s.history.length)

/-- The world in which a call sets out, after the effects of the choice that it takes. -/
def atStart (s : Session) (c : Call) : World := (Effect.applyAll s.world (s.chosen c)).1

def beatsOf (s : Session) (c : Call) : List Beat :=
  (s.taken? c).toList.map .choice ++ (s.entered c).map .node

/-- The beats of the calls of a run. -/
def beats : Session → List Call → List Beat
  | _, [] => []
  | s, c :: calls => s.beatsOf c ++ beats (s.step c).1 calls

/-- All calls of a run return. -/
def Returns : Session → List Call → Prop
  | _, [] => True
  | s, c :: calls => (∃ r, (s.step c).2 = .ok r) ∧ Returns (s.step c).1 calls

theorem entered_eq {s : Session} {c : Call} {ns : List Node}
    (hn : ∀ n ∈ ns, s.tree.lookup (.scalar n.id) = .ok (some n))
    (hh : (s.step c).1.history = s.history ++ ns.map (Datum.scalar ·.id)) : s.entered c = ns := by
  unfold entered nodesOf
  rw [hh, List.drop_left, List.filterMap_map]
  clear hh
  induction ns with
  | nil => rfl
  | cons n ns ih =>
    rw [List.forall_mem_cons] at hn
    rw [List.filterMap_cons, ih hn.2]
    simp only [Function.comp_apply, hn.1]

/-- How a call goes that returns: the effects of the choice that it takes are applied without fault,
and from there the nodes that it adds to the history are a trail from where it heads. -/
structure Goes (s : Session) (c : Call) : Prop where
  resolved : (Effect.applyAll s.world (s.chosen c)).2 = none
  history : (s.step c).1.history = s.history ++ (s.entered c).map (Datum.scalar ·.id)
  trail : Trail s.tree (s.atStart c) (s.heading c) (s.entered c) (s.step c).1.world

theorem step_goes {s : Session} {c : Call} {r : StepResult} (h : (s.step c).2 = .ok r) :
    s.Goes c := by
  obtain ⟨s₁, hs, he⟩ := step_ok h
  obtain ⟨ht, hh, -, -⟩ := hs.kept
  obtain ⟨js, ha⟩ := hs.effects
  have hw : s₁.world.silent = (s.atStart c).silent := by
    rw [atStart, ha]
    rfl
  rcases he with he | ⟨hn, he⟩
  · rw [he] at h
    obtain ⟨ns, hr, hs⟩ := run_trail h
    rw [hh, ← he] at hs
    rw [ht] at hr
    have hns := entered_eq hr.lookup_id hs
    refine ⟨by rw [ha], hns ▸ hs, ?_⟩
    rw [hns, he]
    exact hr.still_left hw
  · have hs : (s.step c).1.history = s.history ++ ([] : List Node).map (Datum.scalar ·.id) := by
      rw [he]
      simp [finish, note, hh]
    have hns := entered_eq (fun _ hn => absurd hn List.not_mem_nil) hs
    refine ⟨by rw [ha], hns ▸ hs, ?_⟩
    rw [hns, hn, he]
    exact .unknown rfl hw.symm

/-! ## Runs -/

theorem step_plays {s : Session} {c : Call} (h : s.Goes c) :
    Plays s.world (s.beatsOf c) (s.step c).1.world := by
  obtain ⟨hc, -, ht⟩ := h
  have hp := ht.plays
  unfold beatsOf
  rcases hk : s.taken? c with _ | taken
  · have hw : s.atStart c = s.world := by simp [atStart, chosen, hk, Effect.applyAll]
    exact hw ▸ hp
  · have he : s.chosen c = taken.effects := by simp [chosen, hk]
    have ha : Effect.applyAll s.world (s.chosen c) = (s.atStart c, none) := Prod.ext rfl hc
    rw [he] at ha
    exact ⟨rfl, s.atStart c, ha, hp⟩

theorem steps_plays : ∀ {calls : List Call} {s : Session}, s.Returns calls →
    Plays s.world (s.beats calls) (s.steps calls).world
  | [], _, _ => rfl
  | _ :: _, _, ⟨⟨_, hr⟩, h⟩ => (step_plays (step_goes hr)).append (steps_plays h)

theorem goes_of_returns {post : List Call} {c : Call} : ∀ (pre : List Call) {s : Session},
    s.Returns (pre ++ c :: post) → (s.steps pre).Goes c
  | [], _, ⟨⟨_, hr⟩, _⟩ => step_goes hr
  | _ :: pre, _, ⟨_, h⟩ => goes_of_returns pre h

/-- A run of calls that all return applies the effects of the choices taken and of the nodes added to
the history, in this order and once each, and nothing else. The conditions of each node hold where
its effects begin, and a call ends at a node whose conditions do not hold without doing anything
there. -/
theorem steps_effects {s : Session} {calls : List Call} (h : s.Returns calls) :
    (Effect.applyAll s.world ((s.beats calls).flatMap Beat.effects)).2 = none ∧
      (s.steps calls).store =
        (Effect.applyAll s.world ((s.beats calls).flatMap Beat.effects)).1.store ∧
      (∀ pre n post, s.beats calls = pre ++ .node n :: post →
        Condition.allHold (Effect.applyAll s.world (pre.flatMap Beat.effects)).1.store
          n.conditions = .ok true) ∧
      ∀ pre c post, calls = pre ++ c :: post → (s.steps pre).Goes c := by
  have hp := steps_plays h
  obtain ⟨hw, hf⟩ := hp.applyAll
  refine ⟨hf, (World.store_eq_of_silent hw).symm, fun pre n post he => ?_, fun pre c post he => ?_⟩
  · rw [he] at hp
    exact hp.allowed
  · exact goes_of_returns pre (he ▸ h)

end Session

end session

namespace Session

attribute [local instance] Text.noHalves

/-- A session at the door of a house: a hall that leads on to a room that is shut. -/
def atTheDoor : Session :=
  let bare : Node := { id := .text "door", text := .null, speaker := .null, portrait := .null
                       choices := [], autoAdvance := .null, next := .null, voiceLine := .null
                       guards := [], deeds := [], tags := [], priority := .null }
  let knock : Choice := { text := .null, goto := .text "hall", guards := [], priority := .null
                          deeds := [⟨.null, .setFlag "knocked" true⟩], once := true
                          requirements := [] }
  let door := { bare with choices := [knock] }
  let hall := { bare with
    id := .text "hall", autoAdvance := .bool true, next := .text "room"
    guards := [⟨.null, .flag "knocked"⟩], deeds := [⟨.null, .moveQuest "visit" .start⟩] }
  let room := { bare with
    id := .text "room", guards := [⟨.null, .flag "invited"⟩]
    deeds := [⟨.null, .moveQuest "visit" .complete⟩] }
  { tree := { id := .text "house", start := .text "door", nodes := [door, hall, room] }
    world := { store := .empty #[] } }

theorem steps_effects_atTheDoor :
    atTheDoor.Returns [.start, .choose (.int 0)] ∧
      (Effect.applyAll atTheDoor.world ((atTheDoor.beats [.start, .choose (.int 0)]).flatMap
        Beat.effects)).2 = none ∧
      ((atTheDoor.steps [.start]).entered (.choose (.int 0))).map (·.name) = ["hall"] := by
  have hr : atTheDoor.Returns [.start, .choose (.int 0)] :=
    ⟨ok_of_isOk (by decide +kernel), ok_of_isOk (by decide +kernel), trivial⟩
  exact ⟨hr, (steps_effects hr).1, by decide +kernel⟩

end Session

end Colloquy
