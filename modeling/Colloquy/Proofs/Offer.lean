import Colloquy.Proofs.Played
import Mathlib.Data.List.Induction

/-!
# What is offered and what is taken

A session that presents something is as the last call that returned has left it (`last_returned`):
it stands at the node that the call came to last, and offers those of its choices that are open in
the store after the effects of the node (`step_offers`). An index that is on offer takes the choice
at that place of what was presented (`takes_of_offered`), and any other value takes nothing and
changes nothing (`choose_other`).
-/

namespace Colloquy

section session
variable [Text.Halves]

/-- What plays up to a last beat, and that beat. -/
theorem Plays.last : ∀ {bs : List Beat} {b : Beat} {w w' : World}, Plays w (bs ++ [b]) w' →
    ∃ w₀ w₁, Plays w bs w₀ ∧ Condition.allHold w₀.store b.conditions = .ok true ∧
      Effect.applyAll w₀ b.effects = (w₁, none) ∧ w₁.silent = w'.silent
  | [], _, w, _, ⟨hc, w₁, ha, hw⟩ => ⟨w, w₁, rfl, hc, ha, hw⟩
  | _ :: _, _, _, _, ⟨hc, _, ha, hp⟩ => by
    obtain ⟨w₀, w₁, hp, hc', ha', hw⟩ := last hp
    exact ⟨w₀, w₁, ⟨hc, _, ha, hp⟩, hc', ha', hw⟩

namespace Session

theorem steps_append (s : Session) (cs ds : List Call) :
    s.steps (cs ++ ds) = (s.steps cs).steps ds := List.foldl_append

/-! ## The last call that returned -/

/-- The calls of a run return, or fail with faults that are about dialogue. -/
def Behaves : Session → List Call → Prop
  | _, [] => True
  | s, c :: calls =>
    (∀ f, (s.step c).2 = .error f → f.isDialogue = true) ∧ Behaves (s.step c).1 calls

/-- No call of a run returns. -/
def Fails : Session → List Call → Prop
  | _, [] => True
  | s, c :: calls => (∃ f, (s.step c).2 = .error f) ∧ Fails (s.step c).1 calls

theorem behaves_append (ds : List Call) : ∀ (cs : List Call) (s : Session),
    s.Behaves (cs ++ ds) ↔ s.Behaves cs ∧ (s.steps cs).Behaves ds
  | [], _ => by simp [Behaves, steps]
  | c :: cs, s => by
    simp only [List.cons_append, Behaves, behaves_append ds cs (s.step c).1, and_assoc]
    rfl

theorem fails_append (ds : List Call) : ∀ (cs : List Call) (s : Session),
    s.Fails (cs ++ ds) ↔ s.Fails cs ∧ (s.steps cs).Fails ds
  | [], _ => by simp [Fails, steps]
  | c :: cs, s => by
    simp only [List.cons_append, Fails, fails_append ds cs (s.step c).1, and_assoc]
    rfl

/-- What a session presents was left by the last call that returned. -/
theorem last_returned {s : Session} {calls : List Call} (idle : s.phase = .idle)
    (hb : s.Behaves calls) (hp : (s.steps calls).phase = .presenting) :
    ∃ pre c post r, calls = pre ++ c :: post ∧
      (s.steps pre).step c = (s.steps calls, .ok r) ∧ (s.steps calls).Fails post := by
  induction calls using List.reverseRecOn with
  | nil => exact absurd (idle.symm.trans hp) nofun
  | append_singleton calls c ih =>
    obtain ⟨hb, hc, -⟩ := (behaves_append _ _ _).1 hb
    have hs : s.steps (calls ++ [c]) = ((s.steps calls).step c).1 := steps_append s calls [c]
    rw [hs] at hp ⊢
    rcases ho : ((s.steps calls).step c).2 with f | r
    · rcases step_fails ho (hc f ho) with he | he
      · rw [he] at hp ⊢
        obtain ⟨pre, c', post, r, rfl, hr, hf⟩ := ih hb hp
        have hn : (s.steps (pre ++ c' :: post)).steps post = s.steps (pre ++ c' :: post) := calc
          _ = ((s.steps pre).step c').1.steps post := by rw [hr]
          _ = (s.steps pre).steps (c' :: post) := rfl
          _ = s.steps (pre ++ c' :: post) := (steps_append _ _ _).symm
        refine ⟨pre, c', post ++ [c], r, by simp, hr, (fails_append _ _ _).2 ⟨hf, ?_⟩⟩
        rw [hn]
        exact ⟨⟨f, ho⟩, trivial⟩
      · exact absurd (he.phase.symm.trans hp) nofun
    · exact ⟨calls, c, [], r, rfl, Prod.ext rfl ho, trivial⟩

/-! ## The offer -/

/-- What a session offers at the node that a call has come to last. -/
structure Offers (s : Session) (c : Call) (s' : Session) (n : Node) (p : Presentation) : Prop where
  found : s'.tree.lookup s'.current = .ok (some n)
  current : s'.current = .scalar n.id
  /-- The store is the one after the effects of the node, which are the last ones of the call. -/
  entered : ∃ ns w₀ w, s.entered c = ns ++ [n] ∧
    Plays s.world ((s.taken? c).toList.map .choice ++ ns.map .node) w₀ ∧
    Effect.applyAll w₀ n.effects = (w, none) ∧ s'.store = w.store
  offered : s'.offered = s'.openIn s'.store n
  shown : p = shownOf n s'.offered

theorem run_presents {s : Session} {target : Datum} {r : StepResult}
    (h : (s.run target).2 = .ok r) (hp : (s.run target).1.phase = .presenting) :
    ∃ ns n p, (s.run target).1.history = s.history ++ (ns ++ [n]).map (Datum.scalar ·.id) ∧
      (∀ m ∈ ns ++ [n], s.tree.lookup (.scalar m.id) = .ok (some m)) ∧
      (s.run target).1.tree = s.tree ∧ (s.run target).1.current = .scalar n.id ∧
      (s.run target).1.offered = (s.run target).1.openIn (s.run target).1.store n ∧
      p = shownOf n (s.run target).1.offered ∧ r.presentation = some p := by
  obtain ⟨left, ps, s', last, hps, he⟩ := run_cases s target
  obtain ⟨ht, hh, hr⟩ := trail_of_hops hps
  generalize s.run target = o at he h hp ⊢
  cases he with
  | broken => exact absurd h nofun
  | absent => exact absurd hp nofun
  | unmeasured => exact absurd h nofun
  | overrun => exact absurd h nofun
  | @settled s'' n p here stays =>
    obtain ⟨w, ⟨hf, ha, he⟩, rfl, rfl⟩ := arrive_some here
    have hl := (hr (.last (ht ▸ hf) ha he rfl stays)).lookup_id
    refine ⟨ps.map (·.1), n, _, ?_, hl, ht, rfl, rfl, rfl, ?_⟩
    · simp [settle, arrivedAt, hh]
    · obtain rfl := Except.ok.inj h
      rfl

/-- A call that returns and leaves something presented offers what is open in the store after the
effects of the node that it came to last. -/
theorem step_offers {s s' : Session} {c : Call} {r : StepResult} (h : s.step c = (s', .ok r))
    (hp : s'.phase = .presenting) : ∃ n p, r.presentation = some p ∧ s.Offers c s' n p := by
  have hok : (s.step c).2 = .ok r := by rw [h]
  obtain ⟨s₁, hs, he⟩ := step_ok hok
  obtain ⟨ht, hh, -, -⟩ := hs.kept
  rcases he with he | ⟨-, he⟩
  · rw [h] at he
    have hr : (s₁.run (s.heading c)).2 = .ok r := by rw [← he]
    have hr' : (s₁.run (s.heading c)).1 = s' := by rw [← he]
    obtain ⟨ns, n, p, hist, hl, htr, hcur, hoff, hshown, hpres⟩ := run_presents hr (hr' ▸ hp)
    rw [hr'] at hist htr hcur hoff hshown
    rw [ht] at hl htr
    rw [hh] at hist
    have hns : s.entered c = ns ++ [n] := entered_eq hl (by rw [h, hist])
    have hplay := step_plays (step_goes hok)
    rw [h, beatsOf, hns, List.map_append, ← List.append_assoc] at hplay
    obtain ⟨w₀, w, hw, -, ha, hs⟩ := hplay.last
    refine ⟨n, p, hpres, ?_, hcur, ?_, hoff, hshown⟩
    · rw [hcur, htr]
      exact hl n (by simp)
    · exact ⟨ns, w₀, w, hns, hw, ha, (World.store_eq_of_silent hs).symm⟩
  · rw [h] at he
    obtain ⟨rfl, -⟩ := Prod.mk.inj he
    exact absurd hp nofun

/-! ## Taking -/

/-- What choosing by an index comes to that the choice at some place in a node is on offer at. -/
structure Takes (s : Session) (n : Node) (c : Choice) (place index : ℕ) : Prop where
  taken : s.choose (.int index) = s.guarded (s.take index (c, place))
  effectsFirst : Taking s index (c, place) (s.take index (c, place))
  key : s.keyOf s.currentId place = .of s.tree.name n.name place
  accepted : ∀ given available node,
    (s.choose (.int index)).2 ≠ .error (.invalidChoice given available node)
  returns : ∀ r, (s.choose (.int index)).2 = .ok r →
    (Effect.applyAll s.world c.effects).2 = none ∧
    Trail s.tree (Effect.applyAll s.world c.effects).1 c.goto (s.entered (.choose (.int index)))
      (s.choose (.int index)).1.world ∧
    (c.goto = .null → (s.choose (.int index)).1.phase = .terminal) ∧
    (s.choose (.int index)).1.onceTaken =
      if c.once then ChoiceKey.addTo s.onceTaken (.of s.tree.name n.name place) else s.onceTaken

omit [Text.Halves] in
theorem offeredAt?_none {s : Session} {index : Datum}
    (h : ∀ k : ℕ, k < s.offered.length → index ≠ .int k) : s.offeredAt? index = none := by
  unfold offeredAt?
  split
  · rename_i i
    rw [Option.map_eq_none_iff, List.getElem?_eq_none_iff]
    exact Nat.not_lt.1 fun hi => h i hi rfl
  · rfl

theorem run_null (s : Session) : (s.run .null).1.phase = .terminal := by
  unfold run
  rw [runFrom_eq]
  rfl

theorem takes_of_offered {s : Session} {n : Node} {c : Choice} {place i : ℕ}
    (hp : s.phase = .presenting) (hn : s.current = .scalar n.id)
    (hi : s.offered[i]? = some (c, place)) : s.Takes n c place i := by
  have ho := offeredAt?_eq hi
  have hne : s.offered ≠ [] := by
    rintro he
    rw [he] at hi
    exact absurd hi nofun
  have ht : s.choose (.int i) = s.guarded (s.take i (c, place)) := by
    unfold choose
    rw [if_neg (by simp [hp, hne]), ho]
  have hk : s.keyOf s.currentId place = .of s.tree.name n.name place := by
    rw [keyOf, currentId, hn]
    rfl
  refine ⟨ht, take_cases s i (c, place), hk, fun given available node h => ?_, fun r h => ?_⟩
  · obtain ⟨⟨chain, budget, hb⟩, -⟩ :=
      guarded_fails (fun _ => take_fails) (ht ▸ h) rfl
    exact absurd hb nofun
  · obtain ⟨hr, -, htrail⟩ := step_goes (c := .choose (.int i)) h
    rw [atStart, chosen_eq ho, heading_eq ho] at htrail
    rw [chosen_eq ho] at hr
    refine ⟨hr, htrail, fun hg => ?_, ?_⟩
    · obtain ⟨s₁, -, he | ⟨-, he⟩⟩ := step_ok (c := .choose (.int i)) h
      · rw [heading_eq ho, hg] at he
        exact (congrArg (·.1.phase) he).trans (run_null s₁)
      · exact congrArg (·.1.phase) he
    · rw [choose_onceTaken hi h, hk]

/-- No value but the index of a choice on offer takes anything, or changes anything. -/
theorem choose_other {s : Session} {index : Datum} (hp : s.phase = .presenting)
    (h : ∀ k : ℕ, k < s.offered.length → index ≠ .int k) :
    s.choose index = (s, .error (s.badIndex index s.offered.length)) := by
  unfold choose
  split_ifs with hc
  · rcases hc with hc | hc
    · exact absurd hp hc
    · rw [hc]
      rfl
  · rw [offeredAt?_none h]

/-- A session that presents something, reached by calls that return or fail for a reason that is
about dialogue, offers those of the choices of its node that are open in the store after the effects
of that node. An index that is on offer takes the choice at that place of what was presented last,
with the key of its place in the node; any other value takes nothing, and changes nothing. -/
theorem choose_presenting {s₀ : Session} {calls : List Call} (idle : s₀.phase = .idle)
    (behaves : s₀.Behaves calls) (presenting : (s₀.steps calls).phase = .presenting) :
    let s := s₀.steps calls
    ∃ pre c post r p n, calls = pre ++ c :: post ∧ (s₀.steps pre).step c = (s, .ok r) ∧
      s.Fails post ∧ r.presentation = some p ∧ (s₀.steps pre).Offers c s n p ∧
      (∀ k < s.offered.length, ∃ choice place, p.choices[k]? = some choice ∧
        n.choices[place]? = some choice ∧ s.offered[k]? = some (choice, place) ∧
        s.Takes n choice place k) ∧
      ∀ index, (∀ k : ℕ, k < s.offered.length → index ≠ .int k) →
        s.choose index = (s, .error (
          if index.isShowable && s.current.isShowable then
            .invalidChoice index s.offered.length s.current
          else .wrongValue)) := by
  intro s
  obtain ⟨pre, c, post, r, hcalls, hstep, hfails⟩ := last_returned idle behaves presenting
  obtain ⟨n, p, hp, ho⟩ := step_offers hstep presenting
  refine ⟨pre, c, post, r, p, n, hcalls, hstep, hfails, hp, ho, fun k hk => ?_, fun index hi => ?_⟩
  · rcases hc : s.offered[k] with ⟨choice, place⟩
    have hi : s.offered[k]? = some (choice, place) := by rw [List.getElem?_eq_getElem hk, hc]
    have hm := List.mem_of_getElem? hi
    rw [ho.offered] at hm
    refine ⟨choice, place, ?_, mem_openIn hm, hi, takes_of_offered presenting ho.current hi⟩
    rw [ho.shown]
    change (s.offered.map (·.1))[k]? = some choice
    rw [List.getElem?_map, hi]
    rfl
  · exact choose_other presenting hi

end Session

end session

namespace Session

attribute [local instance] Text.noHalves

theorem behaves_atTheDoor : atTheDoor.Behaves [.start] := by
  have hs : (atTheDoor.step .start).2.isOk = true := by decide +kernel
  refine ⟨fun f hf => ?_, trivial⟩
  rw [hf] at hs
  exact absurd hs nofun

theorem choose_presenting_atTheDoor :
    atTheDoor.phase = .idle ∧ atTheDoor.Behaves [.start] ∧
      (atTheDoor.steps [.start]).phase = .presenting ∧
      ((atTheDoor.steps [.start]).choose (.bool false)).1 = atTheDoor.steps [.start] := by
  have hp : (atTheDoor.steps [.start]).phase = .presenting := by decide +kernel
  obtain ⟨_, _, _, _, _, _, -, -, -, -, -, -, ho⟩ := choose_presenting rfl behaves_atTheDoor hp
  exact ⟨rfl, behaves_atTheDoor, hp, by rw [ho (.bool false) nofun]⟩

/-- An index of more digits than can be put into words fails for that reason. -/
theorem choose_beyond_words :
    atTheDoor.phase = .idle ∧ (atTheDoor.step .start).2.isOk = true ∧
      (atTheDoor.steps [.start]).phase = .presenting ∧
      ((atTheDoor.steps [.start]).choose (.int (-integerBound))).2 = .error .wrongValue := by
  refine ⟨rfl, by decide +kernel, by decide +kernel, by decide +kernel⟩

end Session

end Colloquy
