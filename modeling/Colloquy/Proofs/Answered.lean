import Colloquy.Proofs.Chain
import Colloquy.Proofs.Named

/-!
# Calls that are answered

A call is answered if it returns, is refused for its choice or its phase, or runs out of budget
(`Session.isAnswer`). On a tree whose nodes have names and a store with a table, two things only
stand in the way of that once a call is under way: a sum that has no value
(`Effect.apply_isNone`), and two values whose equality is not found out (`Condition.holds_isOk`).
What a call comes by can be told beforehand (`Session.isSure`), and a call is answered just when
nothing there is without an answer (`Session.step_isAnswer`). A call that is answered never leaves
a session resolving (`Session.step_resolving`).
-/

namespace Colloquy

section session
variable [Text.Halves]

/-! ## Conditions -/

/-- Whether a comparison asks for the equality of two values. -/
def Relation.isEquality : Relation → Bool
  | .equals | .notEquals => true
  | _ => false

namespace Condition

/-- The values whose equality a condition asks for, on a heap that holds them. -/
def equated? (s : Store) : Condition → Option (Heap × Value × Value)
  | .comparison left sign right =>
    if sign.relation.isEquality then
      (left.resolve s).bind fun a => (right.resolve s).map fun b => (s.context.heap, a, b)
    else none
  | .check space key (.relation r) value =>
    if r.isEquality then
      (actual s space key).map fun (h, a) => ((h.hold value).1, a, (h.hold value).2)
    else none
  | _ => none

/-- Whether the equality that a condition asks for, if it does, is found out. -/
def isDecided (s : Store) (c : Condition) : Bool :=
  (c.equated? s).all fun (h, a, b) => (h.equal? a b).isSome

/-- Whether those of some conditions that are evaluated are decided. -/
def areDecided (s : Store) : List Condition → Bool
  | [] => true
  | c :: cs =>
    c.isDecided s &&
      match c.holds s with
      | .ok true => areDecided s cs
      | _ => true

end Condition

theorem Value.compare_isOk (h : Heap) (a b : Value) (r : Relation) :
    (a.compare h r b).isOk = (!r.isEquality || (h.equal? a b).isSome) := by
  have hl : (looselySame h a b).isOk = (h.equal? a b).isSome := by
    unfold looselySame
    rcases h.equal? a b with _ | same
    · rfl
    · rfl
  cases r with
  | equals => exact hl
  | notEquals =>
    rw [compare]
    rcases hs : looselySame h a b with f | same
    all_goals rw [hs] at hl
    · exact hl
    · exact hl
  | greater | less | greaterEquals | lessEquals => rfl

namespace Condition

theorem holds_isOk (s : Store) (c : Condition) : (c.holds s).isOk = c.isDecided s := by
  cases c with
  | comparison left sign right =>
    simp only [holds, isDecided, equated?]
    rcases left.resolve s with _ | a
    · cases sign.relation.isEquality <;> rfl
    rcases right.resolve s with _ | b
    · cases sign.relation.isEquality <;> rfl
    rw [Value.compare_isOk]
    cases sign.relation.isEquality <;> rfl
  | check space key test value =>
    simp only [holds, isDecided]
    cases test with
    | relation r =>
      simp only [equated?]
      rcases actual s space key with _ | ⟨h, a⟩
      · cases r.isEquality <;> rfl
      simp only [passes]
      rw [Value.compare_isOk]
      cases r.isEquality <;> rfl
    | has =>
      simp only [equated?, Option.all_none]
      rcases actual s space key with _ | ⟨h, a⟩
      · rfl
      · cases a <;> rfl
  | context path =>
    simp only [holds, isDecided, equated?, Option.all_none]
    split <;> rfl
  | flag | quest | literal | malformed => rfl

theorem allHold_isOk (s : Store) : ∀ cs : List Condition,
    (allHold s cs).isOk = areDecided s cs
  | [] => rfl
  | c :: cs => by
    rw [allHold, areDecided, ← holds_isOk]
    rcases c.holds s with f | _ | _
    · rfl
    · rfl
    · simpa [Except.isOk, Except.toBool] using allHold_isOk s cs

end Condition

/-! ## Effects -/

/-- Where sums are all that an effect can fail at: the context is a table, the clock can be read,
and nothing is put into words. -/
structure World.Steady (w : World) : Prop where
  table : w.store.context.root.ref?.isSome = true
  timed : w.clock.read.isOk = true
  unheard : w.isHeard = false

omit [Text.Halves] in
theorem Value.exists_of_ref? {v : Value} (h : v.ref?.isSome = true) : ∃ r, v = .map r := by
  cases v with
  | map r => exact ⟨r, rfl⟩
  | scalar | list => cases h

omit [Text.Halves] in
/-- What can be added to a number can be added to the sum. -/
theorem Number.add?_again {a b n : Number} (h : a.add? b = some n) : (n.add? b).isSome = true := by
  rcases a with i | x
  · rcases b with j | y
    · cases h
      rfl
    · simp only [add?, toBinary64?, bind, Option.bind_eq_some_iff] at h
      obtain ⟨x, -, y, -, h⟩ := h
      cases h
      rfl
  · rcases b with j | y
    · simp only [add?, toBinary64?, bind, Option.bind_eq_some_iff] at h
      obtain ⟨x, -, y, hy, h⟩ := h
      cases h
      simp [add?, toBinary64?, hy]
    · cases h
      rfl

omit [Text.Halves] in
/-- A clock that can be read can be read again. -/
theorem Clock.read_again {c c' : Clock} {time : Datum} (h : c.read = .ok (time, c')) :
    c'.read.isOk = true := by
  unfold read at h
  split at h
  · rename_i now hn
    obtain ⟨-, rfl⟩ := Prod.mk.inj (Except.ok.inj h)
    obtain ⟨next, hnext⟩ := Option.isSome_iff_exists.1 (Number.add?_again hn)
    unfold read
    simp only [hnext]
    rfl
  · cases h

namespace Effect

/-- Whether the sum that an effect asks for, if it does, has a value. -/
def hasSum (w : World) : Effect → Bool
  | .write _ .set _ => true
  | .write path op source =>
    (combine? op (amount (w.store.get? path)) (amount (source.resolve w.store))).isSome
  | _ => true

/-- Whether those of some effects that are applied have their sums. -/
def haveSums : World → List Effect → Bool
  | _, [] => true
  | w, e :: es => e.hasSum w && haveSums (e.apply w).1 es

omit [Text.Halves] in
theorem writeValue_eq {w : World} (steady : w.Steady) (path : String) (op : Operation) (v : Value) :
    ∃ w', writeValue w path op v = (w', none) ∧ w'.Steady := by
  obtain ⟨r, hr⟩ := Value.exists_of_ref? steady.table
  unfold writeValue World.set Store.set Context.set
  rw [hr]
  simp only [Except.map, World.noteAll, World.note, steady.unheard, Bool.false_and,
    Bool.false_eq_true, if_false]
  exact ⟨_, rfl, rfl, steady.timed, rfl⟩

omit [Text.Halves] in
theorem distinguish_steady {w : World} (steady : w.Steady) (n : Number) :
    (w.distinguish n).1.Steady := by
  unfold World.distinguish
  split
  · exact ⟨steady.table, steady.timed, steady.unheard⟩
  · exact steady

omit [Text.Halves] in
/-- An effect that adds or subtracts fails just when there is no sum. -/
theorem sum_eq {w : World} (steady : w.Steady) (path : String) (op : Operation) (source : Source) :
    ∃ w', (match combine? op (amount (w.store.get? path)) (amount (source.resolve w.store)) with
      | some n =>
        let (w, n) := w.distinguish n
        writeValue w path op (.ofNumber n)
      | none => (w, some .beyondRange)) = (w', if (combine? op (amount (w.store.get? path))
        (amount (source.resolve w.store))).isSome then none else some .beyondRange) ∧
      w'.Steady := by
  rcases combine? op (amount (w.store.get? path)) (amount (source.resolve w.store)) with _ | n
  · exact ⟨w, rfl, steady⟩
  · exact writeValue_eq (distinguish_steady steady n) path op (.ofNumber (w.distinguish n).2)

omit [Text.Halves] in
/-- An effect fails just when it asks for a sum and there is none. -/
theorem apply_eq {w : World} (steady : w.Steady) (e : Effect) : ∃ w',
    e.apply w = (w', if e.hasSum w then none else some .beyondRange) ∧ w'.Steady := by
  cases e with
  | setFlag | toggleFlag | malformed =>
    exact ⟨_, rfl, steady.table, steady.timed, steady.unheard⟩
  | moveQuest key t =>
    have ht := steady.timed
    rcases hc : w.clock.read with f | ⟨time, clock⟩
    · rw [hc] at ht
      cases ht
    simp only [apply, World.moveQuest, hc]
    exact ⟨_, rfl, steady.table, Clock.read_again hc, steady.unheard⟩
  | write path op source =>
    cases op with
    | set =>
      simp only [apply, applyWrite]
      rcases source.resolve w.store with _ | v
      · exact ⟨_, rfl, steady.table, steady.timed, steady.unheard⟩
      · exact writeValue_eq steady path .set v
    | add => exact sum_eq steady path .add source
    | subtract => exact sum_eq steady path .subtract source

omit [Text.Halves] in
/-- Effects fail just when one of them asks for a sum and there is none. -/
theorem applyAll_eq : ∀ (es : List Effect) {w : World}, w.Steady → ∃ w',
    applyAll w es = (w', if haveSums w es then none else some .beyondRange) ∧ w'.Steady
  | [], w, steady => ⟨w, rfl, steady⟩
  | e :: es, w, steady => by
    obtain ⟨w₁, he, hs⟩ := apply_eq steady e
    rw [applyAll, haveSums, he]
    cases e.hasSum w with
    | false => exact ⟨w₁, rfl, hs⟩
    | true => exact applyAll_eq es hs

end Effect

/-! ## Nodes -/

/-- Whether nothing is without an answer at the node that a value names, if it names one: neither a
condition of the node or of its choices, nor a sum of its effects. -/
def Tree.isSureAt (t : Tree) (w : World) (target : Datum) : Bool :=
  match t.lookup target with
  | .ok (some n) =>
    Condition.areDecided w.store n.conditions &&
      match Condition.allHold w.store n.conditions with
      | .ok true =>
        Effect.haveSums w n.effects && n.choices.all fun c =>
          Condition.areDecided (Effect.applyAll w n.effects).1.store c.conditions
      | _ => true
  | _ => true

namespace Session

/-- Whether nothing is without an answer at the nodes to which a conversation comes by itself from a
target in so many hops. -/
def isSureFrom : ℕ → Session → Datum → Bool
  | 0, s, target => s.tree.isSureAt s.world target
  | left + 1, s, target =>
    s.tree.isSureAt s.world target &&
      match s.arrive target with
      | (s, .ok (some (n, _))) => !n.advances || isSureFrom left s n.next
      | _ => true

/-- A session on a tree whose nodes have names, in a world where sums are all that can fail. -/
structure Steady (s : Session) : Prop where
  world : s.world.Steady
  named : s.tree.Named
  budget : (Budget.hops? s.budget).isSome = true
  current : s.current.IsName
  offered : ∀ c ∈ s.offered, c.1.goto.IsName

theorem offersAmong_isOk (s : Session) (n : Node) : ∀ cs : List (Choice × ℕ),
    (s.offersAmong n cs).isOk = cs.all fun c => Condition.areDecided s.store c.1.conditions
  | [] => rfl
  | c :: cs => by
    have ih := offersAmong_isOk s n cs
    rw [List.all_cons, ← ih, ← Condition.allHold_isOk, offersAmong, offers, Choice.isAvailable]
    rcases Condition.allHold s.store c.1.conditions with f | a
    · rfl
    simp only [Except.map]
    generalize (a && !(c.1.once && s.hasTaken (s.keyOf n.name c.2))) = b
    rcases s.offersAmong n cs with f | offered
    · cases b <;> rfl
    · cases b <;> rfl

omit [Text.Halves] in
theorem all_zipIdx {α : Type} (p : α → Bool) (xs : List α) :
    (xs.zipIdx.all fun x => p x.1) = xs.all p := by
  have h : (xs.zipIdx.map Prod.fst).all p = xs.all p := by rw [List.zipIdx_map_fst]
  rwa [List.all_map] at h

theorem present_isOk (s : Session) (n : Node) : (s.present n).2.isOk =
    n.choices.all fun c => Condition.areDecided s.store c.conditions := by
  rw [present_eq, ← all_zipIdx, ← offersAmong_isOk]
  rcases s.offersAmong n n.choices.zipIdx with f | offered
  · rfl
  · rfl

/-- Arriving at a node succeeds just when nothing is without an answer there. -/
theorem arrive_isOk {s : Session} (steady : s.world.Steady) {target : Datum} {id : Scalar}
    (scalar : target = .scalar id) :
    (s.arrive target).2.isOk = s.tree.isSureAt s.world target := by
  have hl : ∃ found, s.tree.lookup target = .ok found := by
    by_cases hn : id = .null
    · exact ⟨none, by rw [scalar, hn]; rfl⟩
    · exact ⟨_, scalar ▸ Tree.lookup_scalar hn⟩
  obtain ⟨_ | n, hl⟩ := hl
  · simp only [arrive, Tree.visit, Tree.isSureAt, hl]
    rfl
  simp only [arrive, Tree.visit, Tree.isSureAt, hl]
  rw [← Condition.allHold_isOk]
  rcases ha : Condition.allHold s.world.store n.conditions with f | _ | _
  · rfl
  · rfl
  obtain ⟨w, he, -⟩ := Effect.applyAll_eq n.effects steady
  rw [he]
  cases Effect.haveSums s.world n.effects with
  | false => rfl
  | true =>
    have hp := present_isOk { s with world := w, history := s.history ++ [Datum.scalar n.id] } n
    refine Eq.trans ?_ hp
    simp only [if_true]
    rcases present _ n with ⟨s', f | p⟩
    · rfl
    · rfl

/-! ## What a session keeps -/

end Session

namespace Context

omit [Text.Halves] in
/-- A context that is loaded stays a table, or none. -/
theorem loadDatum_root (c : Context) (d : Datum) :
    (c.loadDatum d).1.root.ref?.isSome = c.root.ref?.isSome := by
  unfold loadDatum
  rcases hc : c.root with _ | _ | r
  · simp only [hc]
  · rfl
  · simp only
    split_ifs
    · simp only [loadData, setEntries, hc]
    · simp only [loadData, setEntries, hc]

omit [Text.Halves] in
theorem load_root (c src : Context) :
    (c.load src).1.root.ref?.isSome = c.root.ref?.isSome := by
  unfold load
  split
  · rename_i hc _
    simp only [setEntries, hc]
  · exact loadDatum_root c _

end Context

namespace Tree

theorem visit_steady (t : Tree) {w : World} (steady : w.Steady) (target : Datum) :
    (t.visit w target).1.Steady := by
  unfold visit
  split
  · exact steady
  · exact ⟨steady.table, steady.timed, steady.unheard⟩
  · rename_i n _
    split
    · exact steady
    · obtain ⟨w', he, hs⟩ := Effect.applyAll_eq n.effects steady
      rw [he]
      cases Effect.haveSums w n.effects with
      | false => exact hs
      | true => exact hs
    · exact ⟨steady.table, steady.timed, steady.unheard⟩

end Tree

namespace Session

theorem arrive_steady {s : Session} (steady : s.Steady) (target : Datum) :
    (s.arrive target).1.Steady := by
  have hw := s.tree.visit_steady steady.world target
  have facing : ∀ {w : World} {n : Node}, s.tree.visit s.world target = (w, .ok (some n)) →
      n ∈ s.tree.nodes ∧ (Datum.scalar n.id).IsName ∧ w.Steady := by
    intro w n hv
    have hn := Tree.mem_of_lookup (visit_some hv).found
    rw [hv] at hw
    exact ⟨hn, .inr ⟨n.name, congrArg _ (steady.named.ids n hn)⟩, hw⟩
  have hc := arrive_cases s target
  generalize s.arrive target = o at hc ⊢
  cases hc with
  | failed hv | nowhere hv =>
    rw [hv] at hw
    exact { steady with world := hw }
  | unclear hv =>
    obtain ⟨-, hid, hs⟩ := facing hv
    exact { steady with world := ⟨hs.table, hs.timed, hs.unheard⟩, current := hid }
  | shown hv =>
    obtain ⟨hn, hid, hs⟩ := facing hv
    refine { steady with world := ⟨hs.table, hs.timed, hs.unheard⟩, current := hid, offered := ?_ }
    intro c hc
    exact steady.named.goto _ hn c.1 (List.mem_of_getElem? (mem_openIn hc))

/-- A steady session stays so, whatever the outcomes of the calls on it. -/
theorem steady_upheld : Upheld fun s s' : Session => s.Steady → s'.Steady where
  refl _ := id
  trans h h' := h' ∘ h
  arrive _ target steady := arrive_steady steady target
  finish s steady :=
    { steady with world := ⟨steady.world.table, steady.world.timed, steady.world.unheard⟩
                  offered := List.forall_mem_nil _ }
  settle s n p passed steady := { steady with }
  overrun s chain steady :=
    { steady with world := ⟨steady.world.table, steady.world.timed, steady.world.unheard⟩
                  offered := List.forall_mem_nil _ }
  resolve s index c _ steady := by
    obtain ⟨w, he, hs⟩ := Effect.applyAll_eq c.1.effects steady.world
    unfold resolve
    rw [he]
    cases Effect.haveSums s.world c.1.effects with
    | false => exact { steady with world := hs }
    | true => exact { steady with world := ⟨hs.table, hs.timed, hs.unheard⟩ }
  undo {s before} h steady := by
    have hs := h steady
    have ht : (s.undo before).1.world.store.context.root.ref?.isSome = true := by
      have hu : (s.undo before).1.world.store.context = _ := undo_context s before
      rw [hu, Context.load_root]
      exact hs.world.table
    unfold undo at ht ⊢
    split
    · rename_i hr
      rw [hr] at ht
      exact { hs with world := ⟨ht, hs.world.timed, hs.world.unheard⟩ }
    · rename_i hr
      rw [hr] at ht
      exact { hs with world := ⟨ht, hs.world.timed, hs.world.unheard⟩ }

/-! ## Calls -/

/-- Whether a call is answered: it returns, is refused for its choice or for the phase of the
session, or runs out of budget. -/
def isAnswer : Except Fault StepResult → Bool
  | .ok _ => true
  | .error (.invalidChoice ..) => true
  | .error (.budgetExceeded ..) => true
  | .error (.cannotAdvance _) => true
  | .error _ => false

omit [Text.Halves] in
theorem not_isAnswer {f : Fault} (hf : f.isDialogue = false) : isAnswer (.error f) = false := by
  cases f with
  | invalidChoice | budgetExceeded | cannotAdvance => cases hf
  | _ => rfl

theorem runFrom_isAnswer : ∀ (left : ℕ) {s : Session} {target : Datum} {id : Scalar}
    (passed : List Presentation) (chain : List String), s.Steady → target = .scalar id →
      isAnswer (runFrom left s target passed chain).2 = isSureFrom left s target := by
  intro left
  induction left with
  | zero =>
    intro s target id passed chain steady scalar
    have hs := arrive_steady steady target
    rw [isSureFrom, ← arrive_isOk steady.world scalar, runFrom_eq]
    rcases ha : s.arrive target with ⟨s', f | _ | ⟨n, p⟩⟩
    · exact not_isAnswer (arrive_error (congrArg Prod.snd ha))
    · rfl
    · rw [ha] at hs
      simp only
      split_ifs with hn hb
      · rw [Option.isNone_iff_eq_none] at hb
        exact absurd hs.budget (by simp [hb])
      · rfl
      · rfl
  | succ left ih =>
    intro s target id passed chain steady scalar
    have hs := arrive_steady steady target
    rw [isSureFrom, ← arrive_isOk steady.world scalar, runFrom_eq]
    rcases ha : s.arrive target with ⟨s', f | _ | ⟨n, p⟩⟩
    · exact not_isAnswer (arrive_error (congrArg Prod.snd ha))
    · rfl
    · obtain ⟨w, here, -, -⟩ := arrive_some ha
      obtain ⟨next, hnext⟩ : ∃ id, n.next = .scalar id := by
        rcases steady.named.next n (Tree.mem_of_lookup here.found) with hn | ⟨id, hn⟩
        · exact ⟨_, hn⟩
        · exact ⟨_, hn⟩
      rw [ha] at hs
      simp only
      split_ifs with hn hb
      · rw [Option.isNone_iff_eq_none] at hb
        exact absurd hs.budget (by simp [hb])
      · rw [ih _ _ hs hnext, hn]
        rfl
      · rw [Bool.eq_false_iff.2 hn]
        rfl

/-- Whether nothing is without an answer in a run from a target. -/
def isSureRun (s : Session) (target : Datum) : Bool :=
  isSureFrom ((Budget.hops? s.budget).getD 0) s target

theorem run_isAnswer {s : Session} (steady : s.Steady) {target : Datum} {id : Scalar}
    (scalar : target = .scalar id) : isAnswer (s.run target).2 = s.isSureRun target :=
  runFrom_isAnswer _ [] [] steady scalar

/-- Whether nothing is without an answer in a call. -/
def isSure (s : Session) : Call → Bool
  | .choose index =>
    match if s.phase = .presenting then s.offeredAt? index else none with
    | none => index.isShowable
    | some (i, c) =>
      s.store.context.isCopyable && Effect.haveSums s.world c.1.effects &&
        (c.1.isTerminal || (s.resolve i c).1.isSureRun c.1.goto)
  | .advance =>
    s.phase != .presenting || (s.heading .advance).isNull ||
      s.store.context.isCopyable && s.isSureRun (s.heading .advance)
  | .end_ => true
  | c => s.store.context.isCopyable && s.isSureRun (s.heading c)

omit [Text.Halves] in
theorem copyable_of_kept {s : Store} {kept : Snapshot} (h : s.snapshot = .ok kept) :
    s.context.isCopyable = true := by
  unfold Store.snapshot at h
  split at h
  · assumption
  · cases h

omit [Text.Halves] in
/-- A call is taken back as a whole where both contexts are tables. -/
theorem undo_whole {s before : Session} (hs : s.store.context.root.ref?.isSome = true)
    (hb : before.store.context.root.ref?.isSome = true) : (s.undo before).2 = none := by
  obtain ⟨r, hr⟩ := Value.exists_of_ref? hs
  obtain ⟨q, hq⟩ := Value.exists_of_ref? hb
  rcases hu : (s.undo before).2 with _ | f
  · rfl
  · exact absurd ((undo_some hu).symm.trans (restore_tables hr hq)) (Option.some_ne_none _)

/-- A guarded call is answered if it is one on a store that can be kept. -/
theorem guarded_isAnswer {s : Session} {o : Session × Except Fault StepResult}
    (steady : s.Steady) (steady' : o.1.Steady) :
    isAnswer (s.guarded o).2 = (s.store.context.isCopyable && isAnswer o.2) := by
  have hg := guarded_cases s o
  generalize s.guarded o = o' at hg ⊢
  cases hg with
  | refused kept =>
    obtain ⟨rfl, hc⟩ := snapshot_refused kept
    rw [hc]
    rfl
  | kept kept => rw [copyable_of_kept kept, Bool.true_and]
  | undone kept exceeded =>
    rw [copyable_of_kept kept, exceeded]
    rfl
  | stuck _ _ part =>
    have whole := undo_whole steady'.world.table steady.world.table
    exact absurd (part.symm.trans whole) (Option.some_ne_none _)

theorem take_isAnswer {s : Session} (steady : s.Steady) {index : Datum} {i : ℕ} {c : Choice × ℕ}
    (here : s.offeredAt? index = some (i, c)) : isAnswer (s.take i c).2 =
      (Effect.haveSums s.world c.1.effects &&
        (c.1.isTerminal || (s.resolve i c).1.isSureRun c.1.goto)) := by
  have hm := mem_offered here
  have hs := steady_upheld.resolve s i c hm steady
  obtain ⟨w, he, -⟩ := Effect.applyAll_eq c.1.effects steady.world
  rw [take_eq]
  cases hsum : Effect.haveSums s.world c.1.effects with
  | false =>
    rw [resolve, he, hsum]
    rfl
  | true =>
    have hr : s.resolve i c = (s.resolved i c w, none) := by
      rw [resolve, he, hsum]
      rfl
    rw [hr] at hs ⊢
    cases ht : c.1.isTerminal with
    | true => rfl
    | false =>
      rcases steady.offered c hm with hg | ⟨id, hg⟩
      · exact run_isAnswer hs hg
      · exact run_isAnswer hs hg

theorem choose_isAnswer {s : Session} (steady : s.Steady) (index : Datum) :
    isAnswer (s.choose index).2 = s.isSure (.choose index) := by
  have bad : ∀ available, isAnswer (.error (s.badIndex index available)) = index.isShowable := by
    intro available
    have hc : s.current.isShowable = true := by
      rcases steady.current with h | ⟨id, h⟩
      · rw [h]
        rfl
      · rw [h]
        rfl
    rw [badIndex, hc, Bool.and_true]
    cases index.isShowable <;> rfl
  unfold choose
  rw [isSure]
  by_cases hp : s.phase = .presenting
  · rw [if_pos hp]
    by_cases ho : s.offered = []
    · rw [if_pos (.inr ho), bad]
      rcases hi : s.offeredAt? index with _ | ⟨i, c⟩
      · rfl
      · exact absurd (mem_offered hi) (by simp [ho])
    · rw [if_neg (not_or.2 ⟨not_not.2 hp, ho⟩)]
      rcases hi : s.offeredAt? index with _ | ⟨i, c⟩
      · exact bad _
      · have hs := steady_upheld.take s i c (mem_offered hi) steady
        simp only
        rw [guarded_isAnswer steady hs, take_isAnswer steady hi, Bool.and_assoc]
  · rw [if_neg hp, if_pos (.inl hp)]
    exact bad 0

theorem advance_isAnswer {s : Session} (steady : s.Steady) :
    isAnswer s.advance.2 = s.isSure .advance := by
  unfold advance
  rw [isSure]
  by_cases hp : s.phase = .presenting
  · rw [if_neg (not_not.2 hp)]
    rcases hf : s.following with f | next
    · -- the current node always has a name that can be looked up
      unfold following at hf
      rcases steady.named.lookup_cases steady.current with ⟨n, -, -, hl⟩ | ⟨hl, -⟩
      · rw [hl] at hf
        cases hf
      · rw [hl] at hf
        cases hf
    · have hh : s.heading .advance = next := by simp only [heading, hf]
      have hn : next.IsName := by
        unfold following at hf
        split at hf
        · cases hf
        · cases hf
          exact .inl rfl
        · rename_i n hl
          cases hf
          exact steady.named.next n (Tree.mem_of_lookup hl)
      rw [hh, hp]
      have hr := steady_upheld.run s next steady
      rcases hn with rfl | ⟨id, rfl⟩
      · rfl
      · simp only
        rw [guarded_isAnswer steady hr, run_isAnswer steady rfl]
        rfl
  · rw [if_pos hp]
    simp [hp, isAnswer]

/-- A call is answered just when nothing that it comes by is without an answer. -/
theorem step_isAnswer {s : Session} (steady : s.Steady) (c : Call)
    (scalar : ∀ target, c = .enter target → ∃ id, target = .scalar id) :
    isAnswer (s.step c).2 = s.isSure c := by
  have runs : ∀ {target : Datum} {id : Scalar}, target = .scalar id →
      isAnswer (s.guarded (s.run target)).2 =
        (s.store.context.isCopyable && s.isSureRun target) := by
    intro target id h
    rw [guarded_isAnswer steady (steady_upheld.run s target steady), run_isAnswer steady h]
  cases c with
  | start =>
    rcases steady.named.start with h | ⟨id, h⟩
    · exact runs h
    · exact runs h
  | enter target =>
    obtain ⟨id, h⟩ := scalar target rfl
    exact runs h
  | choose index => exact choose_isAnswer steady index
  | advance => exact advance_isAnswer steady
  | end_ => rfl

/-! ## What is left behind -/

/-- A run leaves the phase as it was if it is not answered. -/
theorem run_phase (s : Session) (target : Datum) :
    isAnswer (s.run target).2 = true ∧ (s.run target).1.phase ≠ .resolving ∨
      isAnswer (s.run target).2 = false ∧ (s.run target).1.phase = s.phase := by
  obtain ⟨left, ps, s', last, hps, he⟩ := run_cases s target
  have hk := (hops_kept hps).trans (arrive_kept s' last)
  generalize s.run target = o at he ⊢
  cases he with
  | broken here =>
    rw [here] at hk
    exact .inr ⟨not_isAnswer (arrive_error (congrArg Prod.snd here)), hk.phase⟩
  | absent => exact .inl ⟨rfl, by rintro ⟨⟩⟩
  | unmeasured here =>
    rw [here] at hk
    exact .inr ⟨rfl, hk.phase⟩
  | overrun => exact .inl ⟨rfl, by rintro ⟨⟩⟩
  | settled =>
    refine .inl ⟨rfl, ?_⟩
    simp only [settle]
    split_ifs
    all_goals simp

theorem take_phase {s : Session} {i : ℕ} {c : Choice × ℕ}
    (h : isAnswer (s.take i c).2 = true) : (s.take i c).1.phase ≠ .resolving := by
  have hc := take_cases s i c
  generalize s.take i c = o at hc h ⊢
  cases hc with
  | broken he =>
    have hf := not_isAnswer (Effect.applyAll_fault (congrArg Prod.snd he))
    exact absurd (h.symm.trans hf) nofun
  | finished => exact nofun
  | @going w =>
    rcases run_phase (s.resolved i c w) c.1.goto with ⟨-, hp⟩ | ⟨hn, -⟩
    · exact hp
    · exact absurd (h.symm.trans hn) nofun

omit [Text.Halves] in
theorem guarded_phase {s : Session} {o : Session × Except Fault StepResult}
    (hs : s.phase ≠ .resolving) (ho : isAnswer o.2 = true → o.1.phase ≠ .resolving)
    (h : (s.guarded o).1.phase = .resolving) : s.guarded o = o ∧ isAnswer o.2 = false := by
  have hg := guarded_cases s o
  generalize s.guarded o = o' at hg h ⊢
  cases hg with
  | refused => exact absurd h hs
  | kept => exact ⟨rfl, Bool.eq_false_iff.2 fun ha => ho ha h⟩
  | undone _ exceeded | stuck _ exceeded =>
    rw [(undo_kept o.1 s).2.1] at h
    exact absurd h (ho (by rw [exceeded]; rfl))

/-- Only a call that takes a choice and is not answered leaves a session resolving. -/
theorem step_resolving {s : Session} {c : Call} (hs : s.phase ≠ .resolving)
    (h : (s.step c).1.phase = .resolving) :
    (∃ index, c = .choose index) ∧ isAnswer (s.step c).2 = false := by
  have hc := step_cases s c
  generalize s.step c = o at hc h ⊢
  cases hc with
  | runs =>
    have hp : (s.run (s.heading c)).1.phase ≠ .resolving := by
      rcases run_phase s (s.heading c) with ⟨-, hp⟩ | ⟨-, hp⟩
      · exact hp
      · exact hp ▸ hs
    obtain ⟨he, -⟩ := guarded_phase hs (fun _ => hp) h
    exact absurd (he ▸ h) hp
  | takes =>
    obtain ⟨he, ha⟩ := guarded_phase hs take_phase h
    rw [he]
    exact ⟨⟨_, rfl⟩, ha⟩
  | finishes => cases h
  | refused => exact absurd h hs

/-- Whether nothing is without an answer in any of some calls, made one after the other. -/
def areSure : Session → List Call → Bool
  | _, [] => true
  | s, c :: calls => s.isSure c && areSure (s.step c).1 calls

/-- Calls that enter nodes by scalars, as ids are. -/
def Call.NamesNodes (calls : List Call) : Prop :=
  ∀ target, .enter target ∈ calls → ∃ id, target = .scalar id

theorem steps_areSure : ∀ {calls : List Call} {s : Session}, s.Steady → s.phase ≠ .resolving →
    Call.NamesNodes calls → s.areSure calls = true →
      (∀ o ∈ s.outcomes calls, isAnswer o = true) ∧
        ∀ before, before <+: calls → (s.steps before).phase ≠ .resolving
  | [], s, _, hp, _, _ => by
    refine ⟨List.forall_mem_nil _, fun before hb => ?_⟩
    rw [List.prefix_nil.1 hb]
    exact hp
  | c :: calls, s, steady, hp, names, sure => by
    rw [areSure, Bool.and_eq_true] at sure
    have ha := step_isAnswer steady c fun target h => names target (h ▸ List.mem_cons_self)
    rw [sure.1] at ha
    have hp' : (s.step c).1.phase ≠ .resolving := fun h =>
      absurd ((step_resolving hp h).2.symm.trans ha) nofun
    obtain ⟨hall, hphase⟩ := steps_areSure (steady_upheld.step s c steady) hp'
      (fun target h => names target (List.mem_cons_of_mem c h)) sure.2
    refine ⟨List.forall_mem_cons.2 ⟨ha, hall⟩, fun before hb => ?_⟩
    rcases before with _ | ⟨d, before⟩
    · exact hp
    · obtain ⟨rfl, hb'⟩ := List.cons_prefix_cons.1 hb
      exact hphase before hb'

end Session

omit [Text.Halves] in
/-- The context of a store that data describes is a table. -/
theorem Store.table_ofDatum {h : Heap} {d : Datum} {s : Store} (hs : ofDatum h d = .ok s) :
    s.context.root.ref?.isSome = true := by
  unfold ofDatum at hs
  split at hs
  · rename_i s' hr
    obtain rfl := Except.ok.inj hs
    rcases restoreData_context (empty h) d with he | ⟨part, -, he⟩
    · rw [hr] at he
      rw [he]
      rfl
    · rw [hr] at he
      rw [he, Context.loadDatum_root]
      rfl
  · cases hs

namespace Session

/-- In a new session on a tree and a store from data, a call is answered, whatever calls were made
before it, just when nothing that it comes by is without an answer; and only a call that takes a
choice and is not answered leaves the session resolving. So if nothing is without an answer in a run
of calls, all are answered, and after each of them the session is in a phase from which it can be
told how it goes on. -/
theorem calls_answered {h h' : Heap} {d state : Datum} {s : Session} (json : d.IsJson)
    (loaded : Tree.ofDatum h d = .ok (s.tree, h')) (start : s.tree.start.IsName)
    (next : ∀ n ∈ s.tree.nodes, n.next.IsName)
    (goto : ∀ n ∈ s.tree.nodes, ∀ c ∈ n.choices, c.goto.IsName)
    (stored : Store.ofDatum h' state = .ok s.store)
    (timed : s.world.clock.read.isOk = true) (unheard : s.world.isHeard = false)
    (budget : (Budget.hops? s.budget).isSome = true) (idle : s.phase = .idle)
    (nowhere : s.current = .null) (closed : s.offered = []) {calls : List Call}
    (names : Call.NamesNodes calls) :
    (∀ c, Call.NamesNodes [c] →
      isAnswer ((s.steps calls).step c).2 = (s.steps calls).isSure c ∧
        ((s.steps calls).phase ≠ .resolving → ((s.steps calls).step c).1.phase = .resolving →
          (∃ index, c = .choose index) ∧ (s.steps calls).isSure c = false)) ∧
    (s.areSure calls = true → (∀ o ∈ s.outcomes calls, isAnswer o = true) ∧
      ∀ before, before <+: calls →
        (s.steps before).phase ∈ [.idle, .presenting, .terminal, .error]) := by
  have steady : s.Steady := {
    world := ⟨Store.table_ofDatum stored, timed, unheard⟩
    named := Tree.ofDatum_named json loaded start next goto
    budget
    current := .inl nowhere
    offered := by simp [closed] }
  refine ⟨fun c hc => ?_, fun sure => ?_⟩
  · have ha := step_isAnswer (steady_upheld.steps calls s steady) c fun target h =>
      hc target (h ▸ List.mem_singleton_self _)
    refine ⟨ha, fun hp hr => ?_⟩
    obtain ⟨hi, hn⟩ := step_resolving hp hr
    exact ⟨hi, ha ▸ hn⟩
  · obtain ⟨hall, hphase⟩ := steps_areSure steady (by rw [idle]; exact nofun) names sure
    refine ⟨hall, fun before hb => ?_⟩
    have hp := hphase before hb
    revert hp
    cases (s.steps before).phase <;> simp

end Session

end session

namespace Session

attribute [local instance] Text.noHalves

/-- A file with a node where one can pay a price, as often as one likes. -/
def tollgate (price : ℤ) : Datum :=
  .object [("nodes", .object [("start", .object [("choices", .list [.object [
    ("text", .text "pay"), ("goto", .text "start"), ("effects", .list [.object [
      ("type", .text "context"), ("key", .text "gold"), ("action", .text "subtract"),
      ("value", .int price)]])]])])])]

/-- A store with half a coin, as data. -/
def halfCoin : Datum :=
  .object [("context", .object [("gold", .scalar (.float (.ofUnits false (twoPow 1073))))])]

/-- A session on what is in that file. -/
def atTollgate (price : ℤ) (store : Store) : Session :=
  let pay : Choice := { text := .text "pay", goto := .text "start", guards := [], deeds := [⟨
    .object [("type", .text "context"), ("key", .text "gold"), ("action", .text "subtract"),
      ("value", .int price)], .write "gold" .subtract (.value (.scalar (.int price)))⟩]
                        priority := .int 0, once := false, requirements := [] }
  let gate : Node := { id := .text "start", text := .text "", speaker := .text ""
                       portrait := .null, choices := [pay], autoAdvance := .bool false
                       next := .null, voiceLine := .null, guards := [], deeds := [], tags := []
                       priority := .int 0 }
  { tree := { id := .text "", nodes := [gate] }, world := { store } }

theorem tollgate_json (price : ℤ) : (tollgate price).IsJson := by
  simp [tollgate, Datum.object, Datum.IsJson, Datum.EntriesJson, Datum.ItemsJson, Table.Keyed,
    Scalar.alike, Scalar.same]

/-- Paying two coins twice is answered each time, though there is but half a coin. -/
theorem calls_answered_atTollgate : ∃ store, Store.ofDatum #[] halfCoin = .ok store ∧
    let s := atTollgate 2 store
    let calls := [.start, .choose (.int 0), .choose (.int 1), .choose (.int 0), .advance, .start]
    (∀ o ∈ s.outcomes calls, isAnswer o = true) ∧ ∀ before, before <+: calls →
      (s.steps before).phase ∈ [.idle, .presenting, .terminal, .error] := by
  obtain ⟨store, stored⟩ := ok_of_isOk (o := Store.ofDatum #[] halfCoin) (by decide +kernel)
  refine ⟨store, stored, ?_⟩
  intro s calls
  have sure : (Store.ofDatum #[] halfCoin).map (fun store => (atTollgate 2 store).areSure calls) =
      .ok true := by decide +kernel
  rw [stored] at sure
  have loaded : Tree.ofDatum #[] (tollgate 2) = .ok (s.tree, #[]) := by
    have h : Tree.ofDatum #[] (tollgate 2) = .ok ((atTollgate 2 (.empty #[])).tree, #[]) := by
      decide +kernel
    exact h
  have names : Call.NamesNodes calls := by
    intro target h
    simp [calls] at h
  obtain ⟨-, h⟩ := calls_answered (tollgate_json 2) loaded (.inr ⟨_, rfl⟩)
    (fun n hn => by obtain rfl := List.mem_singleton.1 hn; exact .inl rfl)
    (fun n hn c hc => by
      obtain rfl := List.mem_singleton.1 hn
      obtain rfl := List.mem_singleton.1 hc
      exact .inr ⟨_, rfl⟩)
    stored rfl rfl rfl rfl rfl rfl names
  exact h (Except.ok.inj sure)

/-- Where the price is beyond the range of floating point numbers, there is no difference of half a
coin and the price. The call that pays is not answered, and leaves the session resolving. -/
theorem resolving_atTollgate :
    Tree.ofDatum #[] (tollgate (.ofNat (Nat.pow 10 400))) =
      .ok ((atTollgate (.ofNat (Nat.pow 10 400)) (.empty #[])).tree, #[]) ∧
    (Store.ofDatum #[] halfCoin).map (fun store =>
      let s := atTollgate (.ofNat (Nat.pow 10 400)) store
      ((s.outcomes [.start, .choose (.int 0)]).map isAnswer, (s.step .start).1.phase,
        ((s.step .start).1.choose (.int 0)).2, (s.steps [.start, .choose (.int 0)]).phase)) =
      .ok ([true, false], .presenting, .error .beyondRange, .resolving) := by
  refine ⟨?_, ?_⟩
  · decide +kernel
  · decide +kernel

end Session

end Colloquy
