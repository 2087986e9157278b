import Colloquy.Proofs.Checks
import Colloquy.Proofs.Outcome

/-!
# What a run reaches

What a session shows, offers and has in its history belongs to nodes that a path leads to from the
start node (`Session.Within`). Each part of a call keeps this as long as it heads for such a node or
for none, and all calls but those that name a node do (`Session.Within.heads`). So a run stays on
nodes that the check does not report as unreachable (`Session.Within.steps`), and whenever it goes
to an id, the id is a reference of such a node (`Session.Within.came`): if it names no node, the
check has a warning for it.
-/

namespace Colloquy

open Validation

section session
variable [Text.Halves]

/-- A target that names no node or one that a path leads to. -/
def Tree.Heads (t : Tree) (target : Datum) : Prop :=
  ∀ n, t.lookup target = .ok (some n) → t.Reachable n

theorem Tree.Named.heads {t : Tree} (named : t.Named) {n : Node} (h : t.Reachable n)
    {place : Option ℕ} {target : Datum} (hr : n.Refers place target) : t.Heads target := by
  intro m hl
  obtain ⟨hm, rfl⟩ := (named.lookup_some (named.refers h.mem hr)).1 hl
  exact h.step ⟨hm, place, hr⟩

theorem Tree.heads_null (t : Tree) : t.Heads .null := by
  intro n h
  cases h

namespace Session

/-- A session that shows, offers and has in its history what a path leads to. -/
structure Within (t : Tree) (s : Session) : Prop where
  tree : s.tree = t
  current : s.current = .null ∨ ∃ n, t.Reachable n ∧ s.current = .text n.name
  offered : ∀ c ∈ s.offered, ∃ n, t.Reachable n ∧ n.choices[c.2]? = some c.1
  history : ∀ id ∈ s.history, ∃ n, t.Reachable n ∧ id = .text n.name

variable {t : Tree}

theorem Within.congr {s s' : Session} (h : s.Within t) (tree : s'.tree = s.tree)
    (current : s'.current = s.current) (offered : s'.offered = s.offered)
    (history : s'.history = s.history) : s'.Within t :=
  ⟨tree.trans h.tree, current ▸ h.current, offered ▸ h.offered, history ▸ h.history⟩

theorem Within.withdrawn {s s' : Session} (h : s.Within t) (tree : s'.tree = s.tree)
    (current : s'.current = s.current) (offered : s'.offered = [])
    (history : s'.history = s.history) : s'.Within t :=
  ⟨tree.trans h.tree, current ▸ h.current, by simp [offered], history ▸ h.history⟩

theorem Within.undo {s before : Session} (h : s.Within t) (hb : before.Within t) :
    (s.undo before).1.Within t := by
  obtain ⟨htree, -, hcurrent, hoffered⟩ := undo_kept s before
  have hhistory : (s.undo before).1.history = before.history ∨
      (s.undo before).1.history = s.history := by
    unfold Session.undo
    split
    · exact .inl rfl
    · exact .inr rfl
  refine ⟨htree.trans h.tree, hcurrent ▸ h.current, hoffered ▸ h.offered, ?_⟩
  rcases hhistory with hh | hh
  · exact hh ▸ hb.history
  · exact hh ▸ h.history

theorem Within.guarded {s : Session} {o : Session × Except Fault StepResult} (h : s.Within t)
    (ho : o.1.Within t) : (s.guarded o).1.Within t := by
  have hc := guarded_cases s o
  generalize s.guarded o = o' at hc ⊢
  cases hc with
  | refused => exact h
  | kept => exact ho
  | undone => exact ho.undo h
  | stuck => exact ho.undo h

/-! ## Runs -/

/-- A session that goes to a target that names no other node stays on what a path leads to, and has
come to such a node if it arrives. -/
theorem Within.arrive (named : t.Named) {s : Session} (h : s.Within t) {target : Datum}
    (heads : t.Heads target) : (s.arrive target).1.Within t ∧
      ∀ n p, (s.arrive target).2 = .ok (some (n, p)) → t.Reachable n := by
  have hc := arrive_cases s target
  have found : ∀ {w n}, s.tree.visit s.world target = (w, .ok (some n)) →
      t.Reachable n ∧ n.id = .text n.name := by
    intro w n hv
    have hn := heads n (h.tree ▸ (visit_some hv).found)
    exact ⟨hn, named.ids n hn.mem⟩
  generalize s.arrive target = o at hc ⊢
  cases hc with
  | failed | nowhere => exact ⟨h.congr rfl rfl rfl rfl, fun _ _ hm => by cases hm⟩
  | @unclear w n hv =>
    obtain ⟨hn, hid⟩ := found hv
    have hcur : Datum.scalar n.id = .text n.name := congrArg Datum.scalar hid
    refine ⟨⟨h.tree, .inr ⟨n, hn, hcur⟩, h.offered, ?_⟩, fun _ _ hm => by cases hm⟩
    exact List.forall_mem_append.2 ⟨h.history, List.forall_mem_singleton.2 ⟨n, hn, hcur⟩⟩
  | @shown w n hv =>
    obtain ⟨hn, hid⟩ := found hv
    have hcur : Datum.scalar n.id = .text n.name := congrArg Datum.scalar hid
    refine ⟨⟨h.tree, .inr ⟨n, hn, hcur⟩, fun c hc => ⟨n, hn, mem_openIn hc⟩, ?_⟩, ?_⟩
    · exact List.forall_mem_append.2 ⟨h.history, List.forall_mem_singleton.2 ⟨n, hn, hcur⟩⟩
    · intro m p hm
      cases hm
      exact hn

theorem Within.hops (named : t.Named) {s s' : Session} {target last : Datum}
    {ps : List (Node × Presentation)} (hops : Hops s target ps s' last) (h : s.Within t)
    (heads : t.Heads target) : s'.Within t ∧ t.Heads last := by
  induction hops with
  | done => exact ⟨h, heads⟩
  | @hop s s₁ s₂ target last n p ps here _ _ ih =>
    obtain ⟨hw, hn⟩ := h.arrive named heads
    rw [here] at hw hn
    exact ih hw (named.heads (hn n p rfl) .next)

theorem Within.run (named : t.Named) {s : Session} (h : s.Within t) {target : Datum}
    (heads : t.Heads target) : (s.run target).1.Within t := by
  obtain ⟨left, ps, s', last, hps, he⟩ := run_cases s target
  obtain ⟨hw, hlast⟩ := h.hops named hps heads
  have ha := (hw.arrive named hlast).1
  generalize s.run target = o at he ⊢
  cases he with
  | broken here => rwa [here] at ha
  | absent here =>
    rw [here] at ha
    exact ha.withdrawn rfl rfl rfl rfl
  | unmeasured here => rwa [here] at ha
  | overrun here =>
    rw [here] at ha
    exact ha.withdrawn rfl rfl rfl rfl
  | settled here =>
    rw [here] at ha
    exact ha.congr rfl rfl rfl rfl

/-! ## Calls -/

theorem Within.following (named : t.Named) {s : Session} (h : s.Within t) {target : Datum}
    (next : s.following = .ok target) (ne : target ≠ .null) :
    ∃ n, t.Reachable n ∧ s.current = .text n.name ∧ target = n.next := by
  unfold Session.following at next
  rcases h.current with h0 | ⟨n, hn, hcur⟩
  · rw [h0] at next
    cases next
    exact absurd rfl ne
  · have hl : s.tree.lookup s.current = .ok (some n) := by
      rw [h.tree, hcur]
      exact (named.lookup_some (.inr ⟨_, rfl⟩)).2 ⟨hn.mem, rfl⟩
    rw [hl] at next
    exact ⟨n, hn, hcur, (Except.ok.inj next).symm⟩

/-- The target of an advance is what the node that is shown names as the next. -/
theorem Within.heading_advance (named : t.Named) {s : Session} (h : s.Within t)
    (ne : s.heading .advance ≠ .null) :
    ∃ n, t.Reachable n ∧ s.current = .text n.name ∧ s.heading .advance = n.next := by
  unfold heading at ne ⊢
  simp only at ne ⊢
  rcases hf : s.following with f | target
  · rw [hf] at ne
    exact absurd rfl ne
  · rw [hf] at ne
    exact h.following named hf ne

/-- Only a call that names a node heads for one that no path leads to. -/
theorem Within.heads (named : t.Named) (start : t.Heads t.start) {s : Session} (h : s.Within t)
    {c : Call} (hc : ∀ target, c ≠ .enter target) : t.Heads (s.heading c) := by
  cases c with
  | start => exact h.tree ▸ start
  | enter target => exact absurd rfl (hc target)
  | choose index =>
    rcases hi : s.offeredAt? index with _ | ⟨i, choice⟩
    · have h0 : s.heading (.choose index) = .null := by simp [heading, taken?, hi]
      exact h0 ▸ t.heads_null
    · obtain ⟨n, hn, hat⟩ := h.offered choice (mem_offered hi)
      rw [heading_eq hi]
      exact named.heads hn (.goto hat)
  | advance =>
    by_cases h0 : s.heading .advance = .null
    · exact h0 ▸ t.heads_null
    · obtain ⟨n, hn, -, hh⟩ := h.heading_advance named h0
      exact hh ▸ named.heads hn .next
  | end_ => exact t.heads_null

theorem Within.step (named : t.Named) (start : t.Heads t.start) {s : Session} (h : s.Within t)
    {c : Call} (hc : ∀ target, c ≠ .enter target) : (s.step c).1.Within t := by
  have hs := step_cases s c
  generalize s.step c = o at hs ⊢
  cases hs with
  | runs => exact h.guarded (h.run named (h.heads named start hc))
  | @takes index i choice _ hi =>
    have ht := take_cases s i choice
    generalize s.take i choice = o at ht ⊢
    refine h.guarded ?_
    cases ht with
    | broken => exact h.congr rfl rfl rfl rfl
    | finished => exact h.withdrawn rfl rfl rfl rfl
    | @going w _ _ =>
      have hr : (s.resolved i choice w).Within t := h.congr rfl rfl rfl rfl
      exact hr.run named (heading_eq hi ▸ h.heads named start hc)
  | finishes => exact h.withdrawn rfl rfl rfl rfl
  | refused => exact h

theorem Within.steps (named : t.Named) (start : t.Heads t.start) : ∀ {calls : List Call}
    {s : Session}, s.Within t → (∀ c ∈ calls, ∀ target, c ≠ .enter target) →
      (s.steps calls).Within t
  | [], _, h, _ => h
  | _ :: _, _, h, hc =>
    (h.step named start (hc _ List.mem_cons_self)).steps named start
      fun c hm => hc c (List.mem_cons_of_mem _ hm)

/-! ## Where a call goes -/

/-- A call goes to a target in a session, after it has passed some nodes. -/
def GoesTo (s : Session) (c : Call) (passed : List Node) (s' : Session) (target : Datum) : Prop :=
  s.heading c ≠ .null ∧ ∃ s₁ ps, SetsOut s c s₁ ∧ Hops s₁ (s.heading c) ps s' target ∧
    ps.map (·.1) = passed

/-- The reference by which a call goes on after it has passed some nodes: that of the choice that it
takes, of the node that it advances from, or of the last node that it has passed. -/
inductive ComesBy (s : Session) (c : Call) : List Node → Node → Option ℕ → Prop
  | choice {k i : ℕ} {choice : Choice} {n : Node} (call : c = .choose (.int k))
      (taken : s.offered[k]? = some (choice, i)) (at_ : n.choices[i]? = some choice) :
      ComesBy s c [] n (some i)
  | shown {n : Node} (call : c = .advance) (current : s.current = .text n.name) :
      ComesBy s c [] n none
  | passed (ns : List Node) (n : Node) : ComesBy s c (ns ++ [n]) n none

/-- Nodes that were passed lead on from the last of them. -/
theorem Within.passed (named : t.Named) {s s' : Session} {target last : Datum}
    {ps : List (Node × Presentation)} (hops : Hops s target ps s' last) (h : s.Within t)
    (heads : t.Heads target) :
    ps = [] ∧ target = last ∨ ∃ ns n, t.Reachable n ∧ ps.map (·.1) = ns ++ [n] ∧ last = n.next := by
  induction hops with
  | done => exact .inl ⟨rfl, rfl⟩
  | @hop s s₁ s₂ target last n p ps here _ rest ih =>
    obtain ⟨hw, hn⟩ := h.arrive named heads
    rw [here] at hw hn
    have hn := hn n p rfl
    rcases ih hw (named.heads hn .next) with ⟨rfl, rfl⟩ | ⟨ns, m, hm, hps, rfl⟩
    · exact .inr ⟨[], n, hn, rfl, rfl⟩
    · exact .inr ⟨n :: ns, m, hm, by rw [List.map_cons, hps]; rfl, rfl⟩

/-- The first target of a call is the start node or a reference of a node that a path leads to. -/
theorem Within.came_first (named : t.Named) {s : Session} (h : s.Within t) {c : Call}
    (hc : ∀ target, c ≠ .enter target) (ne : s.heading c ≠ .null) :
    s.heading c = t.start ∨
      ∃ n place, t.Reachable n ∧ n.Refers place (s.heading c) ∧ s.ComesBy c [] n place := by
  cases c with
  | start => exact .inl (by rw [← h.tree]; rfl)
  | enter target => exact absurd rfl (hc target)
  | choose index =>
    rcases hi : s.offeredAt? index with _ | ⟨k, choice, i⟩
    · exact absurd (by simp [heading, taken?, hi]) ne
    · obtain ⟨rfl, hk⟩ := offeredAt?_some hi
      obtain ⟨n, hn, hat⟩ := h.offered _ (mem_offered hi)
      rw [heading_eq hi]
      exact .inr ⟨n, some i, hn, .goto hat, .choice rfl hk hat⟩
  | advance =>
    obtain ⟨n, hn, hcur, hh⟩ := h.heading_advance named ne
    exact .inr ⟨n, none, hn, hh ▸ .next, .shown rfl hcur⟩
  | end_ => exact absurd rfl ne

theorem SetsOut.within {s s₁ : Session} {c : Call} (hs : SetsOut s c s₁) (h : s.Within t) :
    s₁.Within t := by
  cases hs with
  | start | enter | advance | end_ => exact h
  | choose => exact h.congr rfl rfl rfl rfl

theorem hops_ne_null {s s' : Session} {target last : Datum} {ps : List (Node × Presentation)}
    (h : Hops s target ps s' last) (ne : target ≠ .null) : last ≠ .null := by
  induction h with
  | done => exact ne
  | @hop s s₁ s₂ target last n p ps _ advances _ ih =>
    refine ih fun h0 => ?_
    rw [Node.advances, h0, Datum.isNull, Bool.not_true, Bool.and_false] at advances
    cases advances

/-- Whatever a call goes to but the start node is a reference of a node that a path leads to. -/
theorem Within.came (named : t.Named) (start : t.Heads t.start) {s s' : Session}
    (h : s.Within t) {c : Call} (hc : ∀ target, c ≠ .enter target) {passed : List Node}
    {target : Datum} (goes : s.GoesTo c passed s' target) :
    s'.Within t ∧ t.Heads target ∧ target ≠ .null ∧ (target = t.start ∨
      ∃ n place, t.Reachable n ∧ n.Refers place target ∧ s.ComesBy c passed n place) := by
  obtain ⟨ne, s₁, ps, out, hops, rfl⟩ := goes
  have heads := h.heads named start hc
  have h₁ := out.within h
  obtain ⟨hw, hlast⟩ := h₁.hops named hops heads
  refine ⟨hw, hlast, hops_ne_null hops ne, ?_⟩
  rcases h₁.passed named hops heads with ⟨rfl, rfl⟩ | ⟨ns, n, hn, hps, rfl⟩
  · exact h.came_first named hc ne
  · exact .inr ⟨n, none, hn, .next, hps ▸ .passed ns n⟩

end Session

open Classical in
/-- A warning that a node is unreachable is in the report for just the nodes that no path leads to,
once for each. -/
theorem Tree.Named.validate_warnings {t : Tree} (named : t.Named) {n₀ : Node} (hn₀ : n₀ ∈ t.nodes)
    (start : t.start = .text n₀.name) : ∃ report, t.validate = .ok report ∧
      (∀ id, report.warnings.count (unreachableWarning id) =
        if ∃ n ∈ t.nodes, n.name = id ∧ ¬ t.Reachable n then 1 else 0) ∧
      ∀ n place target, n ∈ t.nodes → n.Refers place target → Dangles t target →
        danglingWarning n target place ∈ report.warnings := by
  obtain ⟨references, hr, hmem⟩ := referenceWarnings_named named t.nodes fun _ h => h
  obtain ⟨_, _, _, _, -, hr', -, hu', report, hv, -, hw⟩ := named.validate_eq
  obtain rfl := Except.ok.inj (hr.symm.trans hr')
  obtain rfl := Except.ok.inj ((unreachableWarnings_named named hn₀ start).symm.trans hu')
  refine ⟨report, hv, fun id => ?_, fun n place target hn href hd => ?_⟩
  · have hrefs : unreachableWarning id ∉ references := by
      intro hi
      obtain ⟨n, -, place, target, -, -, he⟩ := (hmem _).1 hi
      have hc := initial_danglingWarning n target place
      rw [← he, initial_unreachableWarning] at hc
      simp at hc
    have hunset : unreachableWarning id ∉ unsetWarnings (flagsRead t.nodes) (flagsSet t.nodes) := by
      intro hi
      have hc := initial_unsetWarnings hi
      rw [initial_unreachableWarning] at hc
      simp at hc
    have hinj : ∀ a b, unreachableWarning a = unreachableWarning b → a = b := fun a b h =>
      Option.some.inj (congrArg Issue.node h)
    have hnodup : ((t.nodes.filter fun n => ¬ t.Reachable n).map
        (unreachableWarning ·.name)).Nodup := by
      have hd := named.distinct.map hinj
      rw [List.map_map] at hd
      exact hd.sublist (List.filter_sublist.map _)
    have hwarned : unreachableWarning id ∈ (t.nodes.filter fun n => ¬ t.Reachable n).map
        (unreachableWarning ·.name) ↔ ∃ n ∈ t.nodes, n.name = id ∧ ¬ t.Reachable n := by
      rw [List.mem_map]
      constructor
      · rintro ⟨n, hn, he⟩
        rw [List.mem_filter, decide_eq_true_eq] at hn
        exact ⟨n, hn.1, hinj _ _ he, hn.2⟩
      · rintro ⟨n, hn, rfl, hu⟩
        exact ⟨n, List.mem_filter.2 ⟨hn, decide_eq_true hu⟩, rfl⟩
    rw [hw, List.count_append, List.count_append, List.count_eq_zero.2 hrefs,
      List.count_eq_zero.2 hunset, hnodup.count]
    simp only [hwarned, Nat.zero_add, Nat.add_zero]
  · rw [hw]
    refine List.mem_append_left _ (List.mem_append_left _ ((hmem _).2 ?_))
    exact ⟨n, hn, place, target, href, hd, rfl⟩

/-- No id of a history is reported as one that no path leads to. -/
def Report.Clears (r : Report) (t : Tree) (history : List Datum) : Prop :=
  ∀ id ∈ history, ∃ n ∈ t.nodes, id = .text n.name ∧ unreachableWarning n.name ∉ r.warnings

end session

namespace Session

attribute [local instance] Text.noHalves

/-- A file with a choice between two nodes, of which one leads on to a node that is not there and
the other is not there itself, and with a node that nothing leads to. -/
def house : Datum :=
  .object [("nodes", .object [
    ("start", .object [("choices", .list [
      .object [("goto", .text "hall")], .object [("goto", .text "attic")]])]),
    ("hall", .object [("autoAdvance", .bool true), ("nextNode", .text "cellar")]),
    ("lost", .object [])])]

/-- A session on what is in that file. -/
def inHouse : Session :=
  let choice (goto : String) : Choice := {
    text := .text "", goto := .text goto, guards := [], deeds := [], priority := .int 0
    once := false, requirements := [] }
  let node : Node := {
    id := .text "lost", text := .text "", speaker := .text "", portrait := .null, choices := []
    autoAdvance := .bool false, next := .null, voiceLine := .null, guards := []
    deeds := [], tags := [], priority := .int 0 }
  { tree := { id := .text "", nodes := [
      { node with id := .text "start", choices := [choice "hall", choice "attic"] },
      { node with id := .text "hall", autoAdvance := .bool true, next := .text "cellar" },
      node] }
    world := { store := .empty #[] } }

end Session

end Colloquy
