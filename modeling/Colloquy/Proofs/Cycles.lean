import Colloquy.Proofs.ByHand
import Colloquy.Proofs.Chain
import Colloquy.Proofs.Checks

/-!
# Cycles and budgets

The hops of a run are over nodes that advance, each led to by the one before (`Tree.Chain.leads`).
Where the check for cycles reports none, no node comes twice among them, so a run takes no more hops
than there are nodes to advance, and no call exceeds a budget of so many (`Session.step_within`). A
run on a cycle whose nodes do nothing always goes on (`Session.run_cycle`), so it exceeds every
budget. What it takes besides is that the store can be kept: a store that is nested too deeply stops
the call before it begins (`Session.enter_laden`).
-/

namespace Colloquy

open Validation

section session
variable [Text.Halves]

/-- The nodes that advance by themselves. -/
def Tree.advancing (t : Tree) : List Node := t.nodes.filter (·.autoAdvance.isTrue)

namespace Tree.Chain

theorem advances {t : Tree} {w w' : World} {target last : Datum} {ns : List Node}
    (h : t.Chain w target ns w' last) : ∀ n ∈ ns, n ∈ t.nodes ∧ n.advances = true := by
  induction h with
  | nil => exact List.forall_mem_nil _
  | cons found _ _ advances _ ih =>
    exact List.forall_mem_cons.2 ⟨⟨mem_of_lookup found, advances⟩, ih⟩

theorem leads {t : Tree} (named : t.Named) {w w' : World} {target last : Datum} {ns : List Node}
    (h : t.Chain w target ns w' last) : (ns.map (·.name)).IsChain t.Leads := by
  induction h with
  | nil => exact List.isChain_nil
  | @cons _ _ _ _ _ n ns found _ _ advances rest ih =>
    have hn := mem_of_lookup found
    cases rest with
    | nil => exact List.isChain_singleton _
    | @cons _ _ _ _ _ m ms found' _ _ _ _ =>
      have hm := ((named.lookup_some (named.next n hn)).1 found').2
      exact List.isChain_cons_cons.2 ⟨⟨n, hn, rfl, advances, hm⟩, ih⟩

/-- Where no cycle is reported, no chain is longer than there are nodes to advance. -/
theorem length_le {t : Tree} (named : t.Named) (none : cycleErrors t [] t.nodes = .ok [])
    {w w' : World} {target last : Datum} {ns : List Node} (h : t.Chain w target ns w' last) :
    ns.length ≤ t.advancing.length := by
  have hmem := h.advances
  have hd : ns.Nodup := by
    rcases ns with _ | ⟨n, ns⟩
    · exact List.nodup_nil
    · rw [List.forall_mem_cons] at hmem
      exact List.Nodup.of_map _ (named.chain_nodup none hmem.1.1 hmem.1.2 (h.leads named))
  refine (List.subperm_of_subset hd fun n hn => ?_).length_le
  exact List.mem_filter.2 ⟨(hmem n hn).1, (Bool.and_eq_true_iff.1 (hmem n hn).2).1⟩

end Tree.Chain

namespace Session

/-! ## Budgets that are large enough -/

theorem run_within {s : Session} {b : ℕ} (named : s.tree.Named)
    (none : cycleErrors s.tree [] s.tree.nodes = .ok []) (budget : s.budget = .int b)
    (enough : s.tree.advancing.length ≤ b) (target : Datum) (chain : List String) (d : Datum) :
    (s.run target).2 ≠ .error (.budgetExceeded chain d) := by
  intro h
  obtain ⟨-, ns, w, last, hc, hl, -⟩ := run_exceeds budget h
  have hle := hc.length_le named none
  omega

omit [Text.Halves] in
theorem guarded_within {s : Session} {o : Session × Except Fault StepResult}
    (h : ∀ chain d, o.2 ≠ .error (.budgetExceeded chain d)) (chain : List String) (d : Datum) :
    (s.guarded o).2 ≠ .error (.budgetExceeded chain d) := by
  by_cases hc : s.store.context.isCopyable = true
  · rw [guarded_eq hc h]
    exact h chain d
  · rw [guarded_undo, if_neg hc]
    exact nofun

theorem take_within {s : Session} {b : ℕ} (named : s.tree.Named)
    (none : cycleErrors s.tree [] s.tree.nodes = .ok []) (budget : s.budget = .int b)
    (enough : s.tree.advancing.length ≤ b) (i : ℕ) (c : Choice × ℕ) (chain : List String)
    (d : Datum) : (s.take i c).2 ≠ .error (.budgetExceeded chain d) := by
  have hc := take_cases s i c
  generalize s.take i c = o at hc ⊢
  cases hc with
  | broken he =>
    intro h
    have hf := Effect.applyAll_fault (congrArg Prod.snd he)
    rw [Except.error.inj h] at hf
    cases hf
  | finished => exact nofun
  | @going w _ _ =>
    have hr : (s.resolved i c w).tree = s.tree := rfl
    exact run_within (s := s.resolved i c w) (hr ▸ named) none budget enough c.1.goto chain d

/-- Where no cycle is reported, no call exceeds a budget of as many hops as there are nodes to
advance. -/
theorem step_within {s : Session} {b : ℕ} (named : s.tree.Named)
    (none : cycleErrors s.tree [] s.tree.nodes = .ok []) (budget : s.budget = .int b)
    (enough : s.tree.advancing.length ≤ b) (c : Call) (chain : List String) (d : Datum) :
    (s.step c).2 ≠ .error (.budgetExceeded chain d) := by
  have hc := step_cases s c
  generalize s.step c = o at hc ⊢
  cases hc with
  | runs => exact guarded_within (run_within named none budget enough _) chain d
  | takes => exact guarded_within (take_within named none budget enough _ _) chain d
  | finishes => exact nofun
  | refused within => exact fun h => within chain d (Except.error.inj h)

/-- A session keeps its budget. -/
theorem budget_upheld : Upheld fun s s' : Session => s'.budget = s.budget where
  refl _ := rfl
  trans h h' := h'.trans h
  arrive s target := (arrive_kept s target).budget
  finish _ := rfl
  settle _ _ _ _ := rfl
  overrun _ _ := rfl
  resolve s index c _ := by
    unfold resolve
    split
    · rfl
    · rfl
  undo {s before} h := by
    unfold undo
    split
    · exact h
    · exact h

/-! ## Runs round a cycle -/

/-- The nodes of some ids have no conditions and no effects, and it can be told which of their
choices are on offer. -/
structure Idle (t : Tree) (ids : List String) (at_ : Store) : Prop where
  conditions : ∀ n ∈ t.nodes, n.name ∈ ids → n.conditions = []
  effects : ∀ n ∈ t.nodes, n.name ∈ ids → n.effects = []
  answers : ∀ n ∈ t.nodes, n.name ∈ ids → ∀ c ∈ n.choices, ∃ a, c.isAvailable at_ = .ok a

/-- A session that goes to a node that does nothing arrives there in the store as it was. -/
theorem arrive_idle {s : Session} {ids : List String} (named : s.tree.Named)
    (idle : Idle s.tree ids s.store) {n : Node} (hn : n ∈ s.tree.nodes) (hid : n.name ∈ ids) :
    ∃ p, s.arrive (.text n.name) = (s.arrivedAt n s.world, .ok (some (n, p))) := by
  have hv : s.tree.visit s.world (.text n.name) = (s.world, .ok (some n)) := by
    refine Tree.visit_eq ((named.lookup_some (.inr ⟨_, rfl⟩)).2 ⟨hn, rfl⟩) ?_ ?_
    · rw [idle.conditions n hn hid]
      rfl
    · rw [idle.effects n hn hid]
      rfl
  have ho : s.offersAmong n n.choices.zipIdx =
      .ok (n.choices.zipIdx.filter (s.isOpen s.store n)) := offersAmong_eq fun c hc =>
    idle.answers n hn hid c.1 (List.mem_of_getElem? (List.mem_zipIdx_iff_getElem?.1 hc))
  exact ⟨_, arrive_eq hv ho⟩

/-- A run on a cycle whose nodes do nothing goes on until its hops are used up. -/
theorem run_cycle {t : Tree} (named : t.Named) {ids : List String} (cycle : t.IsCycle ids)
    {b : ℤ} : ∀ (left : ℕ) (s : Session) (id : String) (passed : List Presentation)
      (chain : List String), s.tree = t → s.budget = .int b → Idle t ids s.store → id ∈ ids →
        ∃ chain', (runFrom left s (.text id) passed chain).2 =
          .error (.budgetExceeded chain' (.int b)) := by
  intro left
  induction left with
  | zero =>
    rintro s id passed chain rfl hb idle hid
    obtain ⟨b', -, n, hn, rfl, ha, -⟩ := cycle.leads id hid
    obtain ⟨p, harr⟩ := arrive_idle named idle hn hid
    have hb' : (s.arrivedAt n s.world).budget = .int b := hb
    refine ⟨chain ++ [n.name], ?_⟩
    rw [runFrom_eq, harr]
    simp only [if_pos ha, overrun, hb']
    rfl
  | succ left ih =>
    rintro s id passed chain rfl hb idle hid
    obtain ⟨b', hb', n, hn, rfl, ha, hnext⟩ := cycle.leads id hid
    obtain ⟨p, harr⟩ := arrive_idle named idle hn hid
    have hbud : (s.arrivedAt n s.world).budget = .int b := hb
    obtain ⟨chain', hrec⟩ := ih (s.arrivedAt n s.world) b' (passed ++ [p]) (chain ++ [n.name]) rfl
      hb idle hb'
    refine ⟨chain', ?_⟩
    rw [runFrom_eq, harr]
    simp only [if_pos ha, hbud, hnext]
    exact hrec

theorem enter_cycle {s : Session} (named : s.tree.Named) {ids : List String}
    (cycle : s.tree.IsCycle ids) {b : ℤ} {root : Ref} (budget : s.budget = .int b)
    (copyable : s.store.context.isCopyable = true) (table : s.store.context.root = .map root)
    (idle : Idle s.tree ids s.store) {id : String} (hid : id ∈ ids) :
    ∃ chain, (s.enter (.text id)).2 = .error (.budgetExceeded chain (.int b)) := by
  rw [(enter_cases copyable table _).1]
  exact run_cycle named cycle _ s id [] [] rfl budget idle hid

end Session

/-- On a tree of a file whose references are null or texts the check for cycles comes to an end. If
it reports none, no call of any session exceeds a budget that is no smaller than the number of
nodes to advance. What it reports are cycles, and entering a node of one whose nodes have no
conditions and no effects exceeds every budget that can be put into words, if the store can be kept
and is a table, and if it can be told which choices of those nodes are on offer. -/
theorem Tree.validate_cycles {h h' : Heap} {d : Datum} {t : Tree} (json : d.IsJson)
    (loaded : ofDatum h d = .ok (t, h')) (start : t.start.IsName)
    (next : ∀ n ∈ t.nodes, n.next.IsName)
    (goto : ∀ n ∈ t.nodes, ∀ c ∈ n.choices, c.goto.IsName) :
    ∃ report, t.validate = .ok report ∧
      ((∀ ids, cycleError ids ∉ report.errors) →
        ∀ (s : Session) (b : ℤ), s.tree = t → s.budget = .int b →
          (t.advancing.length : ℤ) ≤ b → ∀ calls c chain budget,
            ((s.steps calls).step c).2 ≠ .error (.budgetExceeded chain budget)) ∧
      ∀ i ∈ report.errors, (∃ ids, i = cycleError ids) →
        ∃ ids, i = cycleError ids ∧ t.IsCycle ids ∧
          ∀ (s : Session) (b : ℤ) (root : Ref), s.tree = t → s.budget = .int b →
            s.budget.isShowable = true → s.store.context.isCopyable = true →
              s.store.context.root = .map root → Session.Idle t ids s.store → ∀ id ∈ ids,
                ∃ chain, (s.enter (.text id)).2 = .error (.budgetExceeded chain (.int b)) := by
  have named := ofDatum_named json loaded start next goto
  obtain ⟨report, cycles, hv, hc, hcycles, hmem⟩ := named.validate_cycleErrors
  refine ⟨report, hv, ?_, ?_⟩
  · rintro none s b rfl budget enough calls c chain d
    have hnil : cycles = [] := by
      rcases cycles with _ | ⟨ids, cycles⟩
      · rfl
      · exact absurd ((hmem ids).2 List.mem_cons_self) (none ids)
    rw [hnil] at hc
    obtain ⟨b, rfl⟩ := Int.eq_ofNat_of_zero_le ((Int.natCast_nonneg _).trans enough)
    have ht : (s.steps calls).tree = s.tree := Session.tree_upheld.steps calls s
    have hb : (s.steps calls).budget = s.budget := Session.budget_upheld.steps calls s
    refine Session.step_within (ht ▸ named) ?_ (hb.trans budget) ?_ c chain d
    · rw [ht]
      exact hc
    · rw [ht]
      exact Int.ofNat_le.1 enough
  · rintro _ hi ⟨ids', rfl⟩
    obtain ⟨ids, hids, he⟩ := List.mem_map.1 ((hmem ids').1 hi)
    refine ⟨ids, he.symm, hcycles ids hids, ?_⟩
    rintro s b root rfl budget - copyable table idle id hid
    exact Session.enter_cycle named (hcycles ids hids) budget copyable table idle hid

end session

namespace Session

attribute [local instance] Text.noHalves

/-- A file with two nodes that lead to each other, of which the second may advance by itself, as the
first does. -/
def circle (advances : Bool) : Datum :=
  let node (autoAdvance : Bool) (next : String) : Datum :=
    .object [("autoAdvance", .bool autoAdvance), ("nextNode", .text next)]
  .object [("nodes", .object [("start", node true "back"), ("back", node advances "start")])]

/-- A session on what is in that file. -/
def onCircle (advances : Bool) (budget : ℤ) : Session :=
  let node (id : String) (autoAdvance : Bool) (next : String) : Node := {
    id := .text id, text := .text "", speaker := .text "", portrait := .null, choices := []
    autoAdvance := .bool autoAdvance, next := .text next, voiceLine := .null, guards := []
    deeds := [], tags := [], priority := .int 0 }
  { tree := { id := .text "", nodes := [node "start" true "back", node "back" advances "start"] }
    world := { store := .empty #[] }, budget := .int budget }

theorem onCircle_plain (advances : Bool) (budget : ℤ) :
    ∀ n ∈ (onCircle advances budget).tree.nodes,
      n.next.IsName ∧ n.conditions = [] ∧ n.effects = [] ∧ n.choices = [] := by
  intro n hn
  rcases List.mem_cons.1 hn with rfl | hn
  · exact ⟨.inr ⟨_, rfl⟩, rfl, rfl, rfl⟩
  · obtain rfl := List.mem_singleton.1 hn
    exact ⟨.inr ⟨_, rfl⟩, rfl, rfl, rfl⟩

theorem validate_cycles_onCircle :
    (onCircle true 1).tree.validate.map (·.errors) =
      .ok [cycleError ["start", "back", "start"]] ∧
    (∃ chain, ((onCircle true (-5)).enter (.text "back")).2 =
      .error (.budgetExceeded chain (.int (-5)))) ∧
    (onCircle false 1).tree.validate.map (·.errors) = .ok [] ∧
    ∀ calls c chain budget, (((onCircle false 1).steps calls).step c).2 ≠
      .error (.budgetExceeded chain budget) := by
  have json : ∀ b, (circle b).IsJson := by
    intro b
    simp [circle, Datum.object, Datum.IsJson, Datum.EntriesJson, Table.Keyed, Scalar.alike,
      Scalar.same]
  have loaded : ∀ b, Tree.ofDatum #[] (circle b) = .ok ((onCircle b 1).tree, #[]) := by
    decide +kernel
  have goto : ∀ b, ∀ n ∈ (onCircle b 1).tree.nodes, ∀ c ∈ n.choices, c.goto.IsName := by
    intro b n hn c hc
    rw [(onCircle_plain b 1 n hn).2.2.2] at hc
    exact absurd hc List.not_mem_nil
  have errors : (onCircle true 1).tree.validate.map (·.errors) =
      .ok [cycleError ["start", "back", "start"]] := by decide +kernel
  have noErrors : (onCircle false 1).tree.validate.map (·.errors) = .ok [] := by decide +kernel
  refine ⟨errors, ?_, noErrors, ?_⟩
  · obtain ⟨report, hr, -, hcycle⟩ := Tree.validate_cycles (json true) (loaded true)
      (.inr ⟨_, rfl⟩) (fun n hn => (onCircle_plain true 1 n hn).1) (goto true)
    rw [hr] at errors
    obtain ⟨ids, -, hids, hexceeds⟩ := hcycle _
      (Except.ok.inj errors ▸ List.mem_singleton_self _) ⟨_, rfl⟩
    have idle : Idle (onCircle true 1).tree ids (onCircle true (-5)).store := by
      refine ⟨fun n hn _ => (onCircle_plain true 1 n hn).2.1,
        fun n hn _ => (onCircle_plain true 1 n hn).2.2.1, fun n hn _ c hc => ?_⟩
      rw [(onCircle_plain true 1 n hn).2.2.2] at hc
      exact absurd hc List.not_mem_nil
    -- from either node the cycle goes on to the other one
    have hback : "back" ∈ ids := by
      have hleads := hids.leads
      obtain ⟨id, rest, rfl, -⟩ := hids
      obtain ⟨b, hb, n, hn, hid, -, hnext⟩ := hleads id List.mem_cons_self
      rcases List.mem_cons.1 hn with rfl | hn
      · obtain rfl : "back" = b := Scalar.text.inj (Datum.scalar.inj hnext)
        exact hb
      · obtain rfl := List.mem_singleton.1 hn
        obtain rfl : "back" = id := hid
        exact List.mem_cons_self
    exact hexceeds (onCircle true (-5)) (-5) 0 rfl rfl (by decide +kernel) (by decide +kernel) rfl
      idle "back" hback
  · obtain ⟨report, hr, hnone, -⟩ := Tree.validate_cycles (json false) (loaded false)
      (.inr ⟨_, rfl⟩) (fun n hn => (onCircle_plain false 1 n hn).1) (goto false)
    rw [hr] at noErrors
    have hnil : ∀ ids, cycleError ids ∉ report.errors := by
      intro ids
      rw [show report.errors = [] from Except.ok.inj noErrors]
      exact List.not_mem_nil
    exact hnone hnil (onCircle false 1) 1 rfl rfl (by decide)

/-- A session before a node that puts so many lists inside each other into the store, and waits
before a node that leads to itself. -/
def laden (depth : ℕ) : Session :=
  let load : Node := { id := .text "start", text := .null, speaker := .null, portrait := .null
                       choices := [], autoAdvance := .null, next := .text "b"
                       voiceLine := .null, guards := [], tags := [], priority := .null
                       deeds := [⟨.null, .write "a" .set (.value (.list [nested depth]))⟩] }
  { tree := { id := .text "t", nodes := [load, { load with
      id := .text "b", autoAdvance := .bool true, deeds := [] }] }
    world := { store := .empty #[] } }

/-- A store that is nested too deeply to be kept stops a call that enters the one node of a cycle,
though the node has neither conditions nor effects nor choices. -/
theorem enter_laden :
    (laden 492).tree.validate.map (·.errors) = .ok [cycleError ["b", "b"]] ∧
      (∀ n ∈ (laden 492).tree.nodes, n.name = "b" →
        n.conditions = [] ∧ n.effects = [] ∧ n.choices = []) ∧
      ((laden 492).step .start).2.isOk = true ∧
      (((laden 492).step .start).1.enter (.text "b")).2 = .error .tooDeep ∧
      (((laden 492).step .start).1.step .advance).2 = .error .tooDeep := by
  refine ⟨?_, ?_, ?_, ?_, ?_⟩
  · decide +kernel
  · decide +kernel
  · decide +kernel
  · decide +kernel
  · decide +kernel

end Session

end Colloquy
