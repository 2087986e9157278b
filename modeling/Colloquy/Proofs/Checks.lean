import Colloquy.Proofs.Named
import Mathlib.Data.List.Chain
import Mathlib.Data.List.TakeWhile
import Mathlib.Logic.Relation

/-!
# What the checks find

Whatever the check for cycles reports is a cycle of nodes that advance by themselves
(`Validation.cycleErrors_named`), and as long as it has reported none it skips no node, so if it
reports none at all, no chain comes back to a node of its own (`Tree.Named.chain_nodup`). The search
from the start node takes one step for each node that it has found; what it has found and looked at
is closed, so at its end it has found just the nodes that a path leads to
(`Validation.reachable_named`). A report has the findings of all checks side by side
(`Tree.Named.validate_eq`), and the messages of one check are not those of another.
-/

namespace Colloquy

theorem Validation.dropWhile_mem {id : String} {chain : List String} (h : id ∈ chain) :
    ∃ rest, chain.dropWhile (fun s => decide (s ≠ id)) = id :: rest := by
  induction chain with
  | nil => exact absurd h List.not_mem_nil
  | cons a chain ih =>
    by_cases ha : a = id
    · exact ⟨chain, by simp [ha]⟩
    · obtain ⟨rest, hr⟩ := ih ((List.mem_cons.1 h).resolve_left (Ne.symm ha))
      exact ⟨rest, by rw [List.dropWhile_cons_of_pos (by simp [ha]), hr]⟩

theorem Validation.nodup_concat {id : String} {chain : List String} (h : chain.Nodup)
    (hid : id ∉ chain) : (chain ++ [id]).Nodup := by
  rw [← List.concat_eq_append]
  exact h.concat hid


variable [Text.Halves]

/-- Whether the node with one id advances by itself to another id. -/
def Tree.Leads (t : Tree) (a b : String) : Prop :=
  ∃ n ∈ t.nodes, n.name = a ∧ n.advances = true ∧ n.next = .text b

/-- Ids each of which leads to the next one, the last of them the first again, and otherwise each
of them once. -/
def Tree.IsCycle (t : Tree) (ids : List String) : Prop :=
  ∃ id rest, ids = id :: (rest ++ [id]) ∧ (id :: rest).Nodup ∧ ids.IsChain t.Leads

theorem Tree.IsCycle.leads {t : Tree} {ids : List String} (h : t.IsCycle ids) :
    ∀ a ∈ ids, ∃ b ∈ ids, t.Leads a b := by
  obtain ⟨id, rest, rfl, -, hc⟩ := h
  -- the last id is the first again, so it is enough to look at all others
  have hinit : ∀ a ∈ id :: rest, ∃ b ∈ id :: (rest ++ [id]), t.Leads a b := by
    intro a ha
    obtain ⟨l₁, l₂, hl⟩ := List.append_of_mem ha
    have he : id :: (rest ++ [id]) = l₁ ++ a :: (l₂ ++ [id]) := by
      rw [← List.cons_append, hl]
      simp
    rw [he] at hc ⊢
    rcases l₂ with _ | ⟨b, l₂⟩
    · exact ⟨id, by simp, (List.isChain_append_cons_cons.1 hc).2.1⟩
    · exact ⟨b, by simp, (List.isChain_append_cons_cons.1 hc).2.1⟩
  intro a ha
  rcases List.mem_cons.1 ha with rfl | ha
  · exact hinit a List.mem_cons_self
  · rcases List.mem_append.1 ha with ha | ha
    · exact hinit a (List.mem_cons_of_mem id ha)
    · obtain rfl := List.mem_singleton.1 ha
      exact hinit a List.mem_cons_self

namespace Validation

variable {t : Tree}

omit [Text.Halves] in
theorem advances_next {n : Node} (h : n.advances = true) (hn : n.next.IsName) :
    ∃ id, n.next = .text id := by
  rcases hn with h0 | hid
  · rw [Node.advances, h0] at h
    simp [Datum.isNull] at h
  · exact hid

/-- A chain that is followed stops or comes back to a cycle of its own ids. -/
theorem follow_named (named : t.Named) : ∀ (fuel : ℕ) (chain : List String) (n : Node),
    n ∈ t.nodes → chain.getLast? = some n.name → chain.Nodup → chain.IsChain t.Leads →
      ∃ e, follow t fuel chain n = .ok e ∧ ∀ cycle, e = .loops cycle → t.IsCycle cycle
  | 0, _, _, _, _, _, _ => ⟨.stops, rfl, nofun⟩
  | fuel + 1, chain, n, hn, hlast, hd, hc => by
    unfold follow
    by_cases ha : n.advances
    swap
    · exact ⟨.stops, if_neg ha, nofun⟩
    obtain ⟨id, hid⟩ := advances_next ha (named.next n hn)
    have hlead : t.Leads n.name id := ⟨n, hn, rfl, ha, hid⟩
    have hc' : (chain ++ [id]).IsChain t.Leads := by
      refine hc.append (List.isChain_singleton id) fun a h b hb => ?_
      rw [hlast] at h
      cases h
      cases hb
      exact hlead
    simp only [if_pos ha, hid, Datum.text?]
    by_cases hm : id ∈ chain
    · refine ⟨_, if_pos hm, fun cycle h => ?_⟩
      cases h
      obtain ⟨rest, hr⟩ := dropWhile_mem hm
      have hs : id :: rest <:+ chain := hr ▸ List.dropWhile_suffix _
      refine ⟨id, rest, by rw [hr]; rfl, hd.sublist hs.sublist, ?_⟩
      rw [hr]
      obtain ⟨l, rfl⟩ := hs
      rw [List.append_assoc] at hc'
      exact (List.isChain_append.1 hc').2.1
    · rw [if_neg hm]
      rcases hf : t.find? (.text id) with _ | m
      · exact ⟨.stops, rfl, nofun⟩
      · obtain ⟨hm', rfl⟩ := named.find?_text.1 hf
        exact follow_named named fuel _ m hm' (by simp) (nodup_concat hd hm) hc'

/-- The errors of cycles are about cycles. -/
theorem cycleErrors_named (named : t.Named) : ∀ (ns : List Node) (reported : List String),
    (∀ n ∈ ns, n ∈ t.nodes) → ∃ cycles : List (List String),
      cycleErrors t reported ns = .ok (cycles.map cycleError) ∧ ∀ ids ∈ cycles, t.IsCycle ids
  | [], _, _ => ⟨[], rfl, nofun⟩
  | n :: ns, reported, h => by
    rw [List.forall_mem_cons] at h
    unfold cycleErrors
    split_ifs
    · exact cycleErrors_named named ns reported h.2
    obtain ⟨e, he, hcycle⟩ := follow_named named (t.nodes.length + 1) [n.name] n h.1 rfl
      (List.nodup_singleton _) (List.isChain_singleton _)
    rw [he]
    rcases e with _ | cycle
    · exact cycleErrors_named named ns reported h.2
    obtain ⟨cycles, hr, hcycles⟩ := cycleErrors_named named ns (reported ++ cycle) h.2
    simp only [hr]
    by_cases hseen : cycle.any (· ∈ reported)
    · exact ⟨cycles, by simp [hseen, Bind.bind, Except.bind, pure, Except.pure], hcycles⟩
    · refine ⟨cycle :: cycles, ?_, List.forall_mem_cons.2 ⟨hcycle cycle rfl, hcycles⟩⟩
      simp [hseen, Bind.bind, Except.bind, pure, Except.pure]

/-- While no cycle is reported, no node that advances is skipped. -/
theorem follow_of_cycleErrors : ∀ {ns : List Node}, cycleErrors t [] ns = .ok [] →
    ∀ n ∈ ns, n.autoAdvance.isTrue = true →
      follow t (t.nodes.length + 1) [n.name] n = .ok .stops
  | [], _, _, hn, _ => absurd hn List.not_mem_nil
  | m :: ns, h, n, hn, ha => by
    unfold cycleErrors at h
    by_cases hm : m.autoAdvance.isTrue = true
    · simp only [hm, Bool.not_true, List.not_mem_nil, decide_false, Bool.or_false] at h
      rcases hf : follow t (t.nodes.length + 1) [m.name] m with f | _ | cycle
      all_goals simp only [hf] at h
      · cases h
      · rcases List.mem_cons.1 hn with rfl | hn
        · exact hf
        · exact follow_of_cycleErrors h n hn ha
      · rcases hr : cycleErrors t ([] ++ cycle) ns with f | rest
        all_goals rw [hr] at h
        · cases h
        · simp [Bind.bind, Except.bind, pure, Except.pure] at h
    · simp only [hm, Bool.not_false, Bool.true_or] at h
      rcases List.mem_cons.1 hn with rfl | hn
      · exact absurd ha hm
      · exact follow_of_cycleErrors h n hn ha

/-- Where following a chain from a node stops, no id comes twice from there on. -/
theorem follow_stops (named : t.Named) :
    ∀ {fuel : ℕ} {chain : List String} (rest : List String) {n : Node}, n ∈ t.nodes →
      follow t fuel chain n = .ok .stops → (n.name :: rest).IsChain t.Leads → chain.Nodup →
        chain ⊆ t.nodes.map (·.name) → t.nodes.length < fuel + chain.length →
          (chain ++ rest).Nodup
  | fuel, chain, [], n, _, _, _, hd, _, _ => by rwa [List.append_nil]
  | 0, chain, b :: rest, n, _, _, _, hd, hsub, hl => by
    have hle := (List.subperm_of_subset hd hsub).length_le
    rw [List.length_map] at hle
    omega
  | fuel + 1, chain, b :: rest, n, hn, hf, hc, hd, hsub, hl => by
    rw [List.isChain_cons_cons] at hc
    obtain ⟨⟨m, hm, hname, ha, hb⟩, hrest⟩ := hc
    obtain rfl : m = n := List.inj_on_of_nodup_map named.distinct hm hn hname
    unfold follow at hf
    simp only [if_pos ha, hb, Datum.text?] at hf
    by_cases hmem : b ∈ chain
    · rw [if_pos hmem] at hf
      cases hf
    rw [if_neg hmem] at hf
    rcases hfind : t.find? (.text b) with _ | m'
    · -- an id that names no node leads nowhere
      rcases rest with _ | ⟨c, rest⟩
      · exact nodup_concat hd hmem
      · obtain ⟨m', hm', rfl, -⟩ := (List.isChain_cons_cons.1 hrest).1
        rw [named.find?_text.2 ⟨hm', rfl⟩] at hfind
        cases hfind
    · rw [hfind] at hf
      obtain ⟨hm', rfl⟩ := named.find?_text.1 hfind
      have hsub' : chain ++ [m'.name] ⊆ t.nodes.map (·.name) :=
        List.append_subset.2 ⟨hsub, by simpa using ⟨m', hm', rfl⟩⟩
      have hrec := follow_stops named rest hm' hf hrest (nodup_concat hd hmem)
        hsub'
        (by rw [List.length_append, List.length_singleton]; omega)
      rwa [List.append_assoc] at hrec

end Validation

open Validation

/-- Where no cycle is reported, no id comes twice in a chain of nodes that advance. -/
theorem Tree.Named.chain_nodup {t : Tree} (named : t.Named)
    (none : cycleErrors t [] t.nodes = .ok []) {n : Node} (hn : n ∈ t.nodes)
    (ha : n.advances = true) {rest : List String} (hc : (n.name :: rest).IsChain t.Leads) :
    (n.name :: rest).Nodup := by
  have htrue : n.autoAdvance.isTrue = true := (Bool.and_eq_true_iff.1 ha).1
  refine follow_stops named rest hn (follow_of_cycleErrors none n hn htrue) hc
    (List.nodup_singleton _) ?_ ?_
  · simpa using ⟨n, hn, rfl⟩
  · rw [List.length_singleton]
    omega


/-! ## Nodes that a path leads to -/

/-- Whether a reference of one node leads to another one. -/
def Tree.Edge (t : Tree) (a b : Node) : Prop :=
  b ∈ t.nodes ∧ ∃ place, a.Refers place (.text b.name)

/-- Whether a path leads to a node from the one where conversations start. -/
def Tree.Reachable (t : Tree) (n : Node) : Prop :=
  ∃ m ∈ t.nodes, t.start = .text m.name ∧ Relation.ReflTransGen t.Edge m n

theorem Tree.Reachable.mem {t : Tree} {n : Node} (h : t.Reachable n) : n ∈ t.nodes := by
  obtain ⟨m, hm, -, hpath⟩ := h
  cases hpath with
  | refl => exact hm
  | tail _ he => exact he.1

theorem Tree.Reachable.step {t : Tree} {n m : Node} (h : t.Reachable n) (he : t.Edge n m) :
    t.Reachable m := by
  obtain ⟨k, hk, hstart, hpath⟩ := h
  exact ⟨k, hk, hstart, hpath.tail he⟩

namespace Validation

variable {t : Tree}

omit [Text.Halves] in
theorem mem_targets {n : Node} {d : Datum} : d ∈ targets n ↔ ∃ place, n.Refers place d := by
  unfold targets
  rw [List.mem_append, List.mem_map, List.mem_singleton]
  constructor
  · rintro (⟨c, hc, rfl⟩ | rfl)
    · obtain ⟨i, hi⟩ := List.mem_iff_getElem?.1 hc
      exact ⟨some i, .goto hi⟩
    · exact ⟨none, .next⟩
  · rintro ⟨place, hr⟩
    cases hr with
    | next => exact .inr rfl
    | goto at_ => exact .inl ⟨_, List.mem_of_getElem? at_, rfl⟩

/-- What is found among references are the nodes that they name and that were not seen before, each
of them once. -/
theorem fresh_named (named : t.Named) : ∀ (ds : List Datum) (seen : List String),
    (∀ d ∈ ds, d.IsName) → ∃ found, fresh t seen ds = .ok found ∧ found.Nodup ∧
      ∀ id, id ∈ found ↔ id ∉ seen ∧ .text id ∈ ds ∧ id ∈ t.nodes.map (·.name)
  | [], seen, _ => ⟨[], rfl, List.nodup_nil, by simp⟩
  | d :: ds, seen, h => by
    rw [List.forall_mem_cons] at h
    unfold fresh
    rcases named.lookup_cases h.1 with ⟨n, hn, rfl, hl⟩ | ⟨hl, hno⟩
    · simp only [hl]
      have hnames : n.name ∈ t.nodes.map (·.name) := List.mem_map_of_mem hn
      by_cases hs : n.name ∈ seen
      · obtain ⟨found, hf, hd, hmem⟩ := fresh_named named ds seen h.2
        refine ⟨found, by rw [if_pos hs, hf], hd, fun id => ?_⟩
        rw [hmem, List.mem_cons]
        constructor
        · exact fun ⟨h₁, h₂, h₃⟩ => ⟨h₁, .inr h₂, h₃⟩
        · rintro ⟨h₁, h₂ | h₂, h₃⟩
          · cases h₂
            exact absurd hs h₁
          · exact ⟨h₁, h₂, h₃⟩
      · obtain ⟨found, hf, hd, hmem⟩ := fresh_named named ds (n.name :: seen) h.2
        refine ⟨n.name :: found, by rw [if_neg hs, hf]; rfl, ?_, fun id => ?_⟩
        · exact List.nodup_cons.2 ⟨fun hc => ((hmem _).1 hc).1 List.mem_cons_self, hd⟩
        · rw [List.mem_cons, hmem, List.mem_cons, List.mem_cons]
          by_cases he : id = n.name
          · subst he
            exact ⟨fun _ => ⟨hs, .inl rfl, hnames⟩, fun _ => .inl rfl⟩
          · have ht : (Datum.text id ≠ Datum.text n.name) := fun hc =>
              he (Scalar.text.inj (Datum.scalar.inj hc))
            simp only [he, ht, false_or]
    · simp only [hl]
      obtain ⟨found, hf, hd, hmem⟩ := fresh_named named ds seen h.2
      refine ⟨found, hf, hd, fun id => ?_⟩
      rw [hmem, List.mem_cons]
      constructor
      · exact fun ⟨h₁, h₂, h₃⟩ => ⟨h₁, .inr h₂, h₃⟩
      · rintro ⟨h₁, h₂ | h₂, h₃⟩
        · obtain ⟨m, hm, rfl⟩ := List.mem_map.1 h₃
          exact absurd h₂.symm (hno m hm)
        · exact ⟨h₁, h₂, h₃⟩

/-- How far the search has come: what it has seen can be reached, and what it does not have before
it any more has nothing next to it that was not seen. -/
structure Searching (t : Tree) (queue seen : List String) : Prop where
  distinct : seen.Nodup
  sub : queue ⊆ seen
  reached : ∀ id ∈ seen, ∃ n, t.Reachable n ∧ n.name = id
  closed : ∀ n ∈ t.nodes, n.name ∈ seen → n.name ∉ queue → ∀ m, t.Edge n m → m.name ∈ seen

theorem Searching.first {n : Node} (hn : n ∈ t.nodes) (start : t.start = .text n.name) :
    Searching t [n.name] [n.name] := by
  refine ⟨List.nodup_singleton _, List.Subset.refl _, fun id hid => ?_, fun _ _ hs hq => ?_⟩
  · rw [List.mem_singleton] at hid
    exact ⟨n, ⟨n, hn, start, .refl⟩, hid.symm⟩
  · exact absurd hs hq

theorem Searching.length_le {queue seen : List String} (h : Searching t queue seen) :
    seen.length ≤ t.nodes.length := by
  have hsub : seen ⊆ t.nodes.map (·.name) := by
    intro id hid
    obtain ⟨n, hn, rfl⟩ := h.reached id hid
    exact List.mem_map_of_mem hn.mem
  simpa using (List.subperm_of_subset h.distinct hsub).length_le

/-- The search looks at the first node before it. -/
theorem Searching.next (named : t.Named) {queue seen : List String} {n : Node} (hn : n ∈ t.nodes)
    (h : Searching t (n.name :: queue) seen) : ∃ found, fresh t seen (targets n) = .ok found ∧
      Searching t (queue ++ found) (seen ++ found) := by
  have hnames : ∀ d ∈ targets n, d.IsName := fun d hd =>
    (mem_targets.1 hd).elim fun _ hr => named.refers hn hr
  obtain ⟨found, hf, hd, hmem⟩ := fresh_named named (targets n) seen hnames
  refine ⟨found, hf, ?_, ?_, ?_, ?_⟩
  · exact h.distinct.append hd fun id hs hi => ((hmem id).1 hi).1 hs
  · refine List.append_subset.2 ⟨fun id hid => ?_, List.subset_append_right _ _⟩
    exact List.mem_append_left _ (h.sub (List.mem_cons_of_mem _ hid))
  · intro id hid
    rcases List.mem_append.1 hid with hid | hid
    · exact h.reached id hid
    · obtain ⟨-, ht, hname⟩ := (hmem id).1 hid
      obtain ⟨m, hm, rfl⟩ := List.mem_map.1 hname
      obtain ⟨n', hreach, hname⟩ := h.reached n.name (h.sub List.mem_cons_self)
      obtain rfl := List.inj_on_of_nodup_map named.distinct hreach.mem hn hname
      exact ⟨m, hreach.step ⟨hm, mem_targets.1 ht⟩, rfl⟩
  · intro k hk hks hkq m he
    rw [List.mem_append, not_or] at hkq
    -- a node that is seen and not in the queue any more was looked at before, or just now
    by_cases hkn : k.name = n.name
    · obtain rfl := List.inj_on_of_nodup_map named.distinct hk hn hkn
      by_cases hms : m.name ∈ seen
      · exact List.mem_append_left _ hms
      · exact List.mem_append_right _ ((hmem _).2
          ⟨hms, mem_targets.2 he.2, List.mem_map_of_mem he.1⟩)
    · have hks' : k.name ∈ seen := (List.mem_append.1 hks).resolve_right hkq.2
      have hkq' : k.name ∉ n.name :: queue := by simp [hkn, hkq.1]
      exact List.mem_append_left _ (h.closed k hk hks' hkq' m he)

/-- A search that may take a step for each node before it or not found yet comes to its end. -/
theorem reachable_searching (named : t.Named) : ∀ (fuel : ℕ) {queue seen : List String},
    Searching t queue seen → queue.length + t.nodes.length ≤ fuel + seen.length →
      ∃ all, reachable t fuel queue seen = .ok all ∧ Searching t [] all ∧ seen ⊆ all
  | 0, queue, seen, h, hl => by
    have hle := h.length_le
    obtain rfl : queue = [] := List.eq_nil_of_length_eq_zero (by omega)
    exact ⟨seen, rfl, h, List.Subset.refl _⟩
  | fuel + 1, [], seen, h, _ => ⟨seen, rfl, h, List.Subset.refl _⟩
  | fuel + 1, id :: queue, seen, h, hl => by
    obtain ⟨n, hreach, rfl⟩ := h.reached id (h.sub List.mem_cons_self)
    obtain ⟨found, hf, hs⟩ := h.next named hreach.mem
    obtain ⟨all, ha, hall, hsub⟩ := reachable_searching named fuel hs (by
      simp only [List.length_append, List.length_cons] at hl ⊢
      omega)
    refine ⟨all, ?_, hall, fun id hid => hsub (List.mem_append_left _ hid)⟩
    have hfind : t.find? (.text n.name) = some n := named.find?_text.2 ⟨hreach.mem, rfl⟩
    simp only [reachable, hfind, hf]
    exact ha

/-- The search from the start node finds the nodes that a path leads to. -/
theorem reachable_named (named : t.Named) {n : Node} (hn : n ∈ t.nodes)
    (start : t.start = .text n.name) :
    ∃ all, reachable t (t.nodes.length + 1) [n.name] [n.name] = .ok all ∧
      ∀ m ∈ t.nodes, m.name ∈ all ↔ t.Reachable m := by
  obtain ⟨all, ha, hall, hsub⟩ := reachable_searching named (t.nodes.length + 1)
    (.first hn start) (by simp only [List.length_singleton]; omega)
  refine ⟨all, ha, fun m hm => ⟨fun hmem => ?_, ?_⟩⟩
  · obtain ⟨m', hreach, hname⟩ := hall.reached m.name hmem
    exact List.inj_on_of_nodup_map named.distinct hreach.mem hm hname ▸ hreach
  · rintro ⟨k, hk, hstart, hpath⟩
    have hkn : k.name = n.name := by
      rw [start] at hstart
      exact (Scalar.text.inj (Datum.scalar.inj hstart)).symm
    obtain rfl := List.inj_on_of_nodup_map named.distinct hk hn hkn
    have hpath' : m.name ∈ all ∧ m ∈ t.nodes := by
      clear hm
      induction hpath with
      | refl => exact ⟨hsub List.mem_cons_self, hk⟩
      | tail _ he ih => exact ⟨hall.closed _ ih.2 ih.1 List.not_mem_nil _ he, he.1⟩
    exact hpath'.1

/-- The warning of a node that no path leads to. -/
def unreachableWarning (id : String) : Issue where
  message := "Node '" ++ id ++ "' is unreachable from the start node"
  node := some id

open Classical in
theorem unreachableWarnings_named (named : t.Named) {n : Node} (hn : n ∈ t.nodes)
    (start : t.start = .text n.name) : unreachableWarnings t =
      .ok ((t.nodes.filter fun n => ¬ t.Reachable n).map (unreachableWarning ·.name)) := by
  obtain ⟨all, ha, hall⟩ := reachable_named named hn start
  have hl := (named.lookup_some named.start).2 ⟨hn, start⟩
  unfold unreachableWarnings
  simp only [hl, ha, Bind.bind, Except.bind, pure, Except.pure, Except.ok.injEq]
  have hf : (t.nodes.filter fun m => m.name ∉ all) =
      t.nodes.filter fun m => ¬ t.Reachable m := by
    refine List.filter_congr fun m hm => ?_
    rw [decide_eq_decide, hall m hm]
  rw [hf]
  rfl

/-- Without a start node no node is said to be unreachable. -/
theorem unreachableWarnings_absent (none : t.lookup t.start = .ok none) :
    unreachableWarnings t = .ok [] := by
  unfold unreachableWarnings
  rw [none]

theorem unreachableWarnings_ok (named : t.Named) :
    ∃ issues, unreachableWarnings t = .ok issues := by
  rcases named.lookup_cases named.start with ⟨n, hn, hs, -⟩ | ⟨hl, -⟩
  · exact ⟨_, unreachableWarnings_named named hn hs⟩
  · exact ⟨_, unreachableWarnings_absent hl⟩

theorem startErrors_named (named : t.Named) : ∃ issues, startErrors t = .ok issues ∧
    ∀ i ∈ issues, i.message = "Tree has no nodes" ∨
      i.message = "Start node '" ++ t.start.plain ++ "' does not exist" := by
  unfold startErrors
  split_ifs
  · exact ⟨_, rfl, by simp⟩
  · rcases named.lookup_cases named.start with ⟨n, -, -, hl⟩ | ⟨hl, -⟩
    · exact ⟨[], by rw [hl], nofun⟩
    · exact ⟨_, by rw [hl], by simp⟩

end Validation

/-! ## Messages -/

/-- The first character of the message of an issue, which tells the checks apart. -/
def Issue.initial (i : Issue) : Option Char := i.message.toList.head?

namespace Validation

variable {t : Tree}

omit [Text.Halves] in
theorem head?_append {a : String} {c : Char} (h : a.toList.head? = some c) (b : String) :
    (a ++ b).toList.head? = some c := by
  rw [String.toList_append, List.head?_append, h]
  rfl

omit [Text.Halves] in
theorem initial_cycleError (ids : List String) : (cycleError ids).initial = some 'A' :=
  head?_append (by decide) _

theorem initial_danglingWarning (n : Node) (target : Datum) (place : Option ℕ) :
    (danglingWarning n target place).initial = some 'n' ∨
      (danglingWarning n target place).initial = some 'C' := by
  cases place with
  | none => exact .inl (head?_append (head?_append (by decide) _) _)
  | some i => exact .inr (head?_append (head?_append (by decide) _) _)

omit [Text.Halves] in
theorem initial_unreachableWarning (id : String) : (unreachableWarning id).initial = some 'N' :=
  head?_append (head?_append (by decide) _) _

theorem initial_unsetWarnings {read : List (String × String)} {set : List String} {i : Issue}
    (hi : i ∈ unsetWarnings read set) : i.initial = some 'F' := by
  obtain ⟨e, -, rfl⟩ := List.mem_map.1 hi
  exact head?_append (head?_append (by decide) _) _

theorem initial_startErrors {issues : List Issue} (h : startErrors t = .ok issues) {i : Issue}
    (hi : i ∈ issues) : i.initial = some 'T' ∨ i.initial = some 'S' := by
  unfold startErrors at h
  split_ifs at h
  · cases h
    obtain rfl := List.mem_singleton.1 hi
    exact .inl (by decide)
  · split at h
    · cases h
    · cases h
      exact absurd hi List.not_mem_nil
    · cases h
      obtain rfl := List.mem_singleton.1 hi
      exact .inr (head?_append (head?_append (by decide) _) _)

theorem initial_conditionErrors {node : String} {place : Option ℕ} {cs : List Condition}
    {i : Issue} (hi : i ∈ conditionErrors node place cs) : i.initial = some 'M' := by
  obtain ⟨c, -, hc⟩ := List.mem_filterMap.1 hi
  split at hc
  · cases hc
    exact head?_append (head?_append (head?_append (by decide) _) _) _
  · cases hc

theorem initial_effectErrors {node : String} {place : Option ℕ} {es : List Effect}
    {i : Issue} (hi : i ∈ effectErrors node place es) : i.initial = some 'M' := by
  obtain ⟨c, -, hc⟩ := List.mem_filterMap.1 hi
  split at hc
  · cases hc
    exact head?_append (head?_append (head?_append (by decide) _) _) _
  · cases hc

theorem initial_nodeErrors {n : Node} {i : Issue} (hi : i ∈ nodeErrors n) :
    i.initial = some 'M' := by
  unfold nodeErrors at hi
  simp only [List.mem_append, List.mem_flatMap] at hi
  rcases hi with (hi | hi) | ⟨_, -, hi | hi⟩
  · exact initial_conditionErrors hi
  · exact initial_effectErrors hi
  · exact initial_conditionErrors hi
  · exact initial_effectErrors hi

end Validation

/-! ## Reports -/

/-- All checks on a tree with names come to an end. -/
theorem Tree.Named.validate_eq {t : Tree} (named : t.Named) :
    ∃ start references cycles unreachable, startErrors t = .ok start ∧
      referenceWarnings t t.nodes = .ok references ∧ cycleErrors t [] t.nodes = .ok cycles ∧
      unreachableWarnings t = .ok unreachable ∧ ∃ report, t.validate = .ok report ∧
        report.errors = start ++ t.nodes.flatMap nodeErrors ++ cycles ∧
        report.warnings = references ++ unreachable ++
          unsetWarnings (flagsRead t.nodes) (flagsSet t.nodes) := by
  obtain ⟨start, hs, -⟩ := startErrors_named named
  obtain ⟨references, hr, -⟩ := referenceWarnings_named named t.nodes fun _ h => h
  obtain ⟨cycles, hc, -⟩ := cycleErrors_named named t.nodes [] fun _ h => h
  obtain ⟨unreachable, hu⟩ := unreachableWarnings_ok named
  have hv : t.validate = .ok {
      errors := start ++ t.nodes.flatMap nodeErrors ++ cycles.map cycleError
      warnings := references ++ unreachable ++
        unsetWarnings (flagsRead t.nodes) (flagsSet t.nodes)
      flagsSet := flagsSet t.nodes, flagsRead := flagsRead t.nodes } := by
    rw [validate, hs, hr, hc, hu]
    rfl
  exact ⟨start, references, _, unreachable, hs, hr, hc, hu, _, hv, rfl, rfl⟩

/-- The errors of cycles in a report are those of the cycles that the check has found. -/
theorem Tree.Named.validate_cycleErrors {t : Tree} (named : t.Named) :
    ∃ report, ∃ cycles : List (List String), t.validate = .ok report ∧
      cycleErrors t [] t.nodes = .ok (cycles.map cycleError) ∧ (∀ ids ∈ cycles, t.IsCycle ids) ∧
        ∀ ids, cycleError ids ∈ report.errors ↔ cycleError ids ∈ cycles.map cycleError := by
  obtain ⟨cycles, hc, hcycles⟩ := cycleErrors_named named t.nodes [] fun _ h => h
  obtain ⟨start, _, _, _, hs, -, hc', -, report, hv, he, -⟩ := named.validate_eq
  obtain rfl := Except.ok.inj (hc.symm.trans hc')
  refine ⟨report, cycles, hv, hc, hcycles, fun ids => ?_⟩
  have ha := initial_cycleError ids
  rw [he, List.mem_append, List.mem_append]
  refine ⟨?_, .inr⟩
  rintro ((hi | hi) | hi)
  · have hi := initial_startErrors hs hi
    rw [ha] at hi
    simp at hi
  · obtain ⟨n, -, hi⟩ := List.mem_flatMap.1 hi
    have hi := initial_nodeErrors hi
    rw [ha] at hi
    simp at hi
  · exact hi

end Colloquy
