import Colloquy.Proofs.Arrival
import Colloquy.Proofs.Checks
import Mathlib.Data.List.Nodup
import Mathlib.Data.List.Sigma

/-!
# What a report leaves out

Nothing that is wrong with a tree is left out of its report, and nothing is in it twice. A script
that cannot be read is a flaw of one node at one place (`Node.HasFlaw`), and each of them has its
error (`Validation.nodeErrors_eq`, `Node.mem_flaws`). A node that advances leads to one id only, so
a chain that comes to a cycle from outside never leaves it, and two cycles with a node in common are
one (`Tree.IsCycle.same`). What the search for cycles has reported so far is made up of whole cycles
(`Validation.Whole`); it adds one that is apart from them or comes back to one of them, and no cycle
that a node is on is passed over (`Validation.cycleErrors_listed`). Neither search ends because it
has run out of steps (`Validation.follow_more`, `Validation.reachable_more`).
-/

namespace Colloquy

/-- Lists without repetitions are joined to one if what is in each of them tells where it is from. -/
theorem List.nodup_flatMap_of_key {α β γ : Type} {l : List α} {f : α → List β} (key : α → γ)
    (tag : β → γ) (distinct : (l.map key).Nodup) (nodup : ∀ a ∈ l, (f a).Nodup)
    (tagged : ∀ a ∈ l, ∀ b ∈ f a, tag b = key a) : (l.flatMap f).Nodup := by
  refine List.nodup_flatMap.2 ⟨nodup, ?_⟩
  refine (List.pairwise_map.1 distinct).imp_of_mem fun {a a'} ha ha' hne b hb hb' => ?_
  exact hne ((tagged a ha b hb).symm.trans (tagged a' ha' b hb'))

/-! ## Scripts that cannot be read -/

section flaws

def Condition.flaw? : Condition → Option (Datum × String)
  | .malformed source reason => some (source, reason)
  | _ => none

theorem Condition.flaw?_eq_some {c : Condition} {source : Datum} {reason : String} :
    c.flaw? = some (source, reason) ↔ c = .malformed source reason := by
  cases c <;> simp [flaw?]

def Effect.flaw? : Effect → Option (Datum × String)
  | .malformed source reason => some (source, reason)
  | _ => none

theorem Effect.flaw?_eq_some {e : Effect} {source : Datum} {reason : String} :
    e.flaw? = some (source, reason) ↔ e = .malformed source reason := by
  cases e <;> simp [flaw?]

inductive ScriptKind where
  | condition
  | effect
deriving DecidableEq

def ScriptKind.lead : ScriptKind → String
  | .condition => "Malformed condition "
  | .effect => "Malformed effect "

def ScriptKind.suggestion : ScriptKind → String
  | .condition => "Use flag.<name>, context.<path>, or a comparison like context.gold>=10"
  | .effect => "Use set_flag.<name>, unset_flag.<name>, or context.<path>=<value>"

/-- A script that cannot be read, with its place among those of a node or of one of its choices. -/
structure Flaw where
  node : String
  choice : Option ℕ
  kind : ScriptKind
  index : ℕ
  source : Datum
  reason : String

namespace Flaw

/-- The flaws among scripts of one kind at one place. -/
def among (node : String) (choice : Option ℕ) (kind : ScriptKind)
    (flaws : List (Option (Datum × String))) : List Flaw :=
  flaws.zipIdx.filterMap fun (flaw, i) =>
    flaw.map fun (source, reason) => ⟨node, choice, kind, i, source, reason⟩

variable {node : String} {choice : Option ℕ} {kind : ScriptKind}
  {flaws : List (Option (Datum × String))} {f : Flaw}

theorem mem_among : f ∈ among node choice kind flaws ↔ f.node = node ∧ f.choice = choice ∧
    f.kind = kind ∧ flaws[f.index]? = some (some (f.source, f.reason)) := by
  rw [among, List.mem_filterMap]
  constructor
  · rintro ⟨⟨flaw, i⟩, hm, hf⟩
    obtain ⟨⟨source, reason⟩, rfl, rfl⟩ := Option.map_eq_some_iff.1 hf
    exact ⟨rfl, rfl, rfl, List.mem_zipIdx_iff_getElem?.1 hm⟩
  · rintro ⟨rfl, rfl, rfl, hm⟩
    exact ⟨(some (f.source, f.reason), f.index), List.mem_zipIdx_iff_getElem?.2 hm, rfl⟩

theorem among_nodup : (among node choice kind flaws).Nodup := by
  refine List.Nodup.filterMap ?_ (List.Nodup.of_map _ (List.nodup_zipIdx_map_snd flaws))
  rintro ⟨a, i⟩ ⟨b, j⟩ f ha hb
  obtain ⟨⟨s, r⟩, rfl, rfl⟩ := Option.map_eq_some_iff.1 ha
  obtain ⟨⟨s', r'⟩, rfl, he⟩ := Option.map_eq_some_iff.1 hb
  cases he
  rfl

variable [Text.Halves]

def issue (f : Flaw) : Issue where
  message := f.kind.lead ++ f.source.shown ++ ": " ++ f.reason
  node := some f.node
  choice := f.choice
  suggestion := some f.kind.suggestion

/-- An error tells nothing about the index of its script. -/
theorem map_issue_among : (among node choice kind flaws).map issue =
    flaws.filterMap (Option.map fun (source, reason) =>
      issue ⟨node, choice, kind, 0, source, reason⟩) := by
  conv_rhs => rw [← List.zipIdx_map_fst 0 flaws, List.filterMap_map]
  rw [among, List.map_filterMap]
  refine List.filterMap_congr fun (flaw, i) _ => ?_
  cases flaw <;> rfl

end Flaw

variable [Text.Halves]

/-- Whether a script at the index of a flaw was read as malformed, with its source and reason. -/
def Flaw.IsAmong (f : Flaw) (cs : List Condition) (es : List Effect) : Prop :=
  match f.kind with
  | .condition => cs[f.index]? = some (.malformed f.source f.reason)
  | .effect => es[f.index]? = some (.malformed f.source f.reason)

/-- The flaws of a node are among its own scripts or among those of one of its choices. -/
def Node.HasFlaw (n : Node) (f : Flaw) : Prop :=
  f.node = n.name ∧ match f.choice with
    | none => f.IsAmong n.conditions n.effects
    | some k => ∃ c, n.choices[k]? = some c ∧ f.IsAmong c.conditions c.effects

/-- The flaws of a node in the order of its scripts. -/
def Node.flaws (n : Node) : List Flaw :=
  at_ none n.conditions n.effects ++
    n.choices.zipIdx.flatMap fun (c, i) => at_ (some i) c.conditions c.effects
where
  at_ (place : Option ℕ) (cs : List Condition) (es : List Effect) : List Flaw :=
    Flaw.among n.name place .condition (cs.map (·.flaw?)) ++
      Flaw.among n.name place .effect (es.map (·.flaw?))

namespace Validation

theorem conditionErrors_eq (node : String) (place : Option ℕ) (cs : List Condition) :
    conditionErrors node place cs =
      (Flaw.among node place .condition (cs.map (·.flaw?))).map Flaw.issue := by
  rw [Flaw.map_issue_among, List.filterMap_map, conditionErrors]
  refine List.filterMap_congr fun c _ => ?_
  cases c <;> rfl

theorem effectErrors_eq (node : String) (place : Option ℕ) (es : List Effect) :
    effectErrors node place es =
      (Flaw.among node place .effect (es.map (·.flaw?))).map Flaw.issue := by
  rw [Flaw.map_issue_among, List.filterMap_map, effectErrors]
  refine List.filterMap_congr fun e _ => ?_
  cases e <;> rfl

theorem nodeErrors_eq (n : Node) : nodeErrors n = n.flaws.map Flaw.issue := by
  simp only [nodeErrors, Node.flaws, Node.flaws.at_, conditionErrors_eq, effectErrors_eq,
    List.map_append, List.map_flatMap]

end Validation

namespace Node

theorem mem_flaws_at {n : Node} {place : Option ℕ} {cs : List Condition} {es : List Effect}
    {f : Flaw} : f ∈ flaws.at_ n place cs es ↔
      f.node = n.name ∧ f.choice = place ∧ f.IsAmong cs es := by
  rw [flaws.at_, List.mem_append, Flaw.mem_among, Flaw.mem_among, Flaw.IsAmong]
  simp only [List.getElem?_map, Option.map_eq_some_iff, Condition.flaw?_eq_some,
    Effect.flaw?_eq_some, exists_eq_right]
  cases f.kind <;> simp

theorem mem_flaws {n : Node} {f : Flaw} : f ∈ n.flaws ↔ n.HasFlaw f := by
  rw [flaws, List.mem_append, List.mem_flatMap, mem_flaws_at, HasFlaw]
  constructor
  · rintro (⟨hn, hp, own⟩ | ⟨⟨c, k⟩, hc, h⟩)
    · rw [hp]
      exact ⟨hn, own⟩
    · obtain ⟨hn, hp, at_⟩ := mem_flaws_at.1 h
      rw [hp]
      exact ⟨hn, c, List.mem_zipIdx_iff_getElem?.1 hc, at_⟩
  · rintro ⟨hn, h⟩
    rcases hp : f.choice with _ | k
    · rw [hp] at h
      exact .inl ⟨hn, rfl, h⟩
    · rw [hp] at h
      obtain ⟨c, hc, at_⟩ := h
      exact .inr ⟨(c, k), List.mem_zipIdx_iff_getElem?.2 hc, mem_flaws_at.2 ⟨hn, hp, at_⟩⟩

theorem flaws_at_nodup (n : Node) (place : Option ℕ) (cs : List Condition) (es : List Effect) :
    (flaws.at_ n place cs es).Nodup := by
  refine Flaw.among_nodup.append Flaw.among_nodup fun f hc he => ?_
  have hk := (Flaw.mem_among.1 hc).2.2.1
  rw [(Flaw.mem_among.1 he).2.2.1] at hk
  cases hk

theorem flaws_nodup (n : Node) : n.flaws.Nodup := by
  refine (flaws_at_nodup n none _ _).append ?_ fun f own hf => ?_
  · refine List.nodup_flatMap_of_key Prod.snd (fun f : Flaw => f.choice.getD 0)
      (List.nodup_zipIdx_map_snd _) (fun c _ => flaws_at_nodup n _ _ _) fun c _ f hf => ?_
    rw [(mem_flaws_at.1 hf).2.1]
    rfl
  · obtain ⟨c, -, hf⟩ := List.mem_flatMap.1 hf
    have hp := (mem_flaws_at.1 own).2.1
    rw [(mem_flaws_at.1 hf).2.1] at hp
    cases hp

end Node

end flaws

/-! ## Cycles -/

section cycles
variable [Text.Halves] {t : Tree}

open Validation

namespace Tree

theorem Named.leads_unique (named : t.Named) {a b c : String} (hb : t.Leads a b)
    (hc : t.Leads a c) : b = c := by
  obtain ⟨n, hn, rfl, -, hb⟩ := hb
  obtain ⟨m, hm, hname, -, hc⟩ := hc
  obtain rfl := List.inj_on_of_nodup_map named.distinct hm hn hname
  exact Scalar.text.inj (Datum.scalar.inj (hb.symm.trans hc))

/-- Where an id is led back to itself, every id that it leads to is led back to it. -/
theorem Named.leads_back (named : t.Named) {a b : String} (round : Relation.TransGen t.Leads a a)
    (there : Relation.ReflTransGen t.Leads a b) : Relation.TransGen t.Leads b a := by
  induction there with
  | refl => exact round
  | tail _ next ih =>
    -- there is one way on from here, and it is the way back
    obtain ⟨c, hc, back⟩ := Relation.TransGen.head'_iff.1 ih
    obtain rfl := named.leads_unique next hc
    exact Relation.TransGen.trans_right back round

namespace IsCycle

variable {ids ids' : List String} {a b : String}

theorem exists_mem (h : t.IsCycle ids) : ∃ a, a ∈ ids := by
  obtain ⟨a, rest, rfl, -⟩ := h
  exact ⟨a, List.mem_cons_self⟩

/-- There is no way out of a cycle. -/
theorem closed (named : t.Named) (h : t.IsCycle ids) (ha : a ∈ ids)
    (there : Relation.ReflTransGen t.Leads a b) : b ∈ ids := by
  induction there with
  | refl => exact ha
  | tail _ next ih =>
    obtain ⟨c, hc, hl⟩ := h.leads _ ih
    exact named.leads_unique hl next ▸ hc

theorem around (h : t.IsCycle ids) (ha : a ∈ ids) (hb : b ∈ ids) :
    Relation.ReflTransGen t.Leads a b := by
  obtain ⟨id, rest, rfl, -, chain⟩ := h
  have out : ∀ b ∈ id :: (rest ++ [id]), Relation.ReflTransGen t.Leads id b :=
    chain.induction _ _ (fun _ _ next there => there.tail next) fun _ => .refl
  have home : ∀ a ∈ id :: (rest ++ [id]), Relation.ReflTransGen t.Leads a id :=
    chain.backwards_cons_induction _ _ (by simp) (fun _ _ next back => back.head next) .refl
  exact (home a ha).trans (out b hb)

theorem round (h : t.IsCycle ids) (ha : a ∈ ids) : Relation.TransGen t.Leads a a := by
  obtain ⟨b, hb, next⟩ := h.leads a ha
  exact Relation.TransGen.head' next (h.around hb ha)

/-- Two cycles with an id in common have all of them in common. -/
theorem same (named : t.Named) (h : t.IsCycle ids) (h' : t.IsCycle ids') (ha : a ∈ ids)
    (ha' : a ∈ ids') : ∀ id, id ∈ ids ↔ id ∈ ids' := fun _ =>
  ⟨fun hid => h'.closed named ha' (h.around ha hid), fun hid =>
    h.closed named ha (h'.around ha' hid)⟩

end IsCycle

end Tree

namespace Validation

/-- The cycle that a chain comes back to is reached from where the chain begins. -/
theorem follow_reached (named : t.Named) {root : String} : ∀ {fuel : ℕ} {chain : List String}
    {n : Node} {cycle : List String}, n ∈ t.nodes → n.name ∈ chain →
      (∀ a ∈ chain, Relation.ReflTransGen t.Leads root a) →
        follow t fuel chain n = .ok (.loops cycle) →
          ∀ a ∈ cycle, Relation.ReflTransGen t.Leads root a
  | 0, _, _, _, _, _, _, h => by cases h
  | fuel + 1, chain, n, cycle, hn, last, reached, h => by
    unfold follow at h
    by_cases ha : n.advances
    swap
    · rw [if_neg ha] at h
      cases h
    obtain ⟨id, hid⟩ := advances_next ha (named.next n hn)
    have hid' : Relation.ReflTransGen t.Leads root id :=
      (reached n.name last).tail ⟨n, hn, rfl, ha, hid⟩
    have grown : ∀ a ∈ chain ++ [id], Relation.ReflTransGen t.Leads root a := fun a hm =>
      (List.mem_append.1 hm).elim (reached a) fun hm => List.mem_singleton.1 hm ▸ hid'
    simp only [if_pos ha, hid, Datum.text?] at h
    split_ifs at h
    · cases h
      refine fun a hm => grown a ((List.mem_append.1 hm).elim (fun hm => ?_) fun hm => ?_)
      · exact List.mem_append_left _ ((List.dropWhile_suffix _).subset hm)
      · exact List.mem_append_right _ hm
    · rcases hf : t.find? (.text id) with _ | m
      · rw [hf] at h
        cases h
      · rw [hf] at h
        obtain ⟨hm, rfl⟩ := named.find?_text.1 hf
        exact follow_reached named hm (List.mem_append_right _ (List.mem_singleton_self _)) grown h

/-- From a node that is led back to itself, its own cycle is found. -/
theorem follow_round (named : t.Named) {n : Node} (hn : n ∈ t.nodes)
    (round : Relation.TransGen t.Leads n.name n.name) :
    ∃ cycle, follow t (t.nodes.length + 1) [n.name] n = .ok (.loops cycle) ∧
      t.IsCycle cycle ∧ n.name ∈ cycle := by
  obtain ⟨e, he, found⟩ := follow_named named (t.nodes.length + 1) [n.name] n hn rfl
    (List.nodup_singleton _) (List.isChain_singleton _)
  cases e with
  | stops =>
    -- a chain that stops cannot be the one that comes back
    obtain ⟨b, next, back⟩ := Relation.TransGen.head'_iff.1 round
    obtain ⟨rest, chain, last⟩ := List.exists_isChain_cons_of_relationReflTransGen back
    have distinct := follow_stops named (b :: rest) hn he (chain.cons_cons next)
      (List.nodup_singleton _) (by simpa using ⟨n, hn, rfl⟩)
      (by rw [List.length_singleton]; omega)
    have again : n.name ∈ b :: rest := last ▸ List.getLast_mem _
    exact absurd again (List.nodup_cons.1 distinct).1
  | loops cycle =>
    have isCycle := found cycle rfl
    obtain ⟨id, hid⟩ := isCycle.exists_mem
    have self : ∀ a ∈ [n.name], Relation.ReflTransGen t.Leads n.name a :=
      List.forall_mem_singleton.2 .refl
    have reached := follow_reached named hn List.mem_cons_self self he id hid
    exact ⟨cycle, he, isCycle,
      isCycle.closed named hid (named.leads_back round reached).to_reflTransGen⟩

/-- Ids that are those of whole cycles. -/
def Whole (t : Tree) (reported : List String) : Prop :=
  ∀ id ∈ reported, ∃ ids, t.IsCycle ids ∧ id ∈ ids ∧ ids ⊆ reported

theorem Whole.append {reported cycle : List String} (whole : Whole t reported)
    (isCycle : t.IsCycle cycle) : Whole t (reported ++ cycle) := by
  intro id hid
  rcases List.mem_append.1 hid with hid | hid
  · obtain ⟨ids, hids, hm, hsub⟩ := whole id hid
    exact ⟨ids, hids, hm, List.subset_append_of_subset_left _ hsub⟩
  · exact ⟨cycle, isCycle, hid, List.subset_append_right _ _⟩

/-- A cycle that has one of the ids has no others. -/
theorem Whole.subset (named : t.Named) {reported ids : List String} (whole : Whole t reported)
    (isCycle : t.IsCycle ids) {id : String} (hid : id ∈ ids) (hr : id ∈ reported) :
    ids ⊆ reported := by
  obtain ⟨ids', hids', hm, hsub⟩ := whole id hr
  exact fun a ha => hsub ((isCycle.same named hids' hid hm a).1 ha)

/-- What the search lists for some nodes, with some ids reported before: cycles, apart from each
other and from those, and every cycle that one of the nodes is on, unless it was reported. -/
structure Listed (t : Tree) (reported : List String) (ns : List Node)
    (cycles : List (List String)) : Prop where
  isCycle : ∀ ids ∈ cycles, t.IsCycle ids
  fresh : ∀ ids ∈ cycles, ids.Disjoint reported
  apart : cycles.Pairwise List.Disjoint
  complete : ∀ n ∈ ns, ∀ ids, t.IsCycle ids → n.name ∈ ids →
    ids ⊆ reported ∨ ∃ found ∈ cycles, ∀ id, id ∈ found ↔ id ∈ ids

namespace Listed

variable {reported cycle : List String} {n : Node} {ns : List Node} {cycles : List (List String)}

/-- A node is passed over if all cycles that it is on were reported. -/
theorem skip (h : Listed t reported ns cycles)
    (known : ∀ ids, t.IsCycle ids → n.name ∈ ids → ids ⊆ reported) :
    Listed t reported (n :: ns) cycles :=
  ⟨h.isCycle, h.fresh, h.apart, List.forall_mem_cons.2
    ⟨fun ids hids hn => .inl (known ids hids hn), h.complete⟩⟩

/-- Reporting a cycle again changes nothing. -/
theorem again (h : Listed t (reported ++ cycle) ns cycles) (known : cycle ⊆ reported) :
    Listed t reported ns cycles := by
  have hsub : reported ++ cycle ⊆ reported := List.append_subset.2 ⟨List.Subset.refl _, known⟩
  refine ⟨h.isCycle, fun ids hids => ?_, h.apart, fun n hn ids hids hm => ?_⟩
  · exact List.disjoint_of_subset_right (List.subset_append_left _ _) (h.fresh ids hids)
  · exact (h.complete n hn ids hids hm).imp_left fun hr => List.Subset.trans hr hsub

/-- A cycle that is apart from those reported is added to the list. -/
theorem add (named : t.Named) (h : Listed t (reported ++ cycle) ns cycles)
    (whole : Whole t reported) (isCycle : t.IsCycle cycle) (apart : cycle.Disjoint reported)
    (own : ∀ ids, t.IsCycle ids → n.name ∈ ids → n.name ∈ cycle) :
    Listed t reported (n :: ns) (cycle :: cycles) := by
  refine ⟨List.forall_mem_cons.2 ⟨isCycle, h.isCycle⟩,
    List.forall_mem_cons.2 ⟨apart, fun ids hids => ?_⟩, List.pairwise_cons.2 ⟨fun ids hids => ?_,
      h.apart⟩, List.forall_mem_cons.2 ⟨fun ids hids hn => ?_, fun m hm ids hids hn => ?_⟩⟩
  · exact List.disjoint_of_subset_right (List.subset_append_left _ _) (h.fresh ids hids)
  · exact (List.disjoint_of_subset_right (List.subset_append_right _ _) (h.fresh ids hids)).symm
  · exact .inr ⟨cycle, List.mem_cons_self, isCycle.same named hids (own ids hids hn) hn⟩
  · rcases h.complete m hm ids hids hn with hr | ⟨found, hf, same⟩
    · -- one of the ids was reported before, or is on the cycle that is added
      rcases List.mem_append.1 (hr hn) with hr | hr
      · exact .inl (whole.subset named hids hn hr)
      · exact .inr ⟨cycle, List.mem_cons_self, isCycle.same named hids hr hn⟩
    · exact .inr ⟨found, List.mem_cons_of_mem _ hf, same⟩

end Listed

/-- At a node the search goes on to the next one, and then every cycle that the node is on was
reported, or it comes to a cycle, which is the node's own one if the node is on any. -/
theorem cycleErrors_cons (named : t.Named) {n : Node} (hn : n ∈ t.nodes) {reported : List String}
    (whole : Whole t reported) :
    ((∀ ns, cycleErrors t reported (n :: ns) = cycleErrors t reported ns) ∧
        ∀ ids, t.IsCycle ids → n.name ∈ ids → ids ⊆ reported) ∨
      ∃ cycle, t.IsCycle cycle ∧ (∀ ids, t.IsCycle ids → n.name ∈ ids → n.name ∈ cycle) ∧
        ∀ ns, cycleErrors t reported (n :: ns) = (cycleErrors t (reported ++ cycle) ns).map
          fun rest => if cycle.any (· ∈ reported) then rest else cycleError cycle :: rest := by
  by_cases pass : (!n.autoAdvance.isTrue || decide (n.name ∈ reported)) = true
  · refine .inl ⟨fun ns => by rw [cycleErrors, if_pos pass], fun ids hids hm => ?_⟩
    rw [Bool.or_eq_true, Bool.not_eq_true', decide_eq_true_eq] at pass
    rcases pass with still | hr
    · -- a node that does not advance is on no cycle
      obtain ⟨b, -, m, hm', hname, advances, -⟩ := hids.leads _ hm
      obtain rfl := List.inj_on_of_nodup_map named.distinct hm' hn hname
      rw [Node.advances, still] at advances
      cases advances
    · exact whole.subset named hids hm hr
  obtain ⟨e, he, found⟩ := follow_named named (t.nodes.length + 1) [n.name] n hn rfl
    (List.nodup_singleton _) (List.isChain_singleton _)
  have own : ∀ ids, t.IsCycle ids → n.name ∈ ids → ∃ cycle, e = .loops cycle ∧ n.name ∈ cycle := by
    intro ids hids hm
    obtain ⟨cycle, hf, -, hc⟩ := follow_round named hn (hids.round hm)
    exact ⟨cycle, Except.ok.inj (he.symm.trans hf), hc⟩
  cases e with
  | stops =>
    refine .inl ⟨fun ns => by rw [cycleErrors, if_neg pass, he], fun ids hids hm => ?_⟩
    obtain ⟨_, hloops, -⟩ := own ids hids hm
    cases hloops
  | loops cycle =>
    refine .inr ⟨cycle, found cycle rfl, fun ids hids hm => ?_, fun ns => ?_⟩
    · obtain ⟨_, hloops, hc⟩ := own ids hids hm
      cases hloops
      exact hc
    · rw [cycleErrors, if_neg pass, he]
      dsimp only
      cases cycleErrors t (reported ++ cycle) ns <;> rfl

/-- The search lists every cycle once. -/
theorem cycleErrors_listed (named : t.Named) {ns : List Node} {reported : List String}
    (hns : ∀ n ∈ ns, n ∈ t.nodes) (whole : Whole t reported) :
    ∃ cycles, cycleErrors t reported ns = .ok (cycles.map cycleError) ∧
      Listed t reported ns cycles := by
  induction ns generalizing reported with
  | nil =>
    exact ⟨[], rfl, List.forall_mem_nil _, List.forall_mem_nil _, .nil, List.forall_mem_nil _⟩
  | cons n ns ih =>
    rw [List.forall_mem_cons] at hns
    rcases cycleErrors_cons named hns.1 whole with ⟨heq, known⟩ | ⟨cycle, isCycle, own, heq⟩
    · obtain ⟨cycles, hc, listed⟩ := ih hns.2 whole
      exact ⟨cycles, (heq ns).trans hc, listed.skip known⟩
    obtain ⟨cycles, hc, listed⟩ := ih hns.2 (whole.append isCycle)
    rw [heq, hc]
    by_cases seen : cycle.any (· ∈ reported) = true
    · obtain ⟨id, hid, hr⟩ := List.any_eq_true.1 seen
      have known := whole.subset named isCycle hid (of_decide_eq_true hr)
      exact ⟨cycles, congrArg Except.ok (if_pos seen), (listed.again known).skip
        fun ids hids hm => whole.subset named hids hm (known (own ids hids hm))⟩
    · have apart : cycle.Disjoint reported := fun id hid hr =>
        seen (List.any_eq_true.2 ⟨id, hid, decide_eq_true hr⟩)
      exact ⟨cycle :: cycles, congrArg Except.ok (if_neg seen),
        listed.add named whole isCycle apart own⟩

end Validation

/-- An id that is led back to itself is on a cycle. -/
theorem Tree.Named.exists_isCycle (named : t.Named) {id : String}
    (round : Relation.TransGen t.Leads id id) : ∃ ids, t.IsCycle ids ∧ id ∈ ids := by
  obtain ⟨_, ⟨n, hn, rfl, -⟩, -⟩ := Relation.TransGen.head'_iff.1 round
  obtain ⟨cycle, -, isCycle, hm⟩ := follow_round named hn round
  exact ⟨cycle, isCycle, hm⟩

end cycles

/-! ## Enough steps -/

section steps
variable [Text.Halves] {t : Tree}

namespace Validation

/-- A chain that may take a step for each node that is not on it takes no more. -/
theorem follow_more (named : t.Named) (more : ℕ) : ∀ {fuel : ℕ} {chain : List String} {n : Node},
    chain.Nodup → chain ⊆ t.nodes.map (·.name) → t.nodes.length < fuel + chain.length →
      follow t (fuel + more) chain n = follow t fuel chain n
  | 0, chain, n, distinct, names, enough => by
    have hle := (List.subperm_of_subset distinct names).length_le
    rw [List.length_map] at hle
    omega
  | fuel + 1, chain, n, distinct, names, enough => by
    rw [Nat.add_right_comm, follow, follow]
    split_ifs
    swap
    · rfl
    cases n.next.text? with
    | none => rfl
    | some id =>
      dsimp only
      split_ifs with hid
      · rfl
      cases hf : t.find? (.text id) with
      | none => rfl
      | some m =>
        obtain ⟨hm, rfl⟩ := named.find?_text.1 hf
        refine follow_more named more (nodup_concat distinct hid) ?_ ?_
        · exact List.append_subset.2 ⟨names, by simpa using ⟨m, hm, rfl⟩⟩
        · rw [List.length_append, List.length_singleton]
          omega

/-- A search that may take a step for each node before it or not found yet takes no more. -/
theorem reachable_more (named : t.Named) (more : ℕ) : ∀ {fuel : ℕ} {queue seen : List String},
    Searching t queue seen → queue.length + t.nodes.length ≤ fuel + seen.length →
      reachable t (fuel + more) queue seen = reachable t fuel queue seen
  | 0, queue, seen, h, enough => by
    have hle := h.length_le
    obtain rfl : queue = [] := List.eq_nil_of_length_eq_zero (by omega)
    cases more <;> simp [reachable]
  | fuel + 1, [], seen, _, _ => by
    rw [Nat.add_right_comm, reachable, reachable]
  | fuel + 1, id :: queue, seen, h, enough => by
    obtain ⟨n, hreach, rfl⟩ := h.reached id (h.sub List.mem_cons_self)
    obtain ⟨found, hf, hs⟩ := h.next named hreach.mem
    have hfind : t.find? (.text n.name) = some n := named.find?_text.2 ⟨hreach.mem, rfl⟩
    rw [Nat.add_right_comm, reachable, reachable, hfind]
    dsimp only
    rw [hf]
    refine reachable_more named more hs ?_
    simp only [List.length_append, List.length_cons] at enough ⊢
    omega

end Validation

end steps

/-! ## The verdict -/

section verdict
variable [Text.Halves] {t : Tree}

open Validation

namespace Validation

theorem startErrors_iff (named : t.Named) : ∃ issues, startErrors t = .ok issues ∧
    issues.length ≤ 1 ∧ (issues = [] ↔ ∃ n ∈ t.nodes, t.start = .text n.name) := by
  unfold startErrors
  split_ifs with none
  · rw [List.isEmpty_iff] at none
    exact ⟨_, rfl, le_rfl, by simp [none]⟩
  · rcases named.lookup_cases named.start with ⟨n, hn, hs, hl⟩ | ⟨hl, hno⟩
    · exact ⟨[], by rw [hl], Nat.zero_le _, by simpa using ⟨n, hn, hs⟩⟩
    · exact ⟨_, by rw [hl], le_rfl, by simpa using hno⟩

end Validation

/-- What there is to be found in a tree: its flaws and its cycles, each of them once. -/
structure Tree.Findings (t : Tree) where
  flaws : List Flaw
  cycles : List (List String)
  flaws_nodup : flaws.Nodup
  mem_flaws : ∀ f, f ∈ flaws ↔ ∃ n ∈ t.nodes, n.HasFlaw f
  isCycle : ∀ ids ∈ cycles, t.IsCycle ids
  apart : cycles.Pairwise List.Disjoint
  complete : ∀ ids, t.IsCycle ids → ∃ found ∈ cycles, ∀ id, id ∈ found ↔ id ∈ ids

namespace Tree

theorem flaws_nodup (named : t.Named) : (t.nodes.flatMap (·.flaws)).Nodup :=
  List.nodup_flatMap_of_key Node.name Flaw.node named.distinct
    (fun n _ => n.flaws_nodup) fun _ _ _ hf => (Node.mem_flaws.1 hf).1

theorem mem_flaws {f : Flaw} : f ∈ t.nodes.flatMap (·.flaws) ↔ ∃ n ∈ t.nodes, n.HasFlaw f := by
  simp only [List.mem_flatMap, Node.mem_flaws]

theorem Findings.cycles_eq_nil (named : t.Named) (found : t.Findings) :
    found.cycles = [] ↔ ∀ id, ¬ Relation.TransGen t.Leads id id := by
  rw [List.eq_nil_iff_forall_not_mem]
  constructor
  · intro none id round
    obtain ⟨ids, isCycle, -⟩ := named.exists_isCycle round
    obtain ⟨ids', hids, -⟩ := found.complete ids isCycle
    exact none ids' hids
  · intro none ids hids
    obtain ⟨a, ha⟩ := (found.isCycle ids hids).exists_mem
    exact none a ((found.isCycle ids hids).round ha)

end Tree

end verdict

namespace Tree

attribute [local instance] Text.noHalves

/-- A file with a tail that leads into a cycle of two nodes, a node that leads to itself, and a
condition that cannot be read. -/
def crypt : Datum :=
  let node (next : String) (conditions : List Datum) : Datum :=
    .object [("autoAdvance", .bool true), ("nextNode", .text next),
      ("conditions", .list conditions)]
  .object [("nodes", .object [("start", node "well" [.text "flag.rope=="]),
    ("well", node "stair" []), ("stair", node "well" []), ("bell", node "bell" [])])]

/-- The tree in that file. -/
def inCrypt : Tree :=
  let node (id next : String) (guards : List Guard) : Node := {
    id := .text id, text := .text "", speaker := .text "", portrait := .null, choices := []
    autoAdvance := .bool true, next := .text next, voiceLine := .null, guards := guards
    deeds := [], tags := [], priority := .int 0 }
  let rope : Guard := ⟨.text "flag.rope==",
    .malformed (.text "flag.rope==") "missing operand for '=='"⟩
  { id := .text "", nodes := [node "start" "well" [rope], node "well" "stair" [],
      node "stair" "well" [], node "bell" "bell" []] }

end Tree

end Colloquy
