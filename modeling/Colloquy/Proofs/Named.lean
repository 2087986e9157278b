import Colloquy.Proofs.Growth
import Colloquy.Proofs.Scripts
import Colloquy.Tree.Reading
import Colloquy.Validation

/-!
# Trees whose nodes have names

In a file the keys of tables are texts, each of them once (`Datum.IsJson`). So a tree that is read
from one has texts as ids, no two of them the same (`Tree.ofDatum_named`), and a reference that is
null or a text can always be looked up: it names the one node with that id or none
(`Tree.Named.lookup_cases`). All checks on such a tree come to an end (`Tree.Named.validate_eq`),
and those of references list just the references that lead nowhere
(`Validation.referenceWarnings_named`).
-/

namespace Colloquy

namespace Datum

mutual

/-- Whether a value is one that JSON can hold: the keys of its tables are texts, each of them once,
and no table is inside itself. -/
def IsJson : Datum → Prop
  | .scalar _ => True
  | .list xs => ItemsJson xs
  | .map es => (∀ e ∈ es, ∃ s, e.1 = .text s) ∧ Table.Keyed es ∧ EntriesJson es
  | .back _ => False
termination_by structural d => d

def ItemsJson : List Datum → Prop
  | [] => True
  | x :: xs => x.IsJson ∧ ItemsJson xs
termination_by structural xs => xs

def EntriesJson : List (Scalar × Datum) → Prop
  | [] => True
  | (_, x) :: es => x.IsJson ∧ EntriesJson es
termination_by structural es => es

end

mutual

theorem IsJson.keyed : ∀ {d : Datum}, d.IsJson → d.Keyed
  | .scalar _, _ => trivial
  | .back _, _ => trivial
  | .list xs, h => by
    rw [IsJson] at h
    rw [Keyed]
    exact itemsJson_keyed h
  | .map es, h => by
    rw [IsJson] at h
    rw [Keyed]
    exact ⟨h.2.1, entriesJson_keyed h.2.2⟩

theorem itemsJson_keyed : ∀ {xs : List Datum}, ItemsJson xs → ItemsKeyed xs
  | [], _ => trivial
  | _ :: _, h => ⟨IsJson.keyed h.1, itemsJson_keyed h.2⟩

theorem entriesJson_keyed : ∀ {es : List (Scalar × Datum)}, EntriesJson es → EntriesKeyed es
  | [], _ => trivial
  | _ :: _, h => ⟨IsJson.keyed h.1, entriesJson_keyed h.2⟩

end

theorem isJson_get? {key : Scalar} {d : Datum} : ∀ {es : Table Datum}, EntriesJson es →
    es.get? key = some d → d.IsJson
  | [], _, h => absurd h nofun
  | (k, x) :: es, he, h => by
    rw [EntriesJson] at he
    unfold Table.get? at h
    split at h
    · cases h
      exact he.1
    · exact isJson_get? he.2 h

theorem isJson_field {es : Table Datum} (h : EntriesJson es) (name : String) :
    (es.field name).IsJson := by
  unfold Table.field
  rcases hd : es.get? (.text name) with _ | d
  · trivial
  · exact isJson_get? h hd

theorem isJson_orElse {d e : Datum} (hd : d.IsJson) (he : e.IsJson) : (d.orElse e).IsJson := by
  unfold orElse
  split
  · exact hd
  · exact he

theorem isJson_empty : (Datum.map []).IsJson := by
  rw [IsJson]
  exact ⟨List.forall_mem_nil _, Table.keyed_nil, trivial⟩

/-- Null or a text, as references between nodes are in a file. -/
def IsName (d : Datum) : Prop := d = .null ∨ ∃ s, d = .text s

end Datum

variable [Text.Halves]

namespace Reading

omit [Text.Halves] in
/-- What is read in two parts is read one after the other. -/
theorem bind_ok {α β : Type} {m : Step α} {k : α → Step β} {r r' : Reading} {b : β}
    (h : (m >>= k) r = .ok b r') : ∃ a r₁, m r = .ok a r₁ ∧ k a r₁ = .ok b r' := by
  simp only [Bind.bind, EStateM.bind] at h
  rcases hm : m r with ⟨a, r₁⟩ | ⟨f, r₁⟩
  · rw [hm] at h
    exact ⟨a, r₁, rfl, h⟩
  · rw [hm] at h
    cases h

theorem nodeWith_id {id : Scalar} {cs : List Choice} {es : Table Datum} {n : Node}
    {r r' : Reading} (h : nodeWith id cs es r = .ok n r') : n.id = id := by
  obtain ⟨guards, r₁, -, h⟩ := bind_ok h
  obtain ⟨deeds, r₂, -, h⟩ := bind_ok h
  cases h
  rfl

theorem node_id {id : Scalar} {d : Datum} {n : Node} {r r' : Reading}
    (h : node id d r = .ok n r') : n.id = id := by
  rcases d with _ | _ | es | _
  case map =>
    unfold node at h
    rcases hc : (Table.field es "choices").orElse (.list []) with _ | ds | _ | _
    all_goals simp only [hc] at h
    case list =>
      obtain ⟨cs, r₁, -, h⟩ := bind_ok h
      exact nodeWith_id h
    all_goals cases h
  all_goals cases h

theorem nodes_ids : ∀ {raw : List (Scalar × Datum)} {ns : List Node} {r r' : Reading},
    nodes raw r = .ok ns r' → ns.map (·.id) = raw.map (·.1)
  | [], _, _, _, h => by
    cases h
    rfl
  | (k, d) :: raw, ns, r, r', h => by
    obtain ⟨n, r₁, hn, h⟩ := bind_ok h
    obtain ⟨ms, r₂, hm, h⟩ := bind_ok h
    cases h
    rw [List.map_cons, List.map_cons, node_id hn, nodes_ids hm]

theorem treeWith_nodes {initial metadata : Table Datum} {ns : List Node} {es : Table Datum}
    {t : Tree} {r r' : Reading} (h : treeWith initial metadata ns es r = .ok t r') :
    t.nodes = ns := by
  unfold treeWith at h
  generalize hl : Tree.lookup _ _ = found at h
  rcases found with f | _ | n
  · cases h
  · obtain ⟨_, r₁, -, h⟩ := bind_ok h
    cases h
    rfl
  · cases h
    rfl

/-- The ids of a tree are the keys of the table of its nodes. -/
theorem tree_ids {d : Datum} {t : Tree} {r r' : Reading} (h : tree d r = .ok t r') :
    ∃ es raw, d = .map es ∧ (Table.field es "nodes").orElse (.map []) = .map raw ∧
      t.nodes.map (·.id) = raw.map (·.1) := by
  rcases d with _ | _ | es | _
  case map =>
    unfold tree at h
    rcases hraw : (Table.field es "nodes").orElse (.map []) with _ | _ | raw | _
    all_goals simp only [hraw] at h
    case map =>
      obtain ⟨initial, r₁, -, h⟩ := bind_ok h
      obtain ⟨metadata, r₂, -, h⟩ := bind_ok h
      obtain ⟨ns, r₃, hns, h⟩ := bind_ok h
      exact ⟨es, raw, rfl, hraw, treeWith_nodes h ▸ nodes_ids hns⟩
    all_goals cases h
  all_goals cases h

end Reading

/-! ## Names -/

/-- A tree whose ids are texts, each of one node, and whose references are null or texts. -/
structure Tree.Named (t : Tree) : Prop where
  ids : ∀ n ∈ t.nodes, n.id = .text n.name
  distinct : (t.nodes.map (·.name)).Nodup
  start : t.start.IsName
  next : ∀ n ∈ t.nodes, n.next.IsName
  goto : ∀ n ∈ t.nodes, ∀ c ∈ n.choices, c.goto.IsName

theorem Node.name_text {n : Node} {s : String} (h : n.id = .text s) : n.name = s := by
  rw [Node.name, h]
  rfl

theorem Tree.ofDatum_ids {h h' : Heap} {d : Datum} {t : Tree} (json : d.IsJson)
    (loaded : ofDatum h d = .ok (t, h')) :
    (∀ n ∈ t.nodes, n.id = .text n.name) ∧ (t.nodes.map (·.name)).Nodup := by
  unfold ofDatum at loaded
  split at loaded
  case h_2 => cases loaded
  rename_i hr
  cases loaded
  obtain ⟨es, raw, rfl, hraw, hids⟩ := Reading.tree_ids hr
  rw [Datum.IsJson] at json
  have hj : (Datum.map raw).IsJson := by
    rw [← hraw]
    exact Datum.isJson_orElse (Datum.isJson_field json.2.2 "nodes") Datum.isJson_empty
  rw [Datum.IsJson] at hj
  obtain ⟨texts, keyed, -⟩ := hj
  have ids : ∀ n ∈ t.nodes, n.id = .text n.name := by
    intro n hn
    have hm : n.id ∈ raw.map (·.1) := hids ▸ List.mem_map_of_mem hn
    obtain ⟨e, he, hid⟩ := List.mem_map.1 hm
    obtain ⟨s, hs⟩ := texts e he
    rw [hs] at hid
    rw [Node.name_text hid.symm, hid]
  refine ⟨ids, ?_⟩
  rw [Table.Keyed, ← hids, List.pairwise_map] at keyed
  rw [List.Nodup, List.pairwise_map]
  refine keyed.imp_of_mem fun {m n} hm hn hk he => ?_
  rw [ids m hm, ids n hn, he, Scalar.alike_self] at hk
  cases hk

/-- A tree of a file whose references are null or texts has names. -/
theorem Tree.ofDatum_named {h h' : Heap} {d : Datum} {t : Tree} (json : d.IsJson)
    (loaded : ofDatum h d = .ok (t, h')) (start : t.start.IsName)
    (next : ∀ n ∈ t.nodes, n.next.IsName)
    (goto : ∀ n ∈ t.nodes, ∀ c ∈ n.choices, c.goto.IsName) : t.Named :=
  ⟨(ofDatum_ids json loaded).1, (ofDatum_ids json loaded).2, start, next, goto⟩

namespace Tree.Named

variable {t : Tree}

theorem find?_text (named : t.Named) {id : String} {n : Node} :
    t.find? (.text id) = some n ↔ n ∈ t.nodes ∧ n.name = id := by
  have hid : ∀ m ∈ t.nodes, (m.id.alike (.text id) = true ↔ m.name = id) := by
    intro m hm
    rw [Scalar.alike_text_iff, named.ids m hm, Scalar.text.injEq]
  constructor
  · intro h
    have hm : n ∈ t.nodes := List.mem_of_find?_eq_some h
    exact ⟨hm, (hid n hm).1 (List.find?_some (p := fun m : Node => m.id.alike (.text id)) h)⟩
  · rintro ⟨hm, rfl⟩
    have hsome : (t.find? (.text n.name)).isSome := by
      unfold find?
      rw [List.find?_isSome]
      exact ⟨n, hm, (hid n hm).2 rfl⟩
    obtain ⟨m, h⟩ := Option.isSome_iff_exists.1 hsome
    have hm' : m ∈ t.nodes := List.mem_of_find?_eq_some h
    have hname : m.name = n.name :=
      (hid m hm').1 (List.find?_some (p := fun m : Node => m.id.alike (.text n.name)) h)
    rw [h, List.inj_on_of_nodup_map named.distinct hm' hm hname]

/-- A reference names one node of the tree, or none. -/
theorem lookup_cases (named : t.Named) {d : Datum} (hd : d.IsName) :
    (∃ n ∈ t.nodes, d = .text n.name ∧ t.lookup d = .ok (some n)) ∨
      t.lookup d = .ok none ∧ ∀ n ∈ t.nodes, d ≠ .text n.name := by
  rcases hd with rfl | ⟨id, rfl⟩
  · exact .inr ⟨rfl, fun _ _ => nofun⟩
  rcases hf : t.find? (.text id) with _ | n
  · refine .inr ⟨congrArg Except.ok hf, fun n hn he => ?_⟩
    rw [named.find?_text.2 ⟨hn, (Scalar.text.inj (Datum.scalar.inj he)).symm⟩] at hf
    cases hf
  · obtain ⟨hn, rfl⟩ := named.find?_text.1 hf
    exact .inl ⟨n, hn, rfl, congrArg Except.ok hf⟩

theorem lookup_some (named : t.Named) {d : Datum} (hd : d.IsName) {n : Node} :
    t.lookup d = .ok (some n) ↔ n ∈ t.nodes ∧ d = .text n.name := by
  constructor
  · intro h
    rcases named.lookup_cases hd with ⟨m, hm, rfl, hl⟩ | ⟨hl, -⟩
    · rw [h] at hl
      cases hl
      exact ⟨hm, rfl⟩
    · rw [h] at hl
      cases hl
  · rintro ⟨hn, rfl⟩
    exact congrArg Except.ok (named.find?_text.2 ⟨hn, rfl⟩)

end Tree.Named

/-- The references of a node, each with the place of the choice that has it. -/
inductive Node.Refers (n : Node) : Option ℕ → Datum → Prop
  | next : n.Refers none n.next
  | goto {i : ℕ} {c : Choice} (at_ : n.choices[i]? = some c) : n.Refers (some i) c.goto

theorem Tree.Named.refers {t : Tree} (named : t.Named) {n : Node} (hn : n ∈ t.nodes)
    {place : Option ℕ} {target : Datum} (h : n.Refers place target) : target.IsName := by
  cases h with
  | next => exact named.next n hn
  | goto at_ => exact named.goto n hn _ (List.mem_of_getElem? at_)

/-! ## Checks -/

namespace Validation

/-- The warning of a reference of a node that leads nowhere. -/
def danglingWarning (n : Node) (target : Datum) : Option ℕ → Issue
  | none => {
      message := "next_node '" ++ target.plain ++ "' does not exist", node := some n.name }
  | some i => {
      message := "Choice goes to undefined node '" ++ target.plain ++ "'"
      node := some n.name, choice := some i
      suggestion := some "Add the node or set goto to null to end the conversation" }

/-- A reference that leads nowhere, though it is not null. -/
def Dangles (t : Tree) (target : Datum) : Prop := target ≠ .null ∧ t.lookup target = .ok none

theorem dangling_named {t : Tree} (named : t.Named) {target : Datum} (ht : target.IsName)
    (issue : Issue) : ∃ issues, dangling t target issue = .ok issues ∧
      ∀ i, i ∈ issues ↔ Dangles t target ∧ i = issue := by
  unfold dangling Dangles
  by_cases hn : target.isNull
  · have h0 : target = .null := by
      unfold Datum.isNull at hn
      split at hn
      · rfl
      · cases hn
    exact ⟨[], if_pos hn, by simp [h0]⟩
  · have h0 : target ≠ .null := by
      rintro rfl
      exact hn rfl
    rw [if_neg hn]
    rcases named.lookup_cases ht with ⟨n, -, -, hl⟩ | ⟨hl, -⟩
    · exact ⟨[], by rw [hl], by simp [hl]⟩
    · exact ⟨[issue], by rw [hl], by simp [hl, h0]⟩

theorem choiceWarnings_named {t : Tree} (named : t.Named) (n : Node) :
    ∀ (cs : List (Choice × ℕ)), (∀ c ∈ cs, c.1.goto.IsName) →
      ∃ issues, choiceWarnings t n cs = .ok issues ∧ ∀ i, i ∈ issues ↔
        ∃ c ∈ cs, Dangles t c.1.goto ∧ i = danglingWarning n c.1.goto (some c.2)
  | [], _ => ⟨[], rfl, by simp⟩
  | (c, place) :: cs, h => by
    rw [List.forall_mem_cons] at h
    obtain ⟨here, he, hmem⟩ :=
      dangling_named named h.1 (danglingWarning n c.goto (some place))
    obtain ⟨rest, hr, hmem'⟩ := choiceWarnings_named named n cs h.2
    have he' : dangling t c.goto {
        message := "Choice goes to undefined node '" ++ c.goto.plain ++ "'"
        node := some n.name, choice := some place
        suggestion := some "Add the node or set goto to null to end the conversation" } =
        .ok here := he
    refine ⟨here ++ rest, ?_, fun i => ?_⟩
    · rw [choiceWarnings, he', hr]
      rfl
    · rw [List.mem_append, hmem, hmem', List.exists_mem_cons_iff]

/-- The warnings of references are those of the references that lead nowhere. -/
theorem referenceWarnings_named {t : Tree} (named : t.Named) :
    ∀ ns : List Node, (∀ n ∈ ns, n ∈ t.nodes) →
      ∃ issues, referenceWarnings t ns = .ok issues ∧ ∀ i, i ∈ issues ↔
        ∃ n ∈ ns, ∃ place target, n.Refers place target ∧ Dangles t target ∧
          i = danglingWarning n target place
  | [], _ => ⟨[], rfl, by simp⟩
  | n :: ns, h => by
    rw [List.forall_mem_cons] at h
    obtain ⟨here, he, hmem⟩ :=
      dangling_named named (named.next n h.1) (danglingWarning n n.next none)
    have he' : dangling t n.next {
        message := "next_node '" ++ n.next.plain ++ "' does not exist", node := some n.name } =
        .ok here := he
    obtain ⟨choices, hc, hmem'⟩ := choiceWarnings_named named n n.choices.zipIdx
      fun c hc => named.goto n h.1 c.1 (List.mem_of_getElem? (List.mem_zipIdx_iff_getElem?.1 hc))
    obtain ⟨rest, hr, hmem''⟩ := referenceWarnings_named named ns h.2
    refine ⟨here ++ choices ++ rest, ?_, fun i => ?_⟩
    · rw [referenceWarnings, he', hc, hr]
      rfl
    rw [List.mem_append, List.mem_append, hmem, hmem', hmem'', List.exists_mem_cons_iff]
    refine or_congr_left ⟨?_, ?_⟩
    · rintro (⟨hd, rfl⟩ | ⟨⟨c, place⟩, hc, hd, rfl⟩)
      · exact ⟨none, n.next, .next, hd, rfl⟩
      · exact ⟨some place, c.goto, .goto (List.mem_zipIdx_iff_getElem?.1 hc), hd, rfl⟩
    · rintro ⟨place, target, hr, hd, rfl⟩
      cases hr with
      | next => exact .inl ⟨hd, rfl⟩
      | @goto i c at_ => exact .inr ⟨(c, i), List.mem_zipIdx_iff_getElem?.2 at_, hd, rfl⟩

end Validation

end Colloquy
