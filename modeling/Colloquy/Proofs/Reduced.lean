import Colloquy.Proofs.Rereading
import Colloquy.Script.Given

/-!
# The reduced form of a tree

For presentation, a choice is reduced to an entry with its text, where it leads, and the first of
its conditions as it was given, so who reads that condition later sees only part of what the engine
asks for. An entry is there for each choice, in their order (`Tree.entries?_toPresentation`). In a
tree that is read from data, each condition is the one that is read from the data beside it
(`Reading.tree_compiled`), so an entry asks for no more than its choice: a choice whose conditions
hold belongs to an entry without a condition or with one that holds, and with one condition at most
the entry asks for just as much (`Choice.IsShownBy.admits_of_isAvailable`,
`Choice.IsShownBy.admits_eq_isAvailable`). So no choice that is on offer is hidden
(`Tree.entries_admitted`).
-/

namespace Colloquy

/-! ## Filters that can fail -/

namespace Fallible

variable {α β ε : Type} {p q : α → Except ε Bool}

theorem filterAuxM_eq : ∀ (l acc : List α),
    l.filterAuxM p acc = (l.filterAuxM p []).map (· ++ acc)
  | [], acc => rfl
  | a :: l, acc => by
    simp only [List.filterAuxM]
    rcases p a with f | b
    · rfl
    · simp only [bind, Except.bind]
      rw [filterAuxM_eq l (bif b then a :: acc else acc), filterAuxM_eq l (bif b then [a] else [])]
      rcases l.filterAuxM p [] with f | r
      · rfl
      · cases b <;> simp [Except.map]

theorem filterM_cons (a : α) (l : List α) : (a :: l).filterM p =
    (p a).bind fun b => (l.filterM p).map fun r => if b then a :: r else r := by
  simp only [List.filterM, List.filterAuxM]
  rcases p a with f | b
  · rfl
  · simp only [bind, Except.bind]
    rw [filterAuxM_eq]
    rcases l.filterAuxM p [] with f | r
    · rfl
    · cases b <;> simp [Except.map, pure, Except.pure]

theorem mem_filterM {a : α} : ∀ {l r : List α}, l.filterM p = .ok r → a ∈ r →
    a ∈ l ∧ p a = .ok true
  | [], r, h, ha => by
    obtain rfl := Except.ok.inj h
    cases ha
  | b :: l, r, h, ha => by
    rw [filterM_cons] at h
    rcases hb : p b with f | keep
    · rw [hb] at h
      cases h
    rcases hl : l.filterM p with f | kept
    · rw [hb, hl] at h
      cases h
    have later : a ∈ kept → a ∈ b :: l ∧ p a = .ok true := fun hk =>
      (mem_filterM hl hk).imp_left (.tail _)
    rw [hb, hl] at h
    obtain rfl := Except.ok.inj h
    cases keep with
    | true =>
      rcases List.mem_cons.1 ha with rfl | hk
      · exact ⟨.head _, hb⟩
      · exact later hk
    | false => exact later ha

theorem filterM_map {p : β → Except ε Bool} (f : α → β) : ∀ l : List α,
    (l.map f).filterM p = (l.filterM fun a => p (f a)).map (List.map f)
  | [] => rfl
  | a :: l => by
    rw [List.map_cons, filterM_cons, filterM_cons, filterM_map f l]
    rcases p (f a) with g | b
    · rfl
    · rcases l.filterM fun a => p (f a) with g | r
      · rfl
      · cases b <;> rfl

theorem filterM_congr : ∀ {l : List α}, (∀ a ∈ l, p a = q a) → l.filterM p = l.filterM q
  | [], _ => rfl
  | a :: l, h => by
    rw [List.forall_mem_cons] at h
    rw [filterM_cons, filterM_cons, h.1, filterM_congr h.2]

end Fallible

section reading
variable [Text.Halves]

/-! ## What is read together with its conditions -/

/-- A choice whose conditions are those that are read from the data beside them. -/
def Choice.IsCompiled (c : Choice) : Prop := ∀ g ∈ c.guards, g.IsRead

/-- A node whose choices are compiled. -/
def Node.IsCompiled (n : Node) : Prop := ∀ c ∈ n.choices, c.IsCompiled

namespace Reading

omit [Text.Halves] in
/-- Whatever is read has a property. -/
def Ensures {α : Type} (m : Step α) (P : α → Prop) : Prop := ∀ r a r', m r = .ok a r' → P a

section rules

variable {α β : Type} {P : α → Prop} {Q : β → Prop} {m : Step α}

omit [Text.Halves] in
theorem ensures_pure {a : α} (h : P a) : Ensures (pure a) P := by
  rintro _ _ _ ⟨⟩
  exact h

omit [Text.Halves] in
theorem ensures_throw {f : Fault} : Ensures (throw f) P := nofun

omit [Text.Halves] in
theorem Ensures.bind (hm : Ensures m P) {k : α → Step β} (hk : ∀ a, P a → Ensures (k a) Q) :
    Ensures (m >>= k) Q := by
  intro r b r' h
  obtain ⟨a, r₁, ha, h⟩ := bind_ok h
  exact hk a (hm r a r₁ ha) r₁ b r' h

omit [Text.Halves] in
theorem ensures_mapM {γ : Type} {f : γ → Step α} (hf : ∀ c, Ensures (f c) P) : ∀ cs : List γ,
    Ensures (cs.mapM f) fun as => ∀ a ∈ as, P a
  | [] => ensures_pure (List.forall_mem_nil _)
  | c :: cs => by
    rw [List.mapM_cons]
    exact (hf c).bind fun a ha => (ensures_mapM hf cs).bind fun as has =>
      ensures_pure (List.forall_mem_cons.2 ⟨ha, has⟩)

omit [Text.Halves] in
theorem ensures_any : Ensures m fun _ => True := fun _ _ _ _ => trivial

end rules

theorem guard_compiled (d : Datum) : Ensures (guard d) Guard.IsRead :=
  fun _ _ _ h => (guard_reads h).2

theorem choice_compiled (es : Table Datum) : Ensures (choice es) Choice.IsCompiled :=
  (ensures_mapM guard_compiled _).bind fun _ hg => ensures_any.bind fun _ _ => ensures_pure hg

theorem choices_compiled (id : String) : ∀ (i : ℕ) (ds : List Datum),
    Ensures (choices id i ds) fun cs => ∀ c ∈ cs, c.IsCompiled
  | _, [] => ensures_pure (List.forall_mem_nil _)
  | i, .map es :: ds => (choice_compiled es).bind fun _ hc =>
    (choices_compiled id (i + 1) ds).bind fun _ hcs =>
      ensures_pure (List.forall_mem_cons.2 ⟨hc, hcs⟩)
  | _, .scalar _ :: _ => ensures_throw
  | _, .list _ :: _ => ensures_throw
  | _, .back _ :: _ => ensures_throw

theorem node_compiled (id : Scalar) (d : Datum) : Ensures (node id d) Node.IsCompiled := by
  unfold node
  split
  · split
    · exact (choices_compiled _ _ _).bind fun cs hcs =>
        ensures_any.bind fun _ _ => ensures_any.bind fun _ _ => ensures_pure hcs
    · exact ensures_throw
  · exact ensures_throw

theorem nodes_compiled (es : List (Scalar × Datum)) :
    Ensures (nodes es) fun ns => ∀ n ∈ ns, n.IsCompiled := by
  induction es with
  | nil => exact ensures_pure (List.forall_mem_nil _)
  | cons e es ih =>
    refine (node_compiled e.1 e.2).bind fun n hn => ih.bind fun ns hns => ?_
    exact ensures_pure (List.forall_mem_cons.2 ⟨hn, hns⟩)

/-- In a tree that is read, conditions are those that are read from the data beside them. -/
theorem tree_compiled (d : Datum) : Ensures (tree d) fun t => ∀ n ∈ t.nodes, n.IsCompiled := by
  unfold tree
  split
  · split
    · refine ensures_any.bind fun _ _ => ensures_any.bind fun _ _ =>
        (nodes_compiled _).bind fun ns hns => ?_
      intro r t r' h
      rw [(treeWith_reads h).2.1]
      exact hns
    · exact ensures_throw
  · exact ensures_throw

end Reading

/-! ## Entries -/

/-- The entries for the choices of a node in a tree in its reduced form. -/
def Datum.entries? (d : Datum) (id : Scalar) : Option (List Datum) :=
  match d with
  | .map es =>
    match Table.field es "nodes" with
    | .map nodes =>
      match Table.get? nodes id with
      | some (.map node) =>
        match Table.field node "choices" with
        | .list entries => some entries
        | _ => none
      | _ => none
    | _ => none
  | _ => none

namespace World

/-- Whether an entry has no condition, or one that holds. -/
def admits (w : World) : Datum → Except Fault Bool
  | .map es =>
    match Table.get? es (.text "condition") with
    | some d => (w.evaluate d).2
    | none => .ok true
  | _ => .ok true

/-- The entries without a condition or with one that holds, each with its place. -/
def admitted (w : World) (entries : List Datum) : Except Fault (List (Datum × ℕ)) :=
  entries.zipIdx.filterM fun e => w.admits e.1

end World

namespace Choice

omit [Text.Halves] in
/-- An entry has the text of a choice, where it leads, and its first condition if there is one. -/
def IsShownBy (c : Choice) (d : Datum) : Prop := ∃ es, d = .map es ∧
  Table.field es "text" = c.text ∧ Table.field es "goto" = c.goto ∧
  Table.get? es (.text "condition") = c.guards.head?.map (·.source)

omit [Text.Halves] in
theorem isShownBy_presentChoice (c : Choice) : c.IsShownBy (Tree.presentChoice c) := by
  refine ⟨_, rfl, ?_⟩
  rcases c.guards with _ | ⟨g, gs⟩
  · exact ⟨rfl, rfl, rfl⟩
  · exact ⟨rfl, rfl, rfl⟩

variable {c : Choice} {d : Datum}

/-- An entry asks for what the first condition of its choice asks for. -/
theorem IsShownBy.admits_eq (shown : c.IsShownBy d) (compiled : c.IsCompiled) (w : World) :
    w.admits d = Condition.allHold w.store (c.conditions.take 1) := by
  obtain ⟨es, rfl, -, -, condition⟩ := shown
  rw [conditions]
  rw [IsCompiled] at compiled
  generalize c.guards = guards at condition compiled ⊢
  cases guards with
  | nil =>
    simp only [World.admits, condition, List.head?_nil, Option.map_none]
    rfl
  | cons g gs =>
    have read : Condition.ofDatum g.source = .ok g.condition := compiled g (.head _)
    simp only [World.admits, condition, List.head?_cons, Option.map_some, World.evaluate, read,
      List.map_cons, List.take_succ_cons, List.take_zero, Condition.allHold]
    rcases g.condition.holds w.store with f | _ | _ <;> rfl

/-- A choice whose conditions hold belongs to an entry without a condition, or with one that
holds. -/
theorem IsShownBy.admits_of_isAvailable (shown : c.IsShownBy d) (compiled : c.IsCompiled)
    {w : World} (h : c.isAvailable w.store = .ok true) : w.admits d = .ok true := by
  rw [shown.admits_eq compiled]
  rw [isAvailable] at h
  generalize c.conditions = conditions at h ⊢
  cases conditions with
  | nil => rfl
  | cons a as =>
    rw [Condition.allHold] at h
    rw [List.take_succ_cons, List.take_zero, Condition.allHold]
    generalize a.holds w.store = outcome at h ⊢
    rcases outcome with f | _ | _
    · cases h
    · cases h
    · rfl

/-- The entry of a choice with one condition at most asks for just what the choice asks for. -/
theorem IsShownBy.admits_eq_isAvailable (shown : c.IsShownBy d) (compiled : c.IsCompiled)
    (single : c.guards.length ≤ 1) (w : World) : w.admits d = c.isAvailable w.store := by
  rw [shown.admits_eq compiled, isAvailable, List.take_of_length_le]
  rw [conditions, List.length_map]
  exact single

end Choice

namespace Tree

omit [Text.Halves] in
theorem get?_presentNodes (id : Scalar) : ∀ ns : List Node,
    Table.get? (ns.map fun n => (n.id, presentNode n)) id =
      (ns.find? (·.id.alike id)).map presentNode
  | [] => rfl
  | n :: ns => by
    rw [List.map_cons, Table.get?, List.find?_cons, get?_presentNodes id ns]
    cases n.id.alike id <;> rfl

omit [Text.Halves] in
/-- The reduced form has an entry for each choice of a node, in their order. -/
theorem entries?_toPresentation {t : Tree} {id : Scalar} {n : Node} (there : t.find? id = some n) :
    t.toPresentation.entries? id = some (n.choices.map presentChoice) := by
  have node : Table.get? (t.nodes.map fun n => (n.id, presentNode n)) id =
      some (presentNode n) := by
    rw [get?_presentNodes, show t.nodes.find? (·.id.alike id) = some n from there]
    rfl
  have nodes : Table.field [(.text "id", t.id),
      (.text "nodes", .map (t.nodes.map fun n => (n.id, presentNode n)))] "nodes" =
      .map (t.nodes.map fun n => (n.id, presentNode n)) := rfl
  unfold Datum.entries? toPresentation
  simp only [Datum.object, List.map_cons, List.map_nil, nodes, node]
  rfl

/-- No choice that is on offer is hidden in the reduced form of a tree that is read from data: a
node has an entry for each choice, in their order, and a choice whose conditions hold belongs to one
without a condition, or with one that holds. If no choice of the node has more than one condition,
the entries that are admitted are those of the choices whose conditions hold. -/
theorem entries_admitted {h h' : Heap} {d : Datum} {t : Tree} (loaded : ofDatum h d = .ok (t, h'))
    {key : Scalar} {n : Node} (there : t.find? key = some n) (w : World) :
    ∃ entries, t.toPresentation.entries? key = some entries ∧
      List.Forall₂ Choice.IsShownBy n.choices entries ∧
      (∀ offered, n.available w.store = .ok offered → ∀ c ∈ offered, n.choices[c.2]? = some c.1 ∧
        ∃ e, entries[c.2]? = some e ∧ w.admits e = .ok true) ∧
      ((∀ c ∈ n.choices, c.guards.length ≤ 1) →
        (w.admitted entries).map (List.map (·.2)) =
          (n.available w.store).map (List.map (·.2))) := by
  have compiled : n.IsCompiled := by
    unfold ofDatum at loaded
    split at loaded
    case h_2 => cases loaded
    rename_i hr
    cases loaded
    exact Reading.tree_compiled d _ _ _ hr n (List.mem_of_find?_eq_some there)
  have shown := fun c : Choice => c.isShownBy_presentChoice
  refine ⟨_, entries?_toPresentation there, List.forall₂_map_right_iff.2 ?_, ?_, fun single => ?_⟩
  · exact List.forall₂_same.2 fun c _ => shown c
  · intro offered ho c hc
    obtain ⟨hm, ha⟩ := Fallible.mem_filterM ho hc
    have place : n.choices[c.2]? = some c.1 := List.mem_zipIdx_iff_getElem?.1 hm
    refine ⟨place, presentChoice c.1, by rw [List.getElem?_map, place]; rfl, ?_⟩
    exact (shown c.1).admits_of_isAvailable (compiled c.1 (List.mem_of_getElem? place)) ha
  · have asks : ∀ c ∈ n.choices.zipIdx,
        w.admits (presentChoice c.1) = c.1.isAvailable w.store := fun c hc =>
      have hm := List.fst_mem_of_mem_zipIdx hc
      (shown c.1).admits_eq_isAvailable (compiled c.1 hm) (single c.1 hm) w
    have same : w.admitted (n.choices.map presentChoice) =
        (n.available w.store).map (List.map fun c => (presentChoice c.1, c.2)) := by
      rw [World.admitted, List.zipIdx_map, Fallible.filterM_map]
      exact congrArg (Except.map _) (Fallible.filterM_congr asks)
    rw [same]
    rcases n.available w.store with f | offered
    · rfl
    · exact congrArg Except.ok List.map_map

end Tree

end reading

attribute [local instance] Text.noHalves

/-- A stall where one thing can be had for nothing, one with some gold and one to friends with some
gold, and a gate with a condition that cannot be read. -/
def stall : Datum :=
  .object [("nodes", .object [
    ("start", .object [("choices", .list [
      .object [("text", .text "ask")],
      .object [("text", .text "buy"), ("conditions", .text "context.gold>=10")],
      .object [("text", .text "haggle"),
        ("conditions", .list [.text "context.gold>=10", .text "flag.friend"])]])]),
    ("gate", .object [("choices", .list [
      .object [("text", .text "enter"), ("conditions", .int 1)],
      .object [("text", .text "pay"), ("goto", .text "start"), ("conditions", .list [
        .object [("type", .text "context"), ("key", .text "gold"), ("operator", .text "greater"),
          ("value", .int 9)]])]])])])]

/-- The stall and the gate as they are read. -/
def stallTree : Tree × Heap := (Tree.ofDatum #[] stall).toOption.getD default

def stallNode (key : String) : Node := (stallTree.1.find? (.text key)).getD default

/-- A world with gold in it, and no friend. -/
def purse : World := { store := ⟨[], ⟨#[[(.text "gold", .scalar (.int 12))]], .map 0⟩, []⟩ }

/-- At the stall all entries are admitted, and the choices that can be made are among them; at the
gate only the entry of the choice that can be made is. -/
theorem Tree.entries_admitted_stall :
    Tree.ofDatum #[] stall = .ok (stallTree.1, stallTree.2) ∧
    (∃ entries, stallTree.1.toPresentation.entries? (.text "start") = some entries ∧
      List.Forall₂ Choice.IsShownBy (stallNode "start").choices entries ∧
      (purse.admitted entries).map (List.map (·.2)) = .ok [0, 1, 2] ∧
      ∃ offered, (stallNode "start").available purse.store = .ok offered ∧
        offered.map (·.2) = [0, 1] ∧ ∀ c ∈ offered, ∃ e, entries[c.2]? = some e ∧
          purse.admits e = .ok true) ∧
    ∃ entries, stallTree.1.toPresentation.entries? (.text "gate") = some entries ∧
      (purse.admitted entries).map (List.map (·.2)) = .ok [1] := by
  have loaded : Tree.ofDatum #[] stall = .ok (stallTree.1, stallTree.2) := by decide +kernel
  have start : stallTree.1.find? (.text "start") = some (stallNode "start") := by decide +kernel
  have gate : stallTree.1.find? (.text "gate") = some (stallNode "gate") := by decide +kernel
  refine ⟨loaded, ?_, ?_⟩
  · obtain ⟨entries, there, shown, admits, -⟩ := entries_admitted loaded start purse
    refine ⟨entries, there, shown, ?_, ?_⟩
    · have all : (stallTree.1.toPresentation.entries? (.text "start")).map
          (fun entries => (purse.admitted entries).map (List.map (·.2))) =
          some (.ok [0, 1, 2]) := by
        decide +kernel
      rw [there] at all
      exact Option.some.inj all
    · obtain ⟨offered, hoff⟩ := Session.ok_of_isOk
        (o := (stallNode "start").available purse.store) (by decide +kernel)
      have places : ((stallNode "start").available purse.store).map (List.map (·.2)) =
          .ok [0, 1] := by decide +kernel
      rw [hoff] at places
      exact ⟨offered, hoff, Except.ok.inj places, fun c hc => (admits offered hoff c hc).2⟩
  · obtain ⟨entries, there, -, -, same⟩ := entries_admitted loaded gate purse
    refine ⟨entries, there, (same (by decide +kernel)).trans ?_⟩
    decide +kernel

end Colloquy
