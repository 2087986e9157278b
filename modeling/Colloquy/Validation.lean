import Colloquy.Tree

/-!
# Validation

Checks on a tree for its authors: a start node that is there, references that lead somewhere,
scripts that can be read, chains of nodes that advance by themselves without end, nodes that no
path leads to, and flags that are read but never set. Errors and warnings are listed in the order
of the checks, and within one in the order of nodes.

Ids are looked up along the way. A reference that cannot be looked up at all stops the check.
-/

namespace Colloquy

variable [Text.Halves]

structure Issue where
  message : String
  node : Option String := none
  choice : Option Nat := none
  suggestion : Option String := none
deriving DecidableEq, Inhabited

/-- Where an issue is. -/
def Issue.location (i : Issue) : String :=
  match i.node, i.choice with
  | none, _ => "tree"
  | some id, none => "[" ++ id ++ "]"
  | some id, some index => "[" ++ id ++ "] choice " ++ Text.ofNat (index + 1)

structure Report where
  errors : List Issue := []
  warnings : List Issue := []
  /-- The flags that the tree sets, each once. -/
  flagsSet : List String := []
  /-- The flags that the tree reads, each with the first node that reads it. -/
  flagsRead : List (String × String) := []
deriving DecidableEq, Inhabited

def Report.isValid (r : Report) : Bool := r.errors.isEmpty

namespace Validation

/-- Ids in order, as many as are listed in a suggestion. -/
def someIds (t : Tree) : List String :=
  ((t.nodes.map (·.name)).mergeSort Text.notAfter).take 10

def startErrors (t : Tree) : Except Fault (List Issue) :=
  if t.nodes.isEmpty then .ok [{ message := "Tree has no nodes" }]
  else
    match t.lookup t.start with
    | .error f => .error f
    | .ok (some _) => .ok []
    | .ok none =>
      .ok [{ message := "Start node '" ++ t.start.plain ++ "' does not exist"
             suggestion := some ("Available nodes: " ++ ", ".intercalate (someIds t)) }]

/-- A warning unless a value is null or names a node. -/
def dangling (t : Tree) (target : Datum) (issue : Issue) : Except Fault (List Issue) :=
  if target.isNull then .ok []
  else
    match t.lookup target with
    | .error f => .error f
    | .ok (some _) => .ok []
    | .ok none => .ok [issue]

def choiceWarnings (t : Tree) (n : Node) : List (Choice × Nat) → Except Fault (List Issue)
  | [] => .ok []
  | (c, i) :: more => do
    let here ← dangling t c.goto {
      message := "Choice goes to undefined node '" ++ c.goto.plain ++ "'"
      node := some n.name, choice := some i
      suggestion := some "Add the node or set goto to null to end the conversation" }
    return here ++ (← choiceWarnings t n more)

def referenceWarnings (t : Tree) : List Node → Except Fault (List Issue)
  | [] => .ok []
  | n :: ns => do
    let here ← dangling t n.next {
      message := "next_node '" ++ n.next.plain ++ "' does not exist", node := some n.name }
    let choices ← choiceWarnings t n n.choices.zipIdx
    return here ++ choices ++ (← referenceWarnings t ns)

/-- The errors of conditions that cannot be read. -/
def conditionErrors (node : String) (choice : Option Nat) (cs : List Condition) : List Issue :=
  cs.filterMap fun
    | .malformed source reason => some {
        message := "Malformed condition " ++ source.shown ++ ": " ++ reason
        node := some node, choice
        suggestion :=
          some "Use flag.<name>, context.<path>, or a comparison like context.gold>=10" }
    | _ => none

/-- The errors of effects that cannot be read. -/
def effectErrors (node : String) (choice : Option Nat) (es : List Effect) : List Issue :=
  es.filterMap fun
    | .malformed source reason => some {
        message := "Malformed effect " ++ source.shown ++ ": " ++ reason
        node := some node, choice
        suggestion :=
          some "Use set_flag.<name>, unset_flag.<name>, or context.<path>=<value>" }
    | _ => none

def nodeErrors (n : Node) : List Issue :=
  conditionErrors n.name none n.conditions ++ effectErrors n.name none n.effects ++
    n.choices.zipIdx.flatMap fun (c, i) =>
      conditionErrors n.name (some i) c.conditions ++ effectErrors n.name (some i) c.effects

def flagsReadIn (n : Node) : List String :=
  (n.conditions ++ n.choices.flatMap (·.conditions)).flatMap (·.flagsRead)

def flagsSetIn (n : Node) : List String :=
  (n.effects ++ n.choices.flatMap (·.effects)).filterMap fun
    | .setFlag key _ => some key
    | .toggleFlag key => some key
    | _ => none

/-- The flags that nodes read, each with the first node that reads it. -/
def flagsRead (ns : List Node) : List (String × String) :=
  (ns.flatMap fun n => (flagsReadIn n).map fun flag => (flag, n.name)).foldl
    (fun seen e => if seen.any (·.1 == e.1) then seen else seen ++ [e]) []

def flagsSet (ns : List Node) : List String :=
  (ns.flatMap flagsSetIn).foldl (fun seen f => if f ∈ seen then seen else seen ++ [f]) []

/-- How a chain of nodes that advance by themselves ends: it stops, or comes back to a node of its
own. -/
inductive ChainEnd where
  | stops
  | loops (cycle : List String)
deriving DecidableEq

/-- Follows a chain from a node. The first argument bounds its length, which is at most the number
of nodes. -/
def follow (t : Tree) : Nat → List String → Node → Except Fault ChainEnd
  | 0, _, _ => .ok .stops
  | fuel + 1, chain, n =>
    if n.advances then
      match n.next.text? with
      | some id =>
        if id ∈ chain then .ok (.loops (chain.dropWhile (· ≠ id) ++ [id]))
        else
          match t.find? (.text id) with
          | some next => follow t fuel (chain ++ [id]) next
          | none => .ok .stops
      | none =>
        match t.lookup n.next with
        | .error f => .error f
        | .ok _ => .ok .stops
    else .ok .stops

def cycleError (cycle : List String) : Issue where
  message := "Auto-advance cycle: " ++ " -> ".intercalate cycle
  node := cycle.getLast?
  suggestion := some "Turn off autoAdvance on one node or give it choices"

/-- The errors of cycles, one for each; the first list holds the ids of the cycles found so far. -/
def cycleErrors (t : Tree) : List String → List Node → Except Fault (List Issue)
  | _, [] => .ok []
  | reported, n :: ns =>
    if !n.autoAdvance.isTrue || n.name ∈ reported then cycleErrors t reported ns
    else
      match follow t (t.nodes.length + 1) [n.name] n with
      | .error f => .error f
      | .ok .stops => cycleErrors t reported ns
      | .ok (.loops cycle) => do
        let rest ← cycleErrors t (reported ++ cycle) ns
        return if cycle.any (· ∈ reported) then rest else cycleError cycle :: rest

/-- The ids that a node leads to. -/
def targets (n : Node) : List Datum :=
  n.choices.map (·.goto) ++ [n.next]

/-- The ids among values that name nodes not seen yet, each once. -/
def fresh (t : Tree) : List String → List Datum → Except Fault (List String)
  | _, [] => .ok []
  | seen, d :: ds =>
    match t.lookup d with
    | .error f => .error f
    | .ok none => fresh t seen ds
    | .ok (some n) =>
      if n.name ∈ seen then fresh t seen ds
      else (fresh t (n.name :: seen) ds).map (n.name :: ·)

/-- The ids that can be reached. The first argument bounds the steps: one for each node. -/
def reachable (t : Tree) : Nat → List String → List String → Except Fault (List String)
  | 0, _, seen => .ok seen
  | _ + 1, [], seen => .ok seen
  | fuel + 1, id :: queue, seen =>
    match t.find? (.text id) with
    | none => reachable t fuel queue seen
    | some n =>
      match fresh t seen (targets n) with
      | .error f => .error f
      | .ok found => reachable t fuel (queue ++ found) (seen ++ found)

def unreachableWarnings (t : Tree) : Except Fault (List Issue) :=
  match t.lookup t.start with
  | .error f => .error f
  | .ok none => .ok []
  | .ok (some n) => do
    let seen ← reachable t (t.nodes.length + 1) [n.name] [n.name]
    return (t.nodes.filter fun n => n.name ∉ seen).map fun n => {
      message := "Node '" ++ n.name ++ "' is unreachable from the start node", node := some n.name }

def unsetWarnings (read : List (String × String)) (set : List String) : List Issue :=
  let inOrder := read.mergeSort fun a b => Text.notAfter a.1 b.1
  (inOrder.filter fun e => e.1 ∉ set).map fun (flag, id) => {
    message := "Flag '" ++ flag ++ "' is checked but never set in this tree", node := some id }

end Validation

open Validation in
/-- Runs all checks. -/
def Tree.validate (t : Tree) : Except Fault Report := do
  let start ← startErrors t
  let references ← referenceWarnings t t.nodes
  let cycles ← cycleErrors t [] t.nodes
  let unreachable ← unreachableWarnings t
  let read := flagsRead t.nodes
  let set := flagsSet t.nodes
  return {
    errors := start ++ t.nodes.flatMap nodeErrors ++ cycles
    warnings := references ++ unreachable ++ unsetWarnings read set
    flagsSet := set, flagsRead := read }

end Colloquy
