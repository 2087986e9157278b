import Colloquy.Tree.Node

/-!
# Dialogue trees

A tree is a list of nodes with distinct ids and the id of the one where conversations start. Nodes
refer to each other by id only, and an id that names no node ends the conversation, as does null.
Visiting a node applies its effects if all its conditions hold and does nothing otherwise
(`Tree.visit`). In a file all ids are texts.
-/

namespace Colloquy

variable [Text.Halves]

structure Tree where
  id : Datum
  title : Datum := .text ""
  description : Datum := .text ""
  start : Datum := .text "start"
  nodes : List Node := []
  /-- The context that a conversation starts with if nothing else is given. -/
  initial : Table Datum := []
  metadata : Table Datum := []
deriving DecidableEq, Inhabited

namespace Tree

/-- The id as a text. -/
def name (t : Tree) : String := t.id.plain

def find? (t : Tree) (id : Scalar) : Option Node :=
  t.nodes.find? (·.id.alike id)

/-- The node that a value names. Null names none; lists and tables cannot name anything, not even
nothing. -/
def lookup (t : Tree) : Datum → Except Fault (Option Node)
  | .null => .ok none
  | .scalar id => .ok (t.find? id)
  | _ => .error .wrongKind

/-- Adds a node whose id is not taken yet. -/
def add (t : Tree) (n : Node) : Except Fault Tree :=
  match t.find? n.id with
  | some _ => .error (.format (.duplicateNode n.name t.name))
  | none => .ok { t with nodes := t.nodes ++ [n] }

/-- Goes to the node that a value names. There is no node to go to if none has the name or its
conditions do not hold. -/
def visit (t : Tree) (w : World) (target : Datum) : World × Except Fault (Option Node) :=
  match t.lookup target with
  | .error f => (w, .error f)
  | .ok none => (w.note (.unknownNode t.name target), .ok none)
  | .ok (some n) =>
    match Condition.allHold w.store n.conditions with
    | .error f => (w, .error f)
    | .ok true =>
      match Effect.applyAll w n.effects with
      | (w, none) => (w, .ok (some n))
      | (w, some f) => (w, .error f)
    | .ok false =>
      ((w.noteAll (Condition.allNotices w.store n.conditions)).note
        (.nodeUnavailable t.name target), .ok none)

def toDatum (h : Heap) (t : Tree) : Datum :=
  .object [("id", t.id), ("title", t.title), ("description", t.description),
    ("startNode", t.start), ("nodes", .map (t.nodes.map fun n => (n.id, n.toDatum h))),
    ("variables", .map t.initial), ("metadata", .map t.metadata)]

/-- A choice in the reduced form, with its first condition only. -/
def presentChoice (c : Choice) : Datum :=
  .object ([("text", c.text), ("goto", c.goto)] ++
    (c.guards.head?.map fun g => ("condition", g.source)).toList)

def presentNode (n : Node) : Datum :=
  .object [("text", n.text), ("speaker", n.speaker), ("portrait", n.portrait),
    ("choices", .list (n.choices.map presentChoice)), ("autoAdvance", n.autoAdvance),
    ("nextNode", n.next), ("voiceLine", n.voiceLine)]

/-- The reduced form for presentation: no effects, and one condition for each choice. -/
def toPresentation (t : Tree) : Datum :=
  .object [("id", t.id), ("nodes", .map (t.nodes.map fun n => (n.id, presentNode n)))]

end Tree

end Colloquy
