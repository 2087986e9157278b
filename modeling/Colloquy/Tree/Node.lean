import Colloquy.Script.Effect

/-!
# Nodes and choices

A node is one unit of dialogue: what is said, the choices that lead on, and a node that follows
without a choice. Conditions and effects are kept together with the data that they were read from;
a value that an effect writes is shown as it is in the heap (`Deed.view`).
-/

namespace Colloquy

variable [Text.Halves]

/-- A condition with what it was read from. -/
structure Guard where
  source : Datum
  condition : Condition
deriving DecidableEq, Inhabited

/-- An effect with what it was read from. -/
structure Deed where
  source : Datum
  effect : Effect
deriving DecidableEq, Inhabited

structure Choice where
  text : Datum
  goto : Datum
  guards : List Guard
  deeds : List Deed
  priority : Datum
  once : Bool
  requirements : List Datum
deriving DecidableEq, Inhabited

structure Node where
  id : Scalar
  text : Datum
  speaker : Datum
  portrait : Datum
  choices : List Choice
  autoAdvance : Datum
  next : Datum
  voiceLine : Datum
  guards : List Guard
  deeds : List Deed
  tags : List Datum
  priority : Datum
deriving DecidableEq, Inhabited

/-- The data of an effect, with the value that it writes as it now is. -/
def Deed.view (h : Heap) (d : Deed) : Datum :=
  match d.source, d.effect with
  | .map es, .write _ _ (.value (.map r)) =>
    .map (Table.put es (.text "value") (h.view (.map r)))
  | source, _ => source

namespace Choice

def conditions (c : Choice) : List Condition := c.guards.map (·.condition)

def effects (c : Choice) : List Effect := c.deeds.map (·.effect)

def isAvailable (s : Store) (c : Choice) : Except Fault Bool :=
  Condition.allHold s c.conditions

/-- Whether taking the choice ends the conversation. -/
def isTerminal (c : Choice) : Bool := c.goto.isNull

/-- The requirements as one text; all of them have to be texts. -/
def requirementText (c : Choice) : Except Fault (Option String) :=
  if c.requirements.isEmpty then .ok none
  else
    match c.requirements.mapM Datum.text? with
    | some ss => .ok (some (", ".intercalate ss))
    | none => .error .wrongKind

def toDatum (h : Heap) (c : Choice) : Datum :=
  .object [("text", c.text), ("goto", c.goto), ("conditions", .list (c.guards.map (·.source))),
    ("effects", .list (c.deeds.map (·.view h))), ("priority", c.priority), ("once", .bool c.once),
    ("requirements", .list c.requirements)]

end Choice

namespace Node

/-- The id as a text. -/
def name (n : Node) : String := (Datum.scalar n.id).plain

def conditions (n : Node) : List Condition := n.guards.map (·.condition)

def effects (n : Node) : List Effect := n.deeds.map (·.effect)

def isBranch (n : Node) : Bool := !n.choices.isEmpty

/-- Whether nothing follows the node. -/
def isTerminal (n : Node) : Bool := n.choices.isEmpty && n.next.isNull

/-- Whether the conversation goes on from the node by itself. -/
def advances (n : Node) : Bool := n.autoAdvance.isTrue && !n.next.isNull

/-- The choices whose conditions hold, each with its place. Which of them were taken before makes no
difference. -/
def available (s : Store) (n : Node) : Except Fault (List (Choice × Nat)) :=
  n.choices.zipIdx.filterM fun c => c.1.isAvailable s

/-- What is reported when the conditions of choices are evaluated, up to a choice for which that
fails. -/
def choiceNotices (s : Store) (n : Node) : List Notice :=
  (n.choices.takeWhile fun c => (c.isAvailable s).isOk).flatMap fun c =>
    Condition.allNotices s c.conditions

def toDatum (h : Heap) (n : Node) : Datum :=
  .object [("text", n.text), ("speaker", n.speaker), ("portrait", n.portrait),
    ("choices", .list (n.choices.map (·.toDatum h))), ("autoAdvance", n.autoAdvance),
    ("nextNode", n.next), ("voiceLine", n.voiceLine),
    ("conditions", .list (n.guards.map (·.source))),
    ("effects", .list (n.deeds.map (·.view h))), ("tags", .list n.tags),
    ("priority", n.priority)]

end Node

end Colloquy
