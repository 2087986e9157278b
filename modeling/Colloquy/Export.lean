import Colloquy.Csv
import Colloquy.Json.Parts
import Colloquy.Tree.File

/-!
# Exporting trees

A tree is exported whole, in the reduced form for presentation, or as a table with one row for each
node and for each choice. A file is written part by part, a table row by row, and the first part
that cannot be made or written ends it (`Export.save`).
-/

namespace Colloquy

variable [Text.Halves]

namespace Export

inductive Format where
  | json
  | presentation
  | csv
deriving DecidableEq, Repr, Inhabited

def Format.name : Format → String
  | .json => "json"
  | .presentation => "presentation"
  | .csv => "csv"

def Format.all : List Format := [.json, .presentation, .csv]

omit [Text.Halves] in
theorem names_eq : Format.all.map Format.name = exportFormats := rfl

def Format.ofText? (s : String) : Option Format :=
  Format.all.find? fun format => format.name = s

/-- The columns of the table. -/
def columns : List String :=
  ["ID", "Actor", "Conversant", "Title", "Dialogue Text", "Menu Text", "Sequence", "Conditions",
    "Script", "Is Root", "Is Group", "Node Color", "Delay", "Falsehood Safe", "Priority",
    "Entry Tag"]

/-- The text of a value in a cell; null leaves the cell empty. -/
def cellText (d : Datum) : Except Fault String :=
  if d.isNull then .ok "" else if d.isShowable then .ok d.plain else .error .wrongValue

/-- Conditions or effects in one cell: texts as they are, others as JSON. -/
def scriptText (sources : List Datum) : Except Fault String := do
  let parts ← sources.mapM fun
    | .text s => .ok s
    | d =>
      match Json.write? .sortedLine d with
      | some s => .ok s
      | none => .error .wrongValue
  return "; ".intercalate parts

/-- Tags in one cell; all of them have to be texts. -/
def tagText (tags : List Datum) : Except Fault String :=
  match tags.mapM Datum.text? with
  | some ss => .ok (", ".intercalate ss)
  | none => .error .wrongKind

/-- The values for the columns of a node. -/
def nodeEntry (h : Heap) (t : Tree) (number : Nat) (n : Node) : Except Fault (List Datum) := do
  let conditions ← scriptText (n.guards.map (·.source))
  let effects ← scriptText (n.deeds.map (·.view h))
  let tags ← tagText n.tags
  return [.ofNat number, n.speaker, .text "Player", .scalar n.id, n.text, .text "",
    n.voiceLine.orElse (.text ""), .text conditions, .text effects,
    .text (if t.start.alike (.scalar n.id) then "True" else "False"), .text "False",
    .text "White", .text (if n.autoAdvance.isTrue then "0" else "-1"), .text "False",
    n.priority, .text tags]

/-- From where to where a choice leads. -/
def choiceTitle (n : Node) (c : Choice) : Except Fault String :=
  let target := c.goto.orElse (.text "END")
  if n.id.isShowable && target.isShowable then .ok (n.name ++ " -> " ++ target.plain)
  else .error .wrongValue

/-- The values for the columns of a choice. -/
def choiceEntry (h : Heap) (n : Node) (number : String) (c : Choice) :
    Except Fault (List Datum) := do
  let title ← choiceTitle n c
  let conditions ← scriptText (c.guards.map (·.source))
  let effects ← scriptText (c.deeds.map (·.view h))
  return [.text number, .text "Player", n.speaker, .text title, c.text, c.text, .text "",
    .text conditions, .text effects, .text "False", .text "False", .text "Blue", .text "-1",
    .text "False", c.priority, .text (if c.once then "once" else "")]

/-- The entries of a node and its choices, numbered `i` and `i.j`. -/
def nodeEntries (h : Heap) (t : Tree) (number : Nat) (n : Node) :
    List (Except Fault (List Datum)) :=
  nodeEntry h t number n :: (n.choices.zipIdx 1).map fun (c, j) =>
    choiceEntry h n (Text.ofNat number ++ "." ++ Text.ofNat j) c

def entries (h : Heap) (t : Tree) : List (Except Fault (List Datum)) :=
  (t.nodes.zipIdx 1).flatMap fun (n, i) => nodeEntries h t i n

/-- The row of an entry. -/
def row (entry : Except Fault (List Datum)) : Except Fault (List String) := do
  (← entry).mapM cellText

def rows (h : Heap) (t : Tree) : List (Except Fault (List String)) :=
  .ok columns :: (entries h t).map row

/-- The rows before the first that cannot be made, and why not. -/
def rowsUpToFault : List (Except Fault (List String)) → List (List String) × Option Fault
  | [] => ([], none)
  | .error f :: _ => ([], some f)
  | .ok r :: more =>
    let (made, f) := rowsUpToFault more
    (r :: made, f)

/-- A tree in a format, in the parts in which it is written, and why there are no more of them. -/
def parts (h : Heap) (t : Tree) : Format → List String × Option Fault
  | .json => Json.parts .file (t.toDatum h)
  | .presentation => Json.parts .file t.toPresentation
  | .csv =>
    let (made, f) := rowsUpToFault (rows h t)
    (Csv.write made, f)

/-- Writes a tree to a file in a format, as far as it goes. -/
def save (h : Heap) (t : Tree) (format : Format) (fs : Files) (p : FilePath) :
    Files × Option Fault :=
  match parts h t format with
  | (parts, f) =>
    match fs.save p parts with
    | (fs, none) => (fs, f)
    | failure => failure

end Export

end Colloquy
