import Colloquy.Json.Parts
import Colloquy.Tree

/-!
# Reading dialogue trees

A tree is read from data: fields that are missing or empty get their defaults, a single condition,
effect, tag or requirement stands for a list of one, and all conditions and effects are read at
once. Reading stops at the first thing that does not have the shape of a tree
(`Reading.tree`). The values that effects write are put into a heap on the way.
-/

namespace Colloquy

variable [Text.Halves]

/-- What has been made while a tree is read: a heap, and the notices given, newest first. -/
structure Reading where
  heap : Heap := #[]
  notices : List Notice := []
deriving Inhabited

namespace Reading

abbrev Step := EStateM Fault Reading

def noteAll (ns : List Notice) : Step Unit :=
  modify fun r => { r with notices := ns.reverse ++ r.notices }

def guard (d : Datum) : Step Guard := do
  match Condition.ofDatum d with
  | .ok c => noteAll c.readNotices; return ⟨d, c⟩
  | .error f => throw f

def deed (d : Datum) : Step Deed := do
  let (heap, e) := Effect.ofDatum (← get).heap d
  modify fun r => { r with heap }
  noteAll e.readNotices
  return ⟨d, e⟩

/-- The items of a list; nothing is no item, and anything else is one. -/
def itemsOf : Datum → List Datum
  | .null => []
  | .list ds => ds
  | d => [d]

def choice (es : Table Datum) : Step Choice := do
  let guards ← (itemsOf (es.field "conditions")).mapM guard
  let deeds ← (itemsOf (es.field "effects")).mapM deed
  return {
    text := (es.field "text").orElse (.text "")
    goto := (es.field "goto").orElse .null
    guards, deeds
    priority := (es.field "priority").orElse (.int 0)
    once := (es.field "once").isTrue
    requirements := itemsOf (es.field "requirements") }

/-- The choices of a node, counted from a given index. -/
def choices (id : String) : Nat → List Datum → Step (List Choice)
  | _, [] => return []
  | i, .map es :: ds => do
    let c ← choice es
    let cs ← choices id (i + 1) ds
    return c :: cs
  | i, _ :: _ => throw (.format (.choice id i))

/-- The node with given choices and fields. -/
def nodeWith (id : Scalar) (choices : List Choice) (es : Table Datum) : Step Node := do
  let guards ← (itemsOf (es.field "conditions")).mapM guard
  let deeds ← (itemsOf (es.field "effects")).mapM deed
  return {
    id, choices, guards, deeds
    text := (es.field "text").orElse (.text "")
    speaker := (es.field "speaker").orElse (.text "")
    portrait := es.field "portrait"
    autoAdvance := .bool (es.field "autoAdvance").isTrue
    next := (es.field "nextNode").orElse .null
    voiceLine := es.field "voiceLine"
    tags := itemsOf (es.field "tags")
    priority := (es.field "priority").orElse (.int 0) }

def node (id : Scalar) : Datum → Step Node
  | .map es => do
    match (Table.field es "choices").orElse (.list []) with
    | .list ds => nodeWith id (← choices (Datum.scalar id).plain 0 ds) es
    | _ => throw (.format (.choices (Datum.scalar id).plain))
  | d => throw (.format (.node (Datum.scalar id).plain d.kind))

def nodes : List (Scalar × Datum) → Step (List Node)
  | [] => return []
  | (k, d) :: es => do
    let n ← node k d
    let ns ← nodes es
    return n :: ns

def table (d : Datum) : Step (Table Datum) :=
  match Table.ofDatum (d.orElse (.map [])) with
  | .ok t => return t
  | .error f => throw f

/-- The tree with given nodes and fields. -/
def treeWith (initial metadata : Table Datum) (nodes : List Node) (es : Table Datum) :
    Step Tree := do
  let t : Tree := {
    id := .text ((es.field "id").orElse (.text "")).plain
    title := (es.field "title").orElse (.text "")
    description := (es.field "description").orElse (.text "")
    start := (es.field "startNode").orElse (.text "start")
    nodes, initial, metadata }
  match t.lookup t.start with
  | .ok (some _) => return t
  | .ok none => noteAll [.missingStart t.name t.start]; return t
  | .error f => throw f

def tree : Datum → Step Tree
  | .map es => do
    match (Table.field es "nodes").orElse (.map []) with
    | .map raw =>
      let initial ← table (Table.field es "variables")
      let metadata ← table (Table.field es "metadata")
      treeWith initial metadata (← nodes raw) es
    | _ => throw (.format .nodes)
  | d => throw (.format (.tree d.kind))

/-- A tree from JSON text. -/
def text (s : String) : Step Tree :=
  match Json.read s with
  | .ok d => tree d
  | .error (.malformed flaw) => throw (.format (.json flaw))
  | .error .longInteger => throw .wrongValue
  | .error .tooDeep => throw .tooDeep

end Reading

namespace Tree

/-- The tree that data describes, with a heap that holds the values its effects write. -/
def ofDatum (h : Heap) (d : Datum) : Except Fault (Tree × Heap) :=
  match Reading.tree d { heap := h } with
  | .ok t r => .ok (t, r.heap)
  | .error f _ => .error f

/-- The tree as indented JSON; there is none while an effect's value is inside itself. -/
def toJson? (h : Heap) (t : Tree) : Option String :=
  Json.write? .file (t.toDatum h)

end Tree

end Colloquy
