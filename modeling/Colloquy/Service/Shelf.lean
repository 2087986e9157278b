import Colloquy.Tree.File

/-!
# The shelf of dialogue files

The dialogue files that are served are those below one folder. A name is followed from that folder,
and what lies outside it is never found, however the name is written (`Shelf.find?`). Some names no
file can have, for a character in them or for their length, and asking for one of these is a fault.
-/

namespace Colloquy.Service

variable [Text.Halves]

structure Shelf where
  files : Files
  root : FilePath
deriving Inhabited

namespace Shelf

/-- The file that a name leads to, as the names on the way from the top. -/
def find? (s : Shelf) (name : String) : Except Fault (Option (List String)) :=
  let p := s.root.under (.ofText name)
  let names := s.files.resolve p
  match (Files.refusal? s.root).or (Files.refusal? p) with
  | some f => .error f
  | none =>
    if (s.files.resolve s.root).isPrefixOf names then
      match s.files.locate ⟨"/", names⟩ with
      | .file _ => .ok (some names)
      | .tooLong => .error (.nameTooLong name)
      | _ => .ok none
    else .ok none

/-- Whether a name belongs to a dialogue file. -/
def isDialogueName (name : String) : Bool := name.endsWith ".json"

/-- Whether a path comes before another: the first two names that differ decide, and what has ended
comes first. -/
def before : List String → List String → Bool
  | [], path => !path.isEmpty
  | _ :: _, [] => false
  | a :: as, b :: bs => Text.before a b || (a == b && before as bs)

/-- The paths from the folder to all that has the name of a dialogue file, in order. -/
def paths (s : Shelf) : Except Fault (List (List String)) :=
  match s.files.locate s.root with
  | .folder names =>
    match s.files.top.find? names with
    | some e =>
      .ok (((e.descendants.map (·.1)).filter fun path =>
        path.getLast?.any isDialogueName).mergeSort fun a b => !before b a)
    | none => .ok []
  | .tooLong => .error (.nameTooLong s.root.text)
  | _ => .ok []

/-- The folder that a path is filed under. -/
def category (path : List String) : String := path.dropLast.getLast?.getD "root"

def entryDatum (path : List String) : Datum :=
  .object [("relative_path", .text ("/".intercalate path)),
    ("name", .text (FilePath.stemOf (path.getLast?.getD ""))), ("category", .text (category path))]

def listing (s : Shelf) : Except Fault Datum :=
  s.paths.map fun paths => .object [("files", .list (paths.map entryDatum))]

/-- The tree in a file of the shelf. -/
def tree (s : Shelf) (names : List String) : Reading.Step Tree :=
  Reading.file s.files ⟨"/", names⟩

end Shelf

end Colloquy.Service
