import Colloquy.Text.Cut

/-!
# Paths of files

A path is read from text at once into its parts: empty parts and single points say nothing and are
left out, so every path has one spelling (`FilePath.text`). Two points lead to the parent, which
only the files themselves can tell, so they stay.
-/

namespace Colloquy

structure FilePath where
  /-- The strokes that the path begins with: none if it starts at the working directory. -/
  lead : String
  parts : List String
deriving DecidableEq, Inhabited

namespace FilePath

/-- The pieces of a text between strokes. -/
def pieces (s : String) : List String :=
  (Text.splitAt '/' s.toList).map String.ofList

/-- Exactly two strokes in front are kept apart from one; more count as one. -/
def leadOf : List Char → String
  | '/' :: '/' :: '/' :: _ => "/"
  | '/' :: '/' :: _ => "//"
  | '/' :: _ => "/"
  | _ => ""

def ofText (s : String) : FilePath :=
  ⟨leadOf s.toList, (pieces s).filter fun part => part ≠ "" && part ≠ "."⟩

def isAbsolute (p : FilePath) : Bool := p.lead ≠ ""

def text (p : FilePath) : String :=
  if p.lead = "" && p.parts.isEmpty then "." else p.lead ++ "/".intercalate p.parts

def name (p : FilePath) : String := p.parts.getLast?.getD ""

/-- The last point in a name that is neither its first nor its last character cuts off the
extension. -/
def stemOf (name : String) : String :=
  match (Text.splitAt '.' name.toList).reverse with
  | last :: piece :: rest =>
    let stem := Text.join ['.'] (piece :: rest).reverse
    if last.isEmpty || stem.isEmpty then name else String.ofList stem
  | _ => name

/-- The name without its extension. -/
def stem (p : FilePath) : String := stemOf p.name

def parent (p : FilePath) : FilePath := { p with parts := p.parts.dropLast }

/-- The path of a sibling. -/
def withName (p : FilePath) (name : String) : FilePath :=
  { p with parts := p.parts.dropLast ++ [name] }

/-- A path seen from a folder; one that starts at the top stays what it is. -/
def under (folder p : FilePath) : FilePath :=
  if p.isAbsolute then p else { folder with parts := folder.parts ++ p.parts }

end FilePath

end Colloquy
