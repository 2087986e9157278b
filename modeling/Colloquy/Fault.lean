import Colloquy.Datum.Shown
import Colloquy.Json.Reader

/-!
# Faults

Everything that can stop an operation, by its cause. The first group is about dialogue itself and
has messages of its own (`Fault.message`); the second is about values that an operation cannot be
done with, and the third about files.
-/

namespace Colloquy

variable [Text.Halves]

/-- The phases of a conversation. -/
inductive Phase where
  | idle
  | presenting
  | resolving
  | terminal
  | error
deriving DecidableEq, Repr, Inhabited

def Phase.name : Phase → String
  | .idle => "idle"
  | .presenting => "presenting"
  | .resolving => "resolving"
  | .terminal => "terminal"
  | .error => "error"

/-- Why data is not a dialogue tree. -/
inductive FormatFlaw where
  | tree (kind : String)
  | nodes
  | node (id kind : String)
  | choices (id : String)
  | choice (id : String) (index : Nat)
  | duplicateNode (id tree : String)
  | json (flaw : Json.Flaw)
deriving DecidableEq

def FormatFlaw.message : FormatFlaw → String
  | .tree kind => "Dialogue tree must be an object, got " ++ kind
  | .nodes => "Tree 'nodes' must be an object keyed by node id"
  | .node id kind => "Node '" ++ id ++ "' must be an object, got " ++ kind
  | .choices id => "Node '" ++ id ++ "' choices must be a list"
  | .choice id index =>
    "Node '" ++ id ++ "' choice " ++ Text.ofNat index ++ " must be an object"
  | .duplicateNode id owner => "Duplicate node id '" ++ id ++ "' in tree '" ++ owner ++ "'"
  | .json flaw => "Invalid dialogue JSON: " ++ flaw.message

inductive Fault where
  | format (flaw : FormatFlaw)
  | invalidChoice (index : Datum) (available : Nat) (node : Datum)
  | budgetExceeded (chain : List String) (budget : Datum)
  | cannotAdvance (phase : Phase)
  | unknownTemplate (name : Datum) (known : List String)
  | unknownStatus (status : Datum)
  | unknownFormat (format : Datum)
  /-- A value of a kind that the operation is not defined on. -/
  | wrongKind
  /-- A value of the right kind that the operation does not accept. -/
  | wrongValue
  /-- A value without named fields where one with fields is needed. -/
  | noFields
  /-- An integer beyond the range of floating point numbers. -/
  | beyondRange
  /-- Values that are nested too deeply to be read or compared. -/
  | tooDeep
  | missingFile (path : String)
  | isDirectory (path : String)
  | notDirectory (path : String)
  | nameTooLong (path : String)
  | fileExists (path : String)
  | notUtf8
  /-- A text with half a surrogate pair where bytes are needed. -/
  | notEncodable
  /-- A name that no host has. -/
  | badName
deriving DecidableEq

/-- The names of the export formats. -/
def exportFormats : List String := ["json", "presentation", "csv"]

namespace Fault

def message : Fault → String
  | .format flaw => flaw.message
  | .invalidChoice index available node =>
    "Invalid choice index " ++ index.shown
      ++ (if node.isTrue then " at node '" ++ node.plain ++ "'" else "")
      ++ ": " ++ Text.ofNat available ++ " choice(s) available"
  | .budgetExceeded chain budget =>
    "Auto-advance budget of " ++ budget.plain ++ " hops exceeded: " ++ " -> ".intercalate chain
  | .cannotAdvance phase => "Cannot advance a session in state '" ++ phase.name ++ "'"
  | .unknownTemplate name known =>
    "Unknown dialogue template '" ++ name.plain ++ "'. Available: " ++ ", ".intercalate known
  | .unknownStatus status => status.shown ++ " is not a valid QuestStatus"
  | .unknownFormat given =>
    "Unknown export format '" ++ given.plain ++ "'. Expected one of: "
      ++ ", ".intercalate exportFormats
  | .missingFile path => "Dialogue file not found: " ++ path
  | .isDirectory path => "[Errno 21] Is a directory: " ++ Text.quote path
  | .notDirectory path => "[Errno 20] Not a directory: " ++ Text.quote path
  | .nameTooLong path => "[Errno 36] File name too long: " ++ Text.quote path
  | .fileExists path => "[Errno 17] File exists: " ++ Text.quote path
  | .wrongKind => "the operation is not defined on values of this kind"
  | .wrongValue => "the operation does not accept this value"
  | .noFields => "the value has no named fields"
  | .beyondRange => "int too large to convert to float"
  | .tooDeep => "the values are nested too deeply"
  | .notUtf8 => "the file is not UTF-8 text"
  | .notEncodable => "the text cannot be written as UTF-8"
  | .badName => "no host has the name"

/-- Whether a fault is about dialogue itself. -/
def isDialogue : Fault → Bool
  | .format _ | .invalidChoice .. | .budgetExceeded .. | .cannotAdvance _ => true
  | _ => false

/-- Whether a fault is about a file that cannot be opened. -/
def isFile : Fault → Bool
  | .missingFile _ | .isDirectory _ | .notDirectory _ | .nameTooLong _
    | .fileExists _ => true
  | _ => false

end Fault

end Colloquy
