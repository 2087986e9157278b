import Colloquy.Files.Name
import Colloquy.Files.Path
import Colloquy.Output
import Colloquy.Text.Lines

/-!
# Files

A tree of folders and files with a place in it that relative paths start from. Following a path
goes through folders only and ends at a file, at a folder, at a name that is still free in an
existing folder, or nowhere (`Files.locate`). A name that is too long for a file ends the way where
it would be looked up, and a path with a character that no name can hold names nothing at all
(`Files.refusal?`). Names are looked up by their bytes.
Normalising a path needs no files: two points take back the part before them, and at the top they do
nothing (`Files.normalize`).
-/

namespace Colloquy

variable [Text.Halves]

inductive Entry where
  | file (bytes : ByteArray)
  | folder (entries : List (String × Entry))
deriving Inhabited

namespace Entry

/-- The entry at the end of a path of names. -/
def find? : Entry → List String → Option Entry
  | e, [] => some e
  | .folder es, name :: rest =>
    match es.lookup name with
    | some e => e.find? rest
    | none => none
  | .file _, _ :: _ => none

/-- Puts an entry under a name, in place if the name is there. -/
def putIn (name : String) (e : Entry) : List (String × Entry) → List (String × Entry)
  | [] => [(name, e)]
  | (n, old) :: es => if n = name then (n, e) :: es else (n, old) :: putIn name e es

/-- Puts an entry at the end of a path, with the folders that lead there. -/
def put : Entry → List String → Entry → Entry
  | _, [], new => new
  | .folder es, name :: rest, new =>
    .folder (putIn name (((es.lookup name).getD (.folder [])).put rest new) es)
  | .file bytes, _ :: _, _ => .file bytes

mutual

/-- All that lies below an entry, with its path from there. -/
def descendants : Entry → List (List String × Entry)
  | .file _ => []
  | .folder es => descendantsIn es
termination_by structural e => e

def descendantsIn : List (String × Entry) → List (List String × Entry)
  | [] => []
  | (name, e) :: es =>
    ([name], e) :: (descendants e).map (fun (path, x) => (name :: path, x)) ++ descendantsIn es
termination_by structural es => es

end

/-- The files below an entry that were not below another one or had other bytes there, with their
paths. -/
def changes (old new : Entry) : List (List String × ByteArray) :=
  new.descendants.filterMap fun (path, e) =>
    match e, old.find? path with
    | .folder _, _ => none
    | .file b, some (.file b') => if b.data = b'.data then none else some (path, b)
    | .file b, _ => some (path, b)

end Entry

structure Files where
  top : Entry := .folder []
  /-- The names on the way from the top to the place where relative paths start. -/
  here : List String := []
deriving Inhabited

/-- Where a path leads. -/
inductive Spot where
  | folder (names : List String)
  | file (names : List String)
  /-- A name that is not taken in an existing folder. -/
  | free (names : List String)
  /-- A folder on the way is missing. -/
  | nowhere
  /-- A file stands where a folder is needed. -/
  | blocked
  /-- A name on the way, or the whole path, is too long. -/
  | tooLong
  /-- The path holds a character that no name can. -/
  | refused (fault : Fault)
deriving DecidableEq

namespace Files

/-- The names that a path starts from. -/
def origin (fs : Files) (p : FilePath) : List String :=
  if p.isAbsolute then [] else fs.here

/-- The greatest count of bytes in a name. -/
def nameLimit : Nat := 255

/-- The greatest count of bytes in a path. -/
def pathLimit : Nat := 4095

def locateFrom (top : Entry) (at_ : List String) : List String → Spot
  | [] => .folder at_
  | name :: rest =>
    if name = ".." then locateFrom top at_.dropLast rest
    else
      match top.find? (at_ ++ [name]), rest with
      | some (.folder _), rest => locateFrom top (at_ ++ [name]) rest
      | some (.file _), [] => .file (at_ ++ [name])
      | some (.file _), _ :: _ => .blocked
      | none, rest =>
        if nameLimit < Name.size name then .tooLong
        else if rest.isEmpty then .free (at_ ++ [name])
        else .nowhere

/-- Why no file can have a path: it has no bytes, or a null character that no name can hold. -/
def refusal? (p : FilePath) : Option Fault :=
  let cs := p.parts.flatMap String.toList
  if cs.any Name.isBarred then some .notEncodable
  else if cs.contains '\x00' then some .wrongValue
  else none

def locate (fs : Files) (p : FilePath) : Spot :=
  match refusal? p with
  | some f => .refused f
  | none =>
    if pathLimit < Name.size p.text then .tooLong
    else locateFrom fs.top (fs.origin p) (p.parts.map Name.kept)

/-- Whether a path, as it is written, leads to a file or folder. A stroke or point at its end asks
for a folder, and all that is written counts for its length. -/
def leads (fs : Files) (s : String) : Bool :=
  Name.size s ≤ pathLimit &&
    match fs.locate (.ofText s) with
    | .folder _ => s ≠ ""
    | .file _ =>
      match (FilePath.pieces s).getLast? with
      | some last => last ≠ "" && last ≠ "."
      | none => false
    | _ => false

/-- The names on the way from the top to the end of a path, whether it exists or not. -/
def normalize (at_ : List String) : List String → List String
  | [] => at_
  | name :: rest =>
    if name = ".." then normalize at_.dropLast rest else normalize (at_ ++ [name]) rest

def resolve (fs : Files) (p : FilePath) : List String :=
  normalize (fs.origin p) p.parts

/-- The bytes of a file. -/
def bytes (fs : Files) (p : FilePath) : Except Fault ByteArray :=
  match fs.locate p with
  | .file names =>
    match fs.top.find? names with
    | some (.file b) => .ok b
    | _ => .error (.missingFile p.text)
  | .folder _ => .error (.isDirectory p.text)
  | .tooLong => .error (.nameTooLong p.text)
  | _ => .error (.missingFile p.text)

/-- The text of bytes, with all line ends the same. -/
def textOf (b : ByteArray) : Except Fault String :=
  match String.fromUTF8? b with
  | some s => .ok (String.ofList (Text.unifyLineEnds s.toList))
  | none => .error .notUtf8

/-- The text of a file. -/
def read (fs : Files) (p : FilePath) : Except Fault String :=
  match fs.bytes p with
  | .ok b => textOf b
  | .error f => .error f

def put (fs : Files) (names : List String) (e : Entry) : Files :=
  { fs with top := fs.top.put names e }

/-- Makes one folder in an existing one. -/
def addFolder (fs : Files) (p : FilePath) : Files × Option Fault :=
  match fs.locate p with
  | .folder _ => (fs, none)
  | .free names => (fs.put names (.folder []), none)
  | .file _ => (fs, some (.fileExists p.text))
  | .blocked => (fs, some (.notDirectory p.text))
  | .tooLong => (fs, some (.nameTooLong p.text))
  | .refused f => (fs, some f)
  | .nowhere => (fs, some (.missingFile p.text))

/-- Makes a folder, given by its parts from the last to the first, and those that lead to it. -/
def addFoldersFrom (fs : Files) (lead : String) : List String → Files × Option Fault
  | [] => fs.addFolder ⟨lead, []⟩
  | name :: up =>
    match fs.locate ⟨lead, (name :: up).reverse⟩ with
    | .nowhere =>
      match fs.addFoldersFrom lead up with
      | (fs, none) => fs.addFolder ⟨lead, (name :: up).reverse⟩
      | (fs, some f) => (fs, some f)
    | _ => fs.addFolder ⟨lead, (name :: up).reverse⟩

/-- Makes a folder and those that lead to it. -/
def addFolders (fs : Files) (p : FilePath) : Files × Option Fault :=
  fs.addFoldersFrom p.lead p.parts.reverse

/-- Writes a file into an existing folder. -/
def writeBytes (fs : Files) (p : FilePath) (b : ByteArray) : Files × Option Fault :=
  match fs.locate p with
  | .file names => (fs.put names (.file b), none)
  | .free names => (fs.put names (.file b), none)
  | .folder _ => (fs, some (.isDirectory p.text))
  | .blocked => (fs, some (.notDirectory p.text))
  | .tooLong => (fs, some (.nameTooLong p.text))
  | .refused f => (fs, some f)
  | .nowhere => (fs, some (.missingFile p.text))

/-- Writes a text file into an existing folder, as far as its parts can be written. -/
def write (fs : Files) (p : FilePath) (parts : List String) : Files × Option Fault :=
  let (s, f) := Output.written parts
  match fs.writeBytes p s.toUTF8 with
  | (fs, none) => (fs, f)
  | (fs, some f) => (fs, some f)

/-- Writes a text file, in folders that are made for it. -/
def save (fs : Files) (p : FilePath) (parts : List String) : Files × Option Fault :=
  match fs.addFolders p.parent with
  | (fs, none) => fs.write p parts
  | (fs, some f) => (fs, some f)

/-- What stands at the place where relative paths start. -/
def ground (fs : Files) : Entry := (fs.top.find? fs.here).getD (.folder [])

end Files

end Colloquy
