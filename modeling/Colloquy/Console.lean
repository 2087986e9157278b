import Colloquy.Console.Form
import Colloquy.Console.Sheet
import Colloquy.Export
import Colloquy.Player
import Colloquy.Template
import Colloquy.Text.Marks

/-!
# The console

The commands of the program. A call is read from arguments (`Call.ofArguments?`), checked against
the files (`Call.command?`), then run on these, a clock and the lines of the input
(`Command.perform`). The outcome is an exit status, what is written to the output and to the error
output, and the files as they are afterwards. A line that the output cannot take breaks a command
off; the error output takes all lines, with halves of surrogate pairs written by their codes. A
command line that is no command, or that names a file that does not exist, is a misuse and does
nothing.
-/

namespace Colloquy.Console

variable [Text.Halves]

inductive Action where
  | validate (file : String) (detailed : Bool)
  | stats (file : String)
  | showNode (file node : String)
  | play (file : String) (budget : Int) (showIds : Bool)
  | export (file : String) (output : Option String) (format : Export.Format)
  | template (name : String) (output treeId speaker : Option String)
deriving DecidableEq, Inhabited

/-- The names of the commands, each with its form. -/
def forms : List (String × Form) :=
  [("validate",
      { options := [{ name := "detailed", letter := some 'd' }], arguments := [.existing] }),
    ("stats", { arguments := [.existing] }),
    ("show-node", { arguments := [.existing, .text] }),
    ("play",
      { options := [{ name := "budget", value := some .integer }, { name := "show-nodes" }]
        arguments := [.existing] }),
    ("export",
      { options := [{ name := "output", letter := some 'o', value := some .path },
          { name := "format", value := some (.oneOf exportFormats) }]
        arguments := [.existing] }),
    ("template",
      { options := [{ name := "output", letter := some 'o', value := some .path },
          { name := "tree-id", value := some .text }, { name := "speaker", value := some .text }]
        arguments := [.oneOf Template.names] })]

/-- The action that a command asks for with what is given for it. -/
def Action.ofFilled? (command : String) (f : Filled) : Option Action :=
  match command, f.arguments with
  | "validate", [file] => some (.validate file (f.has "detailed"))
  | "stats", [file] => some (.stats file)
  | "show-node", [file, node] => some (.showNode file node)
  | "play", [file] =>
    let budget := match f.value? "budget" with
      | some s => Number.Numeral.int? s.toList
      | none => some 32
    budget.map fun budget => .play file budget (f.has "show-nodes")
  | "export", [file] =>
    let format := match f.value? "format" with
      | some s => Export.Format.ofText? s
      | none => some .presentation
    format.map fun format => .export file (f.value? "output") format
  | "template", [name] =>
    some (.template name (f.value? "output") (f.value? "tree-id") (f.value? "speaker"))
  | _, _ => none

/-- A command with what is given for it. -/
structure Call where
  /-- Whether all notices are written, and with their levels and channels. -/
  verbose : Bool
  command : String
  given : Filled
deriving DecidableEq, Inhabited

structure Command where
  verbose : Bool
  action : Action
deriving DecidableEq, Inhabited

namespace Call

/-- The call that arguments are. -/
def ofArguments? (args : List String) : Option Call :=
  match Options.read [{ name := "verbose", letter := some 'v' }] false args with
  | some (ss, command :: rest) => do
    let form ← forms.lookup command
    return { verbose := Options.has ss "verbose", command, given := ← form.fill? rest }
  | _ => none

/-- The command that a call asks for, unless something is wrong with what is given. -/
def command? (fs : Files) (c : Call) : Except Refusal Command :=
  match c.given.refusal? fs, Action.ofFilled? c.command c.given with
  | some r, _ => .error r
  | none, some action => .ok { verbose := c.verbose, action }
  | none, none => .error .misuse

end Call

/-- What a command has to work with. -/
structure Surroundings where
  files : Files := {}
  clock : Clock := {}
  input : List String := []
deriving Inhabited

/-- What a command leaves behind. -/
structure Outcome where
  status : Nat := 0
  output : String := ""
  errors : String := ""
  files : Files
  /-- Why the command broke off, if it did. -/
  fault : Option Fault := none
  isMisuse : Bool := false
deriving Inhabited

/-- A line as it is written. -/
def lineOf (s : String) : String := Text.dropMarks s ++ "\n"

/-- Notices, latest first, as they are written to the error output. -/
def noticesWritten (verbose : Bool) (ns : List Notice) : String :=
  String.join ((ns.reverse.filter fun n => verbose || n.level ≠ .debug).map fun n =>
    Text.Quoted.spelled (if verbose then n.line else n.text) ++ "\n")

/-- A line as it is written to the error output. -/
def complaint (s : String) : String := Text.Quoted.spelled (lineOf s)

/-- What the player says, latest first, as it is written. Nothing ends a prompt's line. -/
def saidWritten (said : List Player.Utterance) : String :=
  String.join (said.reverse.map fun
    | .say s => s ++ "\n"
    | .ask s => s)

/-- A fault that ends a command without a word. -/
def broken (files : Files) (output errors : String) (f : Fault) : Outcome :=
  { status := 1, output, errors, files, fault := some f }

/-- A command that writes lines to the output and ends. -/
def shown (files : Files) (errors : String) (status : Nat) (lines : List String) : Outcome :=
  match Output.written (lines.map lineOf) with
  | (output, none) => { status, output, errors, files }
  | (output, some f) => broken files output errors f

/-- The answer to a tree that cannot be loaded. -/
def unloaded (files : Files) (errors : String) (f : Fault) : Outcome :=
  if f.isDialogue || f.isFile then
    { status := 1, errors := errors ++ complaint ("\n❌ Error: " ++ f.message), files }
  else broken files "" errors f

/-- What a command does with a tree that was loaded from a file. -/
structure Loaded where
  verbose : Bool
  path : FilePath
  tree : Tree
  reading : Reading
  around : Surroundings

namespace Loaded

def errors (l : Loaded) : String := noticesWritten l.verbose l.reading.notices

def shown (l : Loaded) (status : Nat) (lines : List String) : Outcome :=
  Console.shown l.around.files l.errors status lines

def broken (l : Loaded) (f : Fault) : Outcome :=
  Console.broken l.around.files "" l.errors f

def validate (l : Loaded) (detailed : Bool) : Outcome :=
  match l.tree.validate with
  | .ok report =>
    l.shown (if report.isValid then 0 else 1)
      (Sheet.validation l.tree report l.path.name detailed)
  | .error f => l.broken f

def stats (l : Loaded) : Outcome := l.shown 0 (Sheet.statistics l.tree l.path.name)

def showNode (l : Loaded) (id : String) : Outcome :=
  match l.tree.find? (.text id) with
  | some n =>
    match Sheet.node l.reading.heap n with
    | .ok lines => l.shown 0 lines
    | .error f => l.broken f
  | none =>
    let missing := "❌ Node '" ++ id ++ "' not found in " ++ l.path.name
    { l.shown 1 (Sheet.nodeIds l.tree) with errors := l.errors ++ complaint missing }

/-- The play of the tree, on the initial context of the tree. -/
def opened (l : Loaded) (budget : Int) : Except Fault Player.Play := do
  let store ← Store.make l.reading.heap [] (.map l.tree.initial) []
  return {
    session := {
      tree := l.tree, budget := .int budget
      world := { store, clock := l.around.clock, journal := l.reading.notices } }
    isStream := true }

def played (l : Loaded) (p : Player.Play) (fault : Option Fault) : Outcome :=
  let status := if fault.isSome then 1 else 0
  let fault := match fault with
    | some (.budgetExceeded ..) => none
    | other => other
  { status, fault, output := saidWritten p.said
    errors := noticesWritten l.verbose p.session.world.journal, files := l.around.files }

def play (l : Loaded) (budget : Int) (showIds : Bool) : Outcome :=
  match l.opened budget with
  | .error f => l.broken f
  | .ok p =>
    match Player.play { showIds } l.around.input p with
    | .ok _ p => l.played p none
    | .error f p => l.played p (some f)

/-- The path that a format is exported to if none is given: beside the file. -/
def exportPath (l : Loaded) (format : Export.Format) : FilePath :=
  let extension := match format with
    | .csv => ".csv"
    | _ => "." ++ format.name ++ ".json"
  l.path.withName (l.path.stem ++ extension)

def export_ (l : Loaded) (output : Option String) (format : Export.Format) : Outcome :=
  let p := match output with
    | some s => FilePath.ofText s
    | none => l.exportPath format
  match Export.save l.reading.heap l.tree format l.around.files p with
  | (files, none) =>
    Console.shown files l.errors 0 ["✅ Exported to: " ++ p.text,
      "   • " ++ Text.ofNat l.tree.nodes.length ++ " nodes"]
  | (files, some f) => { l.broken f with files }

end Loaded

/-- Loads the tree in the file of a command, or answers that it cannot be loaded. -/
def Command.load (c : Command) (around : Surroundings) (file : String) : Except Outcome Loaded :=
  let path := FilePath.ofText file
  match Reading.file around.files path {} with
  | .ok tree reading => .ok { verbose := c.verbose, path, tree, reading, around }
  | .error f reading =>
    .error (unloaded around.files (noticesWritten c.verbose reading.notices) f)

/-- Goes on with the tree in the file of a command. -/
def Command.withTree (c : Command) (around : Surroundings) (file : String)
    (k : Loaded → Outcome) : Outcome :=
  match c.load around file with
  | .ok l => k l
  | .error r => r

/-- Writes the tree of a template to a file or to the output. -/
def makeTemplate (c : Command) (around : Surroundings) (name : String)
    (output treeId speaker : Option String) : Outcome :=
  let given := fun (s : Option String) => (s.map Datum.text).getD .null
  match Template.build (.text name) (given treeId) (given speaker) {} with
  | .error f reading => broken around.files "" (noticesWritten c.verbose reading.notices) f
  | .ok tree reading =>
    let errors := noticesWritten c.verbose reading.notices
    match output with
    | none | some "" => shown around.files errors 0 (tree.toJson? reading.heap).toList
    | some path =>
      match tree.save reading.heap around.files (.ofText path) with
      | (files, none) =>
        shown files errors 0 ["✅ Wrote " ++ name ++ " template to: " ++ path]
      | (files, some f) => broken files "" errors f

/-- Runs a command. -/
def Command.perform (c : Command) (around : Surroundings) : Outcome :=
  match c.action with
  | .validate file detailed => c.withTree around file (·.validate detailed)
  | .stats file => c.withTree around file (·.stats)
  | .showNode file node => c.withTree around file (·.showNode node)
  | .play file budget showIds => c.withTree around file (·.play budget showIds)
  | .export file output format => c.withTree around file (·.export_ output format)
  | .template name output treeId speaker => makeTemplate c around name output treeId speaker

def misuse (around : Surroundings) : Outcome :=
  { status := 2, files := around.files, isMisuse := true }

/-- The answer to a call that is not run. -/
def refuse (around : Surroundings) : Refusal → Outcome
  | .misuse => misuse around
  | .fault f => broken around.files "" "" f

/-- Runs the command that arguments ask for. -/
def run (args : List String) (around : Surroundings) : Outcome :=
  match Call.ofArguments? args with
  | none => misuse around
  | some call =>
    match call.command? around.files with
    | .ok c => c.perform around
    | .error r => refuse around r

end Colloquy.Console
