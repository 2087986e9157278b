import Colloquy.Console.Options
import Colloquy.Files
import Colloquy.Number.Numeral

/-!
# Forms

A form says which options and arguments a command takes and what their values have to be. What is
given for it is checked in turn: the options in the order in which they are first given, each with
its last value, then the arguments, then whether there are more arguments than the form has. The
first thing that is wrong decides (`Filled.refusal?`). Most of what can be wrong is a misuse; a path
that no file can have is a fault.
-/

namespace Colloquy.Console

variable [Text.Halves]

/-- Why a command is not run. -/
inductive Refusal where
  | misuse
  | fault (f : Fault)
deriving DecidableEq

/-- What is wrong with a value. -/
def ValueKind.refusal? (fs : Files) (s : String) : ValueKind → Option Refusal
  | .text => none
  | .integer => if (Number.Numeral.int? s.toList).isSome then none else some .misuse
  | .oneOf names => if s ∈ names then none else some .misuse
  | .path => (Files.refusal? (.ofText s)).map .fault
  | .existing =>
    match Files.refusal? (.ofText s) with
    | some f => some (.fault f)
    | none => if fs.leads s then none else some .misuse

def ValueKind.isPath : ValueKind → Bool
  | .path | .existing => true
  | _ => false

structure Form where
  options : List OptionSpec := []
  arguments : List ValueKind
deriving DecidableEq, Inhabited

/-- A form and what is given for it. -/
structure Filled where
  form : Form
  settings : List Setting
  arguments : List String
deriving DecidableEq, Inhabited

def Form.fill? (f : Form) (args : List String) : Option Filled :=
  (Options.read f.options true args).map fun (settings, arguments) =>
    { form := f, settings, arguments }

namespace Filled

/-- The values that are given for options, in the order in which these are first given. -/
def optionValues (f : Filled) : List (ValueKind × String) :=
  ((f.settings.map (·.name)).eraseDups).filterMap fun name => do
    let spec ← f.form.options.find? (·.name = name)
    return (← spec.value, ← Options.value? f.settings name)

/-- What is wrong with arguments. -/
def argumentsRefusal? (fs : Files) : List ValueKind → List String → Option Refusal
  | [], [] => none
  | kind :: kinds, s :: ss => (kind.refusal? fs s).or (argumentsRefusal? fs kinds ss)
  | _, _ => some .misuse

/-- What is wrong with what is given. -/
def refusal? (fs : Files) (f : Filled) : Option Refusal :=
  (f.optionValues.findSome? fun (kind, s) => kind.refusal? fs s).or
    (argumentsRefusal? fs f.form.arguments f.arguments)

/-- The paths among what is given. -/
def paths (f : Filled) : List String :=
  ((f.optionValues ++ f.form.arguments.zip f.arguments).filter fun (kind, _) => kind.isPath).map
    (·.2)

/-- Whether an option is given. -/
def has (f : Filled) (name : String) : Bool := Options.has f.settings name

/-- The value that is given for an option. -/
def value? (f : Filled) (name : String) : Option String := Options.value? f.settings name

end Filled

end Colloquy.Console
