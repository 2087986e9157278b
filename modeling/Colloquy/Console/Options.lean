import Colloquy.Text.Cut

/-!
# Options

Arguments are options and positional ones. An option is a long name after two hyphens or a letter
after one; letters may stand together after one hyphen. A value stands behind the long name and an
equals sign, behind the letter, or in the next argument, whatever that looks like. After two lone
hyphens everything is positional.
-/

namespace Colloquy.Console

/-- What the value of an option or an argument has to be. -/
inductive ValueKind where
  | text
  | integer
  | oneOf (names : List String)
  /-- A path, which may lead nowhere. -/
  | path
  /-- A path that leads to a file or folder. -/
  | existing
deriving DecidableEq, Inhabited

structure OptionSpec where
  name : String
  letter : Option Char := none
  /-- What the value has to be, if the option takes one. -/
  value : Option ValueKind := none
deriving DecidableEq, Inhabited

/-- An option that was given, with its value if it takes one. -/
structure Setting where
  name : String
  value : Option String := none
deriving DecidableEq, Inhabited

/-- What one argument is. -/
inductive Argument where
  | positional
  | endOfOptions
  | settings (ss : List Setting)
  /-- Options of which the last takes the next argument for its value. -/
  | wanting (ss : List Setting) (name : String)
deriving DecidableEq

namespace Options

def longArgument (specs : List OptionSpec) (name : List Char) (value : Option (List Char)) :
    Option Argument :=
  match specs.find? fun o => o.name = String.ofList name with
  | none => none
  | some o =>
    match o.value.isSome, value with
    | true, some v => some (.settings [⟨o.name, some (String.ofList v)⟩])
    | true, none => some (.wanting [] o.name)
    | false, some _ => none
    | false, none => some (.settings [⟨o.name, none⟩])

def lettersArgument (specs : List OptionSpec) : List Char → Option Argument
  | [] => some (.settings [])
  | c :: r =>
    match specs.find? fun o => o.letter = some c with
    | none => none
    | some o =>
      if o.value.isSome then
        if r.isEmpty then some (.wanting [] o.name)
        else some (.settings [⟨o.name, some (String.ofList r)⟩])
      else
        match lettersArgument specs r with
        | some (.settings ss) => some (.settings (⟨o.name, none⟩ :: ss))
        | some (.wanting ss name) => some (.wanting (⟨o.name, none⟩ :: ss) name)
        | other => other

/-- What an argument is, unless it is an option that does not exist. -/
def classify (specs : List OptionSpec) (arg : String) : Option Argument :=
  match arg.toList with
  | ['-', '-'] => some .endOfOptions
  | '-' :: '-' :: r =>
    match Text.breakAt? ['='] r with
    | some (name, value) => longArgument specs name (some value)
    | none => longArgument specs r none
  | '-' :: c :: r => lettersArgument specs (c :: r)
  | _ => some .positional

/-- The options and the positional arguments of a list. Where options only come first, everything
from the first positional argument on is positional. -/
def read (specs : List OptionSpec) (mixed : Bool) :
    List String → Option (List Setting × List String)
  | [] => some ([], [])
  | arg :: rest =>
    match classify specs arg with
    | none => none
    | some .endOfOptions => some ([], rest)
    | some .positional =>
      if mixed then (read specs mixed rest).map fun (ss, ps) => (ss, arg :: ps)
      else some ([], arg :: rest)
    | some (.settings given) => (read specs mixed rest).map fun (ss, ps) => (given ++ ss, ps)
    | some (.wanting given name) =>
      match rest with
      | [] => none
      | v :: rest =>
        (read specs mixed rest).map fun (ss, ps) => (given ++ ⟨name, some v⟩ :: ss, ps)

/-- Whether an option is given. -/
def has (ss : List Setting) (name : String) : Bool := ss.any (·.name = name)

/-- The value that was given last for an option. -/
def value? (ss : List Setting) (name : String) : Option String :=
  (ss.reverse.find? (·.name = name)).bind (·.value)

end Options

end Colloquy.Console
