import Colloquy.Datum.Shown
import Colloquy.Text.Cut

/-!
# Writing JSON

A value is written on one line or with each member on a line of its own, with texts as they are or
in ASCII, and with members in their order or sorted by name. Writing gives nothing for a table
inside itself, which has no finite text, and for integers that are too long to be read back.
-/

namespace Colloquy.Json

variable [Text.Halves]

/-- How JSON is written: one level of indentation, or none for one line; whether in ASCII; whether
sorted by name. -/
structure Style where
  indent : Option String
  ascii : Bool
  sorted : Bool

/-- Indented by two, texts as they are. -/
def Style.file : Style := ⟨some "  ", false, false⟩

/-- On one line in ASCII. -/
def Style.line : Style := ⟨none, true, false⟩

/-- On one line in ASCII, members sorted by name. -/
def Style.sortedLine : Style := ⟨none, true, true⟩

/-- Numbers in JSON. -/
def numberLayout : Layout := ⟨-4, 15, 2, "Infinity", "NaN"⟩

def escapeCode (n : Nat) : List Char :=
  '\\' :: 'u' :: Text.Quoted.hex 4 n

/-- A character beyond ASCII by its code units. -/
def escapeUnits (c : Char) : List Char :=
  let n := Text.Half.code c
  if n < 0x10000 then escapeCode n
  else
    escapeCode (0xD800 + (n - 0x10000) / 0x400) ++ escapeCode (0xDC00 + (n - 0x10000) % 0x400)

def escapeChar (ascii : Bool) (c : Char) : List Char :=
  if c = '"' || c = '\\' then ['\\', c]
  else if c = '\n' then ['\\', 'n']
  else if c = '\r' then ['\\', 'r']
  else if c = '\t' then ['\\', 't']
  else if c = '\x0c' then ['\\', 'f']
  else if c = '\x08' then ['\\', 'b']
  else if c < ' ' then escapeCode c.toNat
  else if ascii && '~' < c then escapeUnits c
  else [c]

def writeText (ascii : Bool) (s : String) : List Char :=
  '"' :: s.toList.flatMap (escapeChar ascii) ++ ['"']

def writeScalar (ascii : Bool) : Scalar → List Char
  | .null => "null".toList
  | .bool true => "true".toList
  | .bool false => "false".toList
  | .int n => (Text.ofInt n).toList
  | .float x => numberLayout.write x
  | .text s => writeText ascii s

/-- The name of a member: a text as it is, any other key as it would be written. -/
def memberName : Scalar → String
  | .text s => s
  | k => String.ofList (writeScalar false k)

/-- The break before a member at a given depth. -/
def lineBreak (style : Style) (depth : Nat) : List Char :=
  match style.indent with
  | none => []
  | some unit => '\n' :: (List.replicate depth unit.toList).flatten

/-- What stands between two members at a given depth. -/
def separator (style : Style) (depth : Nat) : List Char :=
  if style.indent.isSome then ',' :: lineBreak style depth else [',', ' ']

/-- The members of a list or table, between brackets. -/
def enclose (style : Style) (depth : Nat) (open_ close : Char) (parts : List (List Char)) :
    List Char :=
  if parts.isEmpty then [open_, close]
  else
    [open_] ++ lineBreak style (depth + 1)
      ++ Text.join (separator style (depth + 1)) parts ++ lineBreak style depth ++ [close]

/-- The named members of a table, in the order in which they are written. -/
def arrange (style : Style) (es : List (String × List Char)) : List (String × List Char) :=
  if style.sorted then es.mergeSort fun a b => Text.notAfter a.1 b.1 else es

mutual

def writeAt (style : Style) (depth : Nat) : Datum → Option (List Char)
  | .scalar s => if s.isShowable then some (writeScalar style.ascii s) else none
  | .list xs => (writeItems style (depth + 1) xs).map (enclose style depth '[' ']')
  | .map es => (writeEntries style (depth + 1) es).map fun parts =>
    enclose style depth '\x7b' '\x7d'
      ((arrange style parts).map fun (k, cs) => writeText style.ascii k ++ [':', ' '] ++ cs)
  | .back _ => none
termination_by structural d => d

def writeItems (style : Style) (depth : Nat) : List Datum → Option (List (List Char))
  | [] => some []
  | x :: xs =>
    match writeAt style depth x, writeItems style depth xs with
    | some cs, some parts => some (cs :: parts)
    | _, _ => none
termination_by structural xs => xs

def writeEntries (style : Style) (depth : Nat) :
    List (Scalar × Datum) → Option (List (String × List Char))
  | [] => some []
  | (k, x) :: es =>
    match writeAt style depth x, writeEntries style depth es with
    | some cs, some parts => some ((memberName k, cs) :: parts)
    | _, _ => none
termination_by structural es => es

end

end Colloquy.Json
