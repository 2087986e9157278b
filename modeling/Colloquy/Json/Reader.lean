import Colloquy.Datum
import Colloquy.Number.Numeral
import Colloquy.Text.Half

/-!
# Reading JSON

A text is read from the left; the first place where it stops being JSON is reported with the cause
and the position, in characters from the start of the text (`Flaw`). `NaN`, `Infinity` and
`-Infinity` are numbers here, a number with a point or an exponent is a floating point one, and of
two members with one name the first gives the place and the last the value. An escape may name half
of a surrogate pair without the other. Lists and tables can be nested up to a bound (`depthLimit`).
-/

namespace Colloquy.Json

variable [Text.Halves]

inductive Cause where
  | value
  | name
  | colon
  | comma
  | openText
  | controlCharacter
  | escape
  | codeEscape
  | extraData
  | byteOrderMark
deriving DecidableEq, Repr

def Cause.message : Cause → String
  | .value => "Expecting value"
  | .name => "Expecting property name enclosed in double quotes"
  | .colon => "Expecting ':' delimiter"
  | .comma => "Expecting ',' delimiter"
  | .openText => "Unterminated string starting at"
  | .controlCharacter => "Invalid control character at"
  | .escape => "Invalid \\escape"
  | .codeEscape => "Invalid \\uXXXX escape"
  | .extraData => "Extra data"
  | .byteOrderMark => "Unexpected UTF-8 BOM (decode using utf-8-sig)"

/-- Why reading stops: the text is not JSON from where so many characters are left, an integer has
more digits than can be read, or lists and tables are nested too deeply. -/
inductive Stop where
  | flaw (cause : Cause) (left : Nat)
  | longInteger
  | tooDeep
deriving DecidableEq, Repr

abbrev Reads (α : Type) := Except Stop (α × List Char)

def stop {α : Type} (cause : Cause) (left : List Char) : Reads α :=
  .error (.flaw cause left.length)

def isGap (c : Char) : Bool :=
  c = ' ' || c = '\t' || c = '\n' || c = '\r'

def skip (cs : List Char) : List Char :=
  cs.dropWhile isGap

open Text.Digit (hex?) in
/-- The number that four hexadecimal digits denote. -/
def code? (a b c d : Char) : Option Nat := do
  return (((← hex? a) * 16 + (← hex? b)) * 16 + (← hex? c)) * 16 + (← hex? d)

/-- The character that a letter after a backslash stands for. -/
def letter? (c : Char) : Option Char :=
  if c = '"' || c = '\\' || c = '/' then some c
  else if c = 'b' then some '\x08'
  else if c = 'f' then some '\x0c'
  else if c = 'n' then some '\n'
  else if c = 'r' then some '\r'
  else if c = 't' then some '\t'
  else none

/-- The code points of a text up to its closing quote. The first argument is what follows its
opening quote. -/
def codes (start : List Char) : List Char → Reads (List Nat)
  | [] => .error (.flaw .openText (start.length + 1))
  | '"' :: r => .ok ([], r)
  | '\\' :: 'u' :: a :: b :: c :: d :: e :: r =>
    match code? a b c d with
    | some k => (codes start (e :: r)).map fun (ks, rest) => (k :: ks, rest)
    | none => stop .codeEscape ('u' :: a :: b :: c :: d :: e :: r)
  | '\\' :: c :: r =>
    if c = 'u' then stop .codeEscape (c :: r)
    else
      match letter? c with
      | some k => (codes start r).map fun (ks, rest) => (k.toNat :: ks, rest)
      | none => stop .escape ('\\' :: c :: r)
  | ['\\'] => .error (.flaw .openText (start.length + 1))
  | c :: r =>
    if c < ' ' then stop .controlCharacter (c :: r)
    else (codes start r).map fun (ks, rest) => (c.toNat :: ks, rest)

def isHigh (k : Nat) : Bool := 0xD800 ≤ k && k < 0xDC00

def isLow (k : Nat) : Bool := 0xDC00 ≤ k && k < 0xE000

/-- The characters of a list of code points. A high and a low half of a pair together name one. -/
def characters : List Nat → List Char
  | [] => []
  | h :: l :: r =>
    if isHigh h && isLow l then
      Char.ofNat (0x10000 + (h - 0xD800) * 0x400 + (l - 0xDC00)) :: characters r
    else Text.Half.character h :: characters (l :: r)
  | [k] => [Text.Half.character k]

/-- A text whose opening quote has been read. -/
def text (cs : List Char) : Reads String :=
  (codes cs cs).map fun (ks, rest) => (String.ofList (characters ks), rest)

def digitsValue (ds : List Char) : Nat :=
  ds.foldl (fun n c => 10 * n + (c.toNat - 48)) 0

/-- The fraction of a number: a point followed by digits. -/
def fraction (cs : List Char) : List Char × List Char :=
  match cs with
  | '.' :: c :: r =>
    if c.isDigit then (c :: r.takeWhile Char.isDigit, r.dropWhile Char.isDigit) else ([], cs)
  | _ => ([], cs)

/-- The exponent of a number: the letter, perhaps a sign, and digits. -/
def exponent (cs : List Char) : Option Int × List Char :=
  match cs with
  | e :: r =>
    if e = 'e' || e = 'E' then
      let (negative, body) := Number.Numeral.sign r
      let ds := body.takeWhile Char.isDigit
      if ds.isEmpty then (none, cs)
      else (some (Binary64.signed negative (digitsValue ds)), body.dropWhile Char.isDigit)
    else (none, cs)
  | [] => (none, cs)

def number (cs : List Char) : Reads Datum :=
  let negative := cs.head? = some '-'
  let body := if negative then cs.drop 1 else cs
  let whole :=
    match body with
    | '0' :: _ => ['0']
    | _ => body.takeWhile Char.isDigit
  if whole.isEmpty then stop .value cs
  else
    let (part, rest) := fraction (body.drop whole.length)
    let (power, rest) := exponent rest
    if part.isEmpty && power.isNone then
      if whole.length ≤ Number.Numeral.digitLimit then
        .ok (.int (Binary64.signed negative (digitsValue whole)), rest)
      else .error .longInteger
    else
      .ok (.float (Binary64.ofDecimal negative (digitsValue (whole ++ part))
        (power.getD 0 - part.length)), rest)

/-- The words that stand for values. -/
def words : List (String × Datum) :=
  [("null", .null), ("true", .bool true), ("false", .bool false), ("NaN", .float (.nan 0)),
   ("Infinity", .float (.infinite false)), ("-Infinity", .float (.infinite true))]

def leaf (cs : List Char) : Reads Datum :=
  match words.findSome? fun (w, d) => (w.toList.isPrefixOf? cs).map fun rest => (d, rest) with
  | some found => .ok found
  | none => number cs

/-- The greatest depth of lists and tables inside each other. -/
def depthLimit : Nat := 980

mutual

/-- A value in which lists and tables are nested to a given depth at most; the first argument bounds
the steps of the recursion, of which two are enough for each character. -/
def value : Nat → Nat → List Char → Reads Datum
  | 0, _, cs => stop .value cs
  | n + 1, depth, cs =>
    match cs with
    | '"' :: r => (text r).map fun (s, rest) => (.text s, rest)
    | '\x7b' :: r =>
      match depth, skip r with
      | 0, _ => .error .tooDeep
      | _, '\x7d' :: rest => .ok (.map [], rest)
      | depth + 1, r => (members n depth r).map fun (es, rest) => (.map (Table.ofList es), rest)
    | '[' :: r =>
      match depth, skip r with
      | 0, _ => .error .tooDeep
      | _, ']' :: rest => .ok (.list [], rest)
      | depth + 1, r => (elements n depth r).map fun (ds, rest) => (.list ds, rest)
    | _ => leaf cs

def members : Nat → Nat → List Char → Reads (List (Scalar × Datum))
  | 0, _, cs => stop .name cs
  | n + 1, depth, cs =>
    match cs with
    | '"' :: r => (text r).bind fun (name, r) =>
      match skip r with
      | ':' :: r => (value n depth (skip r)).bind fun (d, r) =>
        match skip r with
        | '\x7d' :: rest => .ok ([(.text name, d)], rest)
        | ',' :: r =>
          (members n depth (skip r)).map fun (es, rest) => ((.text name, d) :: es, rest)
        | r => stop .comma r
      | r => stop .colon r
    | _ => stop .name cs

def elements : Nat → Nat → List Char → Reads (List Datum)
  | 0, _, cs => stop .value cs
  | n + 1, depth, cs => (value n depth cs).bind fun (d, r) =>
    match skip r with
    | ']' :: rest => .ok ([d], rest)
    | ',' :: r => (elements n depth (skip r)).map fun (ds, rest) => (d :: ds, rest)
    | r => stop .comma r

end

/-- A place where a text is not JSON. -/
structure Flaw where
  cause : Cause
  line : Nat
  column : Nat
  position : Nat
deriving DecidableEq, Repr

inductive Failure where
  | malformed (flaw : Flaw)
  | longInteger
  | tooDeep
deriving DecidableEq, Repr

def Flaw.at (cause : Cause) (cs : List Char) (position : Nat) : Flaw :=
  let before := cs.take position
  { cause, position
    line := before.count '\n' + 1
    column := (before.reverse.takeWhile (· ≠ '\n')).length + 1 }

def Flaw.message (f : Flaw) : String :=
  f.cause.message ++ ": line " ++ toString f.line ++ " column " ++ toString f.column
    ++ " (char " ++ toString f.position ++ ")"

def readChars (cs : List Char) : Except Stop Datum :=
  if cs.head? = some '\uFEFF' then .error (.flaw .byteOrderMark cs.length)
  else
    match value (2 * cs.length + 2) depthLimit (skip cs) with
    | .error e => .error e
    | .ok (d, rest) =>
      if (skip rest).isEmpty then .ok d else .error (.flaw .extraData (skip rest).length)

def read (s : String) : Except Failure Datum :=
  match readChars s.toList with
  | .ok d => .ok d
  | .error .longInteger => .error .longInteger
  | .error .tooDeep => .error .tooDeep
  | .error (.flaw cause left) =>
    .error (.malformed (Flaw.at cause s.toList (s.toList.length - left)))

end Colloquy.Json
