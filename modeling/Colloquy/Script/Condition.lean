import Colloquy.Datum.Shown
import Colloquy.Script.Comparison
import Colloquy.Store

/-!
# Conditions

A condition is written as a text, such as `flag.met` or `context.gold>=5`, or as an object with a
type, a key, and perhaps an operator and a value. Both are read into one syntax
(`Condition.ofDatum`). What cannot be read is a condition too, one that never holds. In a text the
first sign in the order of `Sign.all` that occurs anywhere separates the operands, at its first
occurrence. Whether a condition holds can only be unknown because two values are nested too deeply
to be compared (`Condition.holds`).
-/

namespace Colloquy

variable [Text.Halves]

/-- The three parts of the store that scripts name. -/
inductive Space where
  | flag
  | context
  | quest
deriving DecidableEq, Repr, Inhabited

namespace Space

def name : Space → String
  | .flag => "flag"
  | .context => "context"
  | .quest => "quest"

def lead (s : Space) : String := s.name ++ "."

def ofDatum? : Datum → Option Space
  | .text "flag" => some .flag
  | .text "context" => some .context
  | .text "quest" => some .quest
  | _ => none

end Space

/-- One side of a comparison. -/
inductive Operand where
  | flag (key : String)
  | context (path : String)
  | quest (key : String)
  | literal (value : Scalar)
deriving DecidableEq, Inhabited

/-- What an object condition does with the value under its key. -/
inductive Test where
  | relation (r : Relation)
  | has
deriving DecidableEq, Inhabited

def Test.name : Test → String
  | .relation r => r.name
  | .has => "has"

inductive Condition where
  | flag (key : String)
  | context (path : String)
  | quest (key : String)
  | comparison (left : Operand) (sign : Sign) (right : Operand)
  | check (space : Space) (key : String) (test : Test) (value : Datum)
  | literal (value : Bool)
  | malformed (source : Datum) (reason : String)
deriving DecidableEq, Inhabited

namespace Operand

/-- The value of a numeral, or the text itself. -/
def numberOrText (cs : List Char) : Scalar :=
  match Number.Numeral.read? cs with
  | some x => .ofNumber x
  | none => .text (String.ofList cs)

def ofChars (cs : List Char) : Operand :=
  if let some rest := Text.after? Space.context.lead cs then .context (String.ofList rest)
  else if let some rest := Text.after? Space.flag.lead cs then .flag (String.ofList rest)
  else if let some rest := Text.after? Space.quest.lead cs then .quest (String.ofList rest)
  else if cs = "true".toList then .literal (.bool true)
  else if cs = "false".toList then .literal (.bool false)
  else .literal (numberOrText cs)

/-- The value of an operand; a flag always has one. -/
def resolve (s : Store) : Operand → Option Value
  | .flag key => some (.scalar (.bool (s.flag (.text key))))
  | .context path => s.get? path
  | .quest key => (s.quest? (.text key)).map fun q => .text q.status.name
  | .literal v => some (.scalar v)

end Operand

namespace Condition

/-- The sign that separates the operands of a text, if it holds one. -/
def findSign (cs : List Char) : Option Sign :=
  Sign.all.find? fun sign => Text.contains sign.text.toList cs

/-- A reference without a comparison; blanks around the key do not count. -/
def reference (source : String) (make : String → Condition) (key : List Char) : Condition :=
  match Text.strip key with
  | [] => .malformed (.text source) "empty reference"
  | key => make (String.ofList key)

/-- The comparison with a given sign, cut at its first occurrence. -/
def compared (source : String) (sign : Sign) (cs : List Char) : Condition :=
  let (left, right) := (Text.breakAt? sign.text.toList cs).getD (cs, [])
  let left := Text.strip left
  let right := Text.strip right
  if left = [] ∨ right = [] then
    .malformed (.text source) ("missing operand for '" ++ sign.text ++ "'")
  else .comparison (.ofChars left) sign (.ofChars right)

def ofText (source : String) : Condition :=
  let cs := Text.strip source.toList
  if cs = [] then .malformed (.text source) "empty condition"
  else if let some sign := findSign cs then compared source sign cs
  else if let some key := Text.after? Space.flag.lead cs then reference source .flag key
  else if let some key := Text.after? Space.context.lead cs then reference source .context key
  else if let some key := Text.after? Space.quest.lead cs then reference source .quest key
  else if cs = "true".toList then .literal true
  else if cs = "false".toList then .literal false
  else .malformed (.text source) "unrecognized condition"

def testOf? : Datum → Option Test
  | .text "has" => some .has
  | .text s => (Relation.ofText? s).map .relation
  | _ => none

def referenceIn : Space → String → Condition
  | .flag, key => .flag key
  | .context, key => .context key
  | .quest, key => .quest key

/-- The condition that an object describes. An operator has to be a scalar for it to be looked
up. -/
def ofTable (es : Table Datum) : Except Fault Condition :=
  let source := Datum.map es
  match Space.ofDatum? (es.field "type") with
  | none =>
    .ok (.malformed source ("unknown condition type " ++ (es.field "type").shown))
  | some space =>
    match es.field "key" with
    | .text key =>
      if key = "" then .ok (.malformed source "missing key")
      else
        match es.field "operator" with
        | .null => .ok (referenceIn space key)
        | .scalar op =>
          match testOf? (.scalar op) with
          | some test => .ok (.check space key test (es.field "value"))
          | none => .ok (.malformed source ("unknown operator " ++ op.shown))
        | _ => .error .wrongKind
    | _ => .ok (.malformed source "missing key")

def ofDatum : Datum → Except Fault Condition
  | .bool b => .ok (.literal b)
  | .text s => .ok (ofText s)
  | .map es => ofTable es
  | d => .ok (.malformed d ("unsupported condition type " ++ d.kind))

/-- The value under the key of an object condition, on a heap that holds it. -/
def actual (s : Store) (space : Space) (key : String) : Option (Heap × Value) :=
  match space with
  | .flag => (s.flag? (.text key)).map s.context.heap.hold
  | .context => (s.get? key).map fun v => (s.context.heap, v)
  | .quest => (s.quest? (.text key)).map fun q => (s.context.heap, .text q.status.name)

/-- Whether a value on a heap passes a test against data. -/
def passes (h : Heap) (actual : Value) (test : Test) (value : Datum) : Except Fault Bool :=
  match test with
  | .relation r =>
    let (h, v) := h.hold value
    actual.compare h r v
  | .has =>
    match actual with
    | .list items => .ok (items.any fun d => d.alike value)
    | _ => .ok false

def holds (s : Store) : Condition → Except Fault Bool
  | .literal b => .ok b
  | .flag key => .ok (s.flag (.text key))
  | .context path =>
    match s.get? path with
    | some v => .ok (s.context.heap.view v).isTrue
    | none => .ok false
  | .quest key => .ok (s.quest? (.text key)).isSome
  | .comparison left sign right =>
    match left.resolve s, right.resolve s with
    | some a, some b => a.compare s.context.heap sign.relation b
    | _, _ => .ok false
  | .check space key test value =>
    match actual s space key with
    | some (h, a) => passes h a test value
    | none => .ok false
  | .malformed _ _ => .ok false

/-- What is reported when a condition is read. -/
def readNotices : Condition → List Notice
  | .malformed source reason => [.malformedCondition source reason]
  | _ => []

/-- What is reported when a condition is evaluated. -/
def notices : Condition → List Notice
  | .malformed source reason => [.conditionFailed source reason]
  | _ => []

/-- Whether all conditions hold; none after the first that does not is evaluated. -/
def allHold (s : Store) : List Condition → Except Fault Bool
  | [] => .ok true
  | c :: cs =>
    match c.holds s with
    | .ok true => allHold s cs
    | outcome => outcome

/-- What is reported when conditions are evaluated up to the first that does not hold. -/
def allNotices (s : Store) : List Condition → List Notice
  | [] => []
  | c :: cs =>
    match c.holds s with
    | .ok true => allNotices s cs
    | _ => c.notices

/-- The flags that a condition reads. -/
def flagsRead : Condition → List String
  | .flag key => [key]
  | .check .flag key _ _ => [key]
  | .comparison left _ right =>
    [left, right].filterMap fun
      | .flag key => some key
      | _ => none
  | _ => []

end Condition

end Colloquy
