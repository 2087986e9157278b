import Colloquy.Context.Equality
import Colloquy.Fault

/-!
# Comparing values

Scripts compare values loosely: a text that reads as a number is compared with a number as that
number, and two texts that are both numerals are ordered as numbers. Values that are neither both
numbers nor both texts have no order, and NaN has none either. Equality is tried on the values as
they are before either is read as a number, and fails for tables that it finds no end of
(`Value.compare`).
-/

namespace Colloquy

variable [Text.Halves]

/-- The comparisons, apart from the signs and words that they are written with. -/
inductive Relation where
  | equals
  | notEquals
  | greater
  | less
  | greaterEquals
  | lessEquals
deriving DecidableEq, Repr, Inhabited

def Relation.name : Relation → String
  | .equals => "equals"
  | .notEquals => "not_equals"
  | .greater => "greater"
  | .less => "less"
  | .greaterEquals => "greater_equals"
  | .lessEquals => "less_equals"

/-- The signs for comparisons in a text condition. -/
inductive Sign where
  | ge
  | le
  | ne
  | eqEq
  | gt
  | lt
  | eq
deriving DecidableEq, Repr, Inhabited

namespace Sign

def text : Sign → String
  | .ge => ">="
  | .le => "<="
  | .ne => "!="
  | .eqEq => "=="
  | .gt => ">"
  | .lt => "<"
  | .eq => "="

/-- The signs in the order in which they are looked for: one that is part of another comes after
it. -/
def all : List Sign := [.ge, .le, .ne, .eqEq, .gt, .lt, .eq]

def relation : Sign → Relation
  | .ge => .greaterEquals
  | .le => .lessEquals
  | .ne => .notEquals
  | .eqEq => .equals
  | .gt => .greater
  | .lt => .less
  | .eq => .equals

end Sign

namespace Relation

def all : List Relation :=
  [.equals, .notEquals, .greater, .less, .greaterEquals, .lessEquals]

/-- The comparison that a sign or a name stands for. -/
def ofText? (s : String) : Option Relation :=
  match Sign.all.find? (·.text == s) with
  | some sign => some sign.relation
  | none => all.find? (·.name == s)

end Relation

namespace Value

/-- The number that a value reads as. -/
def number? : Value → Option Number
  | .text s => Number.Numeral.read? (Text.strip s.toList)
  | .scalar s => s.number?
  | _ => none

def isText : Value → Bool
  | .text _ => true
  | _ => false

/-- Whether a text and a value that is none are the same number. -/
def numerallySame (a b : Value) : Bool :=
  a.isText != b.isText &&
    match a.number?, b.number? with
    | some x, some y => x.same y
    | _, _ => false

/-- Equality that takes a numeral for its number when just one side is a text. -/
def looselySame (h : Heap) (a b : Value) : Except Fault Bool :=
  match h.equal? a b with
  | some same => .ok (same || numerallySame a b)
  | none => .error .tooDeep

/-- An order of numbers or texts, lifted to all values. -/
def ordered (numbers : Number → Number → Bool) (texts : String → String → Bool) (a b : Value) :
    Bool :=
  match a.number?, b.number? with
  | some x, some y => numbers x y
  | _, _ =>
    match a, b with
    | .text s, .text t => texts s t
    | _, _ => false

/-- Whether two values on a heap stand in a relation. -/
def compare (h : Heap) (a : Value) (r : Relation) (b : Value) : Except Fault Bool :=
  match r with
  | .equals => looselySame h a b
  | .notEquals => (looselySame h a b).map (!·)
  | .greater => .ok (ordered (fun x y => y.lt x) (fun s t => Text.before t s) a b)
  | .less => .ok (ordered Number.lt Text.before a b)
  | .greaterEquals => .ok (ordered (fun x y => y.le x) (fun s t => Text.notAfter t s) a b)
  | .lessEquals => .ok (ordered Number.le Text.notAfter a b)

end Value

end Colloquy
