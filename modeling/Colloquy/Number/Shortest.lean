import Colloquy.Number.Binary64

/-!
# Shortest decimal texts

A positive number is written with the fewest significant digits that read back as the same
number; of the texts with that many digits the nearest is taken, and of two equally near ones the
even one. For each count of digits only the two decimals around the number can be the nearest that
reads back, so both are tried in exact arithmetic (`Decimal.withDigits?`). How the digits are laid
out is for a `Layout` to say.
-/

namespace Colloquy

/-- The decimal `digits` times ten to the `exponent`. -/
structure Decimal where
  digits : Nat
  exponent : Int
deriving DecidableEq, Repr

namespace Decimal

/-- Drops zeros at the end, at most as many as asked. -/
def dropZeros : Nat → Decimal → Decimal
  | 0, d => d
  | n + 1, d =>
    if d.digits % 10 = 0 then dropZeros n ⟨d.digits / 10, d.exponent + 1⟩ else d

/-- Whether a count of units lies below a power of ten. -/
def isBelow (units : Nat) (p : Int) : Bool :=
  if 0 ≤ p then units < Nat.pow 10 p.toNat * Binary64.one
  else units * Nat.pow 10 (-p).toNat < Binary64.one

/-- The least power of ten above a positive count of units. -/
def decade (units : Nat) : Int :=
  let low := ((units.log2 : Int) - 1074) * 30103 / 100000
  if isBelow units low then low else if isBelow units (low + 1) then low + 1 else low + 2

def readsAs (units : Nat) (d : Decimal) : Bool :=
  Binary64.ofDecimal false d.digits d.exponent = Binary64.ofUnits false units

/-- The decimal with a given count of digits that is nearest to a count of units among those that
read back as it. -/
def withDigits? (units : Nat) (top : Int) (count : Nat) : Option Decimal :=
  let e := top - count
  let num := if 0 ≤ e then units else units * Nat.pow 10 (-e).toNat
  let den := if 0 ≤ e then Nat.pow 10 e.toNat * Binary64.one else Binary64.one
  let low : Decimal := ⟨num / den, e⟩
  let high : Decimal := ⟨num / den + 1, e⟩
  let near : Decimal := ⟨Binary64.roundDiv num den, e⟩
  if readsAs units low && readsAs units high then some near
  else if readsAs units low then some low
  else if readsAs units high then some high
  else none

/-- All the digits of a count of units. -/
def exact (units : Nat) : Decimal :=
  ⟨units * Nat.pow 5 1074, -1074⟩

def shortest (units : Nat) : Decimal :=
  if units = 0 then ⟨0, 0⟩
  else
    let top := decade units
    let d := ((List.range 17).findSome? fun n => withDigits? units top (n + 1)).getD (exact units)
    d.dropZeros (Nat.toDigits 10 d.digits).length

end Decimal

/-- How a number is laid out: the powers of ten of the leading digit between which it is written
positionally, the least width of an exponent, and the words for what is not finite. -/
structure Layout where
  lowest : Int
  highest : Int
  exponentWidth : Nat
  infinity : String
  notANumber : String

namespace Layout

/-- A point among digits, with a zero on a side that would be empty. -/
def positional (ds : List Char) (point : Int) : List Char :=
  if point ≤ 0 then '0' :: '.' :: (List.replicate (-point).toNat '0' ++ ds)
  else if ds.length ≤ point.toNat then
    ds ++ List.replicate (point.toNat - ds.length) '0' ++ ['.', '0']
  else ds.take point.toNat ++ '.' :: ds.drop point.toNat

def scientific (style : Layout) (ds : List Char) (power : Int) : List Char :=
  let mantissa :=
    match ds with
    | [] => []
    | [d] => [d]
    | d :: more => d :: '.' :: more
  let es := Nat.toDigits 10 power.natAbs
  mantissa ++ ['e', if power < 0 then '-' else '+']
    ++ List.replicate (style.exponentWidth - es.length) '0' ++ es

def magnitude (style : Layout) (units : Nat) : List Char :=
  let d := Decimal.shortest units
  let ds := Nat.toDigits 10 d.digits
  let point := ds.length + d.exponent
  if style.lowest ≤ point - 1 ∧ point - 1 ≤ style.highest then positional ds point
  else style.scientific ds (point - 1)

def write (style : Layout) : Binary64 → List Char
  | .nan _ => style.notANumber.toList
  | .infinite s => (if s then ['-'] else []) ++ style.infinity.toList
  | .finite s u _ => (if s then ['-'] else []) ++ style.magnitude u

end Layout

/-- A number with one digit after the point, half to even on its exact value. -/
def Binary64.toTenths (units : Nat) : List Char :=
  let tenths := Binary64.roundDiv (units * 10) Binary64.one
  Nat.toDigits 10 (tenths / 10) ++ '.' :: Nat.toDigits 10 (tenths % 10)

end Colloquy
