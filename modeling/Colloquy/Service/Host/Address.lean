import Colloquy.Text.Cut
import Colloquy.Text.Digit

/-!
# Addresses of hosts

What can stand in the brackets of a host: an address of eight groups of hexadecimal digits, in which
two colons in a row stand for the groups that are left out and the last two groups may be written as
four numbers; or an address of a kind to come, which begins with a `v` and its kind.
-/

namespace Colloquy.Service.Host

/-- Whether a text is one of the four numbers that two groups can be written as. -/
def isOctet (cs : List Char) : Bool :=
  !cs.isEmpty && cs.length ≤ 3 && cs.all Char.isDigit && (cs = ['0'] || cs.head? ≠ some '0')
    && Text.Digit.toNat (cs.filterMap Text.Digit.ascii?) ≤ 255

/-- Whether a text is two groups written as four numbers. -/
def isQuad (cs : List Char) : Bool :=
  let numbers := Text.splitAt '.' cs
  numbers.length = 4 && numbers.all isOctet

def isGroup (cs : List Char) : Bool :=
  !cs.isEmpty && cs.length ≤ 4 && cs.all fun c => (Text.Digit.hex? c).isSome

/-- The pieces between the colons of a text; there are none in nothing. -/
def pieces (cs : List Char) : List (List Char) :=
  if cs.isEmpty then [] else Text.splitAt ':' cs

/-- The number of groups that the end of an address is. -/
def groups? : List (List Char) → Option Nat
  | [] => some 0
  | [piece] => if isGroup piece then some 1 else if isQuad piece then some 2 else none
  | piece :: more => if isGroup piece then (groups? more).map (· + 1) else none

/-- Whether a text is an address of eight groups. -/
def isGrouped (cs : List Char) : Bool :=
  match Text.breakAt? "::".toList cs with
  | none => groups? (pieces cs) = some 8
  | some (before, after) =>
    (pieces before).all isGroup
      && (groups? (pieces after)).any fun n => (pieces before).length + n < 8

/-- Whether what is behind an address is a percent sign and the name of a place that it counts in,
or nothing. -/
def isScope : List Char → Bool
  | [] => true
  | _ :: scope => !scope.isEmpty && !scope.contains '%'

/-- Whether a text is an address of a kind to come. -/
def isOfKind : List Char → Bool
  | 'v' :: r =>
    match r.dropWhile fun c => (Text.Digit.hex? c).isSome with
    | '.' :: _ :: _ => r.head? ≠ some '.'
    | _ => false
  | _ => false

/-- Whether a text can stand in the brackets of a host. -/
def isAddress (cs : List Char) : Bool :=
  if cs.head? = some 'v' then isOfKind cs
  else isGrouped (cs.takeWhile (· ≠ '%')) && isScope (cs.dropWhile (· ≠ '%'))

example : isAddress "2001:db8::ff00:1.2.3.4".toList = true := by decide +kernel

example : isAddress "1::2::3".toList = false := by decide +kernel

end Colloquy.Service.Host
