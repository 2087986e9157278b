import Colloquy.Text.Cut
import Colloquy.Text.Direction
import Colloquy.Text.Half
import Colloquy.Text.Mark
import Colloquy.Text.Punycode
import Colloquy.Text.Variant

/-!
# Names of hosts

A name is labels with dots between them, and perhaps one behind them. Hosts know their names in
ASCII, so a label with other characters is written as `xn--` and its Punycode (`written?`); before
that it is brought to the form that counts the same however it is written. A label that came from
such a form is shown as it was (`shown?`).
-/

namespace Colloquy.Service.Host

variable [Text.Halves]

def isDot (c : Char) : Bool := c = '.' || c = '。' || c = '．' || c = '｡'

/-- The labels of a name; the last is empty when a dot is behind it. -/
def labels : List Char → List (List Char)
  | [] => [[]]
  | c :: r =>
    if isDot c then [] :: labels r
    else
      match labels r with
      | [] => [[c]]
      | label :: more => (c :: label) :: more

/-- The characters beyond ASCII that no label can have, as ranges. -/
def barred : List (Nat × Nat) :=
  [(0x80, 0xA0), (0x340, 0x341), (0x6DD, 0x6DD), (0x70F, 0x70F), (0x1680, 0x1680),
   (0x180E, 0x180E), (0x2000, 0x200F), (0x2028, 0x202F), (0x205F, 0x2063), (0x206A, 0x206F),
   (0x2FF0, 0x2FFB), (0x3000, 0x3000), (0xE000, 0xF8FF), (0xFDD0, 0xFDEF), (0xFEFF, 0xFEFF),
   (0xFFF9, 0xFFFF), (0x1D173, 0x1D17A), (0xE0001, 0xE0001), (0xE0020, 0xE007F),
   (0xEFFFE, 0x10FFFF)]

/-- Whether a label cannot have a character: it is in the table, is one of the last two of its
plane, or is half a character. -/
def isBarred (c : Char) : Bool :=
  barred.any (fun (low, high) => low ≤ c.toNat && c.toNat ≤ high)
    || 0xFFFE ≤ c.toNat % 0x10000 || Text.Half.isHalf c

/-- Whether a label has one direction: if any of it is written from right to left, then its ends
are, and nothing in it is written from left to right. -/
def hasOneWay (cs : List Char) : Bool :=
  !cs.any Text.isLeftward
    || (!cs.any Text.isRightward && cs.head?.any Text.isLeftward
      && cs.getLast?.any Text.isLeftward)

/-- A label in the form that counts the same however it is written. -/
def prepared? (cs : List Char) : Option (List Char) :=
  let cs := Text.Mark.composed (Text.Mark.ordered (cs.flatMap Text.Variant.plain))
  if cs.any isBarred || !hasOneWay cs then none else some cs

def isAscii (cs : List Char) : Bool := cs.all (·.toNat < 128)

/-- What a label in ASCII begins with that stands for other characters. -/
def codeMark : String := "xn--"

/-- A label with as many characters as a label can have. -/
def sized? (cs : List Char) : Option (List Char) :=
  if !cs.isEmpty && cs.length < 64 then some cs else none

/-- A label in ASCII. -/
def writtenLabel? (cs : List Char) : Option (List Char) :=
  if isAscii cs then sized? cs
  else
    match prepared? cs with
    | none => none
    | some cs =>
      if isAscii cs then sized? cs
      else if (Text.after? codeMark cs).isSome then none
      else sized? (codeMark.toList ++ Text.Punycode.encode cs)

omit [Text.Halves] in
theorem length_of_sized? {cs label : List Char} (h : sized? cs = some label) :
    0 < label.length ∧ label.length < 64 := by
  simp only [sized?] at h
  split at h
  · next hc =>
    cases h
    simp only [Bool.and_eq_true, Bool.not_eq_true', List.isEmpty_eq_false_iff,
      decide_eq_true_eq] at hc
    exact ⟨List.length_pos_iff.2 hc.1, hc.2⟩
  · cases h

/-- A label that is written has one to 63 characters. -/
theorem length_of_writtenLabel? {cs label : List Char} (h : writtenLabel? cs = some label) :
    0 < label.length ∧ label.length < 64 := by
  simp only [writtenLabel?] at h
  split at h
  · exact length_of_sized? h
  · split at h
    · cases h
    · split at h
      · exact length_of_sized? h
      · split at h
        · cases h
        · exact length_of_sized? h

/-- A label as it was before it was written in ASCII: writing it again gives it back. -/
def shownLabel? (cs : List Char) : Option (List Char) :=
  match Text.after? codeMark cs with
  | none => some cs
  | some code =>
    match Text.Punycode.decode? code with
    | some label =>
      if writtenLabel? label = some (cs.map Char.toLower) then some label else none
    | none => none

/-- Goes over the labels of a name; an empty one at the end stays. -/
def mapLabels? (f : List Char → Option (List Char)) (cs : List Char) : Option (List Char) :=
  let ls := labels cs
  if ls.getLast? = some [] then
    (ls.dropLast.mapM f).map fun ls => ls.flatMap (· ++ ['.'])
  else (ls.mapM f).map (Text.join ['.'])

/-- A name in ASCII. -/
def written? : List Char → Option (List Char) := mapLabels? writtenLabel?

/-- A name as it was before it was written in ASCII. -/
def shown? : List Char → Option (List Char) := mapLabels? shownLabel?

/-- A name in small letters, up to a percent sign. -/
def lowered : List Char → List Char
  | '%' :: r => '%' :: r
  | c :: r => (if c = '\u212A' then 'k' else c.toLower) :: lowered r
  | [] => []

example : (@written? ⟨[]⟩ "h.example.".toList).map String.ofList = some "h.example." := by
  decide +kernel

example : @written? ⟨[]⟩ "h..example".toList = none := by decide +kernel

end Colloquy.Service.Host
