import Colloquy.Fault
import Colloquy.Player.Ink
import Colloquy.Text.Cut
import Colloquy.Text.Wrap

/-!
# Dialogue boxes

What a speaker says is framed by a box with the speaker's name in its upper edge. The text is
wrapped, line by line of its own; the box is as wide as the longest line and the name need. A width
that is a floating point number will do as long as no word has to be cut.
-/

namespace Colloquy.Box

/-- The columns of a terminal; one that has none is taken to have eighty. -/
def room (columns : Int) : Int := if 0 < columns then columns else 80

/-- The width that text is wrapped to: up to a limit if the terminal has room for it, and twenty in
any case. -/
def wrapWidth (limit columns : Int) : Nat :=
  (max 20 (min limit (room columns - 8))).toNat

/-- The part of a floating point limit that counts: the limit itself, between twenty and the room
that there is, or else a whole number. -/
def floatLimit (x : Binary64) (columns : Int) : Number :=
  let most := room columns - 8
  if (Number.int most).lt (.float x) then .int most
  else if (Number.int 20).lt (.float x) then .float x
  else .int 20

/-- The lines of a text. A line of the text with nothing in it stays; one with blanks only is no
line. -/
def rows (width : Nat) (text : String) : List (List Char) :=
  (Text.splitAt '\n' text.toList).flatMap fun paragraph =>
    if paragraph.isEmpty then [[]] else Text.wrap width paragraph

/-- The length of the longest row; without rows it is twenty. -/
def longest (rs : List (List Char)) : Nat :=
  if rs.isEmpty then 20 else (rs.map List.length).foldl max 0

/-- The width inside a box, with a name of a given length. -/
def interior (rs : List (List Char)) (nameLength : Nat) : Nat :=
  max (longest rs) (nameLength + 2)

def upperEdge (color name : String) (nameLength width : Nat) : String :=
  "\n  " ++ color ++ "╭─ " ++ name ++ " " ++ Text.rule '─' (width - nameLength - 1) ++ "╮"
    ++ Ink.reset.mark

def side (color : String) (width : Nat) (row : List Char) : String :=
  "  " ++ color ++ "│" ++ Ink.reset.mark ++ " " ++ String.ofList (Text.padEnd width row) ++ " "
    ++ color ++ "│" ++ Ink.reset.mark

def lowerEdge (color : String) (width : Nat) : String :=
  "  " ++ color ++ "╰" ++ Text.rule '─' (width + 2) ++ "╯" ++ Ink.reset.mark

/-- A box around rows, under a name of a given length. -/
def frame (color name : String) (nameLength : Nat) (rs : List (List Char)) : String :=
  let width := interior rs nameLength
  "\n".intercalate
    ([upperEdge color name nameLength width] ++ rs.map (side color width)
      ++ [lowerEdge color width])

/-- Whether no word of a text has to be cut for a width. -/
def fitsUncut (width : Nat) (text : String) : Bool :=
  (Text.splitAt '\n' text.toList).all (Text.fitsUncut width)

/-- A box around a text, wrapped to a limit in a terminal of so many columns, under a name of a
given length. -/
def renderUnder (nameLength : Nat) (text name color : String) (limit : Number) (columns : Int) :
    Except Fault String :=
  let wrapped := fun width => frame color name nameLength (rows width text)
  match limit with
  | .int n => .ok (wrapped (wrapWidth n columns))
  | .float x =>
    match floatLimit x columns with
    | .int n => .ok (wrapped (wrapWidth n columns))
    | .float x =>
      let width := (x.truncate?.getD 0).toNat
      if fitsUncut width text then .ok (wrapped width) else .error .wrongKind

/-- A box around what a speaker says. -/
def render (text speaker color : String) (limit columns : Int) : String :=
  frame color speaker speaker.length (rows (wrapWidth limit columns) text)

end Colloquy.Box
