/-!
# Terminal marks

A mark is an escape character and an opening bracket, then parameters (`0` to `?`), then
intermediates (blank to `/`), then one final character (`@` to `~`). Text that does not go to a
terminal is written without them.
-/

namespace Colloquy.Text

def isMarkParameter (c : Char) : Bool := '0' ≤ c && c ≤ '?'

def isMarkIntermediate (c : Char) : Bool := ' ' ≤ c && c ≤ '/'

def isMarkFinal (c : Char) : Bool := '@' ≤ c && c ≤ '~'

/-- Whether a mark that is open at `h` goes on with `c`: no parameter follows an intermediate. -/
def extendsMark (h c : Char) : Bool :=
  isMarkIntermediate c || (isMarkParameter c && !isMarkIntermediate h)

/-- Removes all marks; what may be the start of one is held back, from its end. -/
def dropMarksFrom (held : List Char) : List Char → List Char
  | [] => held.reverse
  | c :: r =>
    if c = '\x1b' then held.reverse ++ dropMarksFrom ['\x1b'] r
    else
      match held with
      | [] => c :: dropMarksFrom [] r
      | [h] => if c = '[' then dropMarksFrom ['[', h] r else h :: c :: dropMarksFrom [] r
      | h :: more =>
        if extendsMark h c then dropMarksFrom (c :: h :: more) r
        else if isMarkFinal c then dropMarksFrom [] r
        else (h :: more).reverse ++ c :: dropMarksFrom [] r

def dropMarks (s : String) : String :=
  String.ofList (dropMarksFrom [] s.toList)

end Colloquy.Text
