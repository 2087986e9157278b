/-!
# Ink

The marks that set colour and weight of text in a terminal.
-/

namespace Colloquy

inductive Ink where
  | reset
  | bold
  | dim
  | italic
  | red
  | yellow
  | gray
  | brightRed
  | brightGreen
  | brightYellow
  | brightBlue
  | brightMagenta
  | brightCyan
deriving DecidableEq, Repr

namespace Ink

def number : Ink → String
  | .reset => "0"
  | .bold => "1"
  | .dim => "2"
  | .italic => "3"
  | .red => "31"
  | .yellow => "33"
  | .gray => "90"
  | .brightRed => "91"
  | .brightGreen => "92"
  | .brightYellow => "93"
  | .brightBlue => "94"
  | .brightMagenta => "95"
  | .brightCyan => "96"

/-- The mark that turns an ink on. -/
def mark (i : Ink) : String := "\x1b[" ++ i.number ++ "m"

/-- A text in some inks. -/
def paint (inks : List Ink) (s : String) : String :=
  String.join (inks.map mark) ++ s ++ Ink.reset.mark

end Ink

end Colloquy
