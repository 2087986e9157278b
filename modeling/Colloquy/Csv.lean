import Colloquy.Text.Cut

/-!
# Comma-separated rows

A row is its cells with commas between them and a line end after them. A cell stands as it is
unless it holds a comma, a quote or a part of a line end; then it is quoted, and every quote in it
is written twice. A row that is one empty cell is quoted too, so that it is not an empty row.
-/

namespace Colloquy.Csv

/-- The characters that a cell can only hold between quotes. -/
def isMark (c : Char) : Bool := c = ',' || c = '"' || c = '\r' || c = '\n'

def quoted (cs : List Char) : List Char :=
  '"' :: Text.replaceChar '"' ['"', '"'] cs ++ ['"']

def cell (cs : List Char) : List Char :=
  if cs.any isMark then quoted cs else cs

def row (cells : List String) : List Char :=
  (if cells = [""] then quoted [] else Text.join [','] (cells.map fun s => cell s.toList)) ++
    ['\r', '\n']

/-- The rows as they are written, one after the other. -/
def write (rows : List (List String)) : List String :=
  rows.map fun cells => String.ofList (row cells)

end Colloquy.Csv
