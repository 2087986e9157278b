import Colloquy.Text.Cut

/-!
# Line ends

Text files end their lines with a line feed, a carriage return or both; once read, all of them are
line feeds. What is shown on a screen keeps a carriage return that stands alone.
-/

namespace Colloquy.Text

def unifyLineEnds : List Char → List Char
  | '\r' :: '\n' :: r => '\n' :: unifyLineEnds r
  | '\r' :: r => '\n' :: unifyLineEnds r
  | c :: r => c :: unifyLineEnds r
  | [] => []

/-- A text in which a carriage return before a line feed is left out. -/
def dropReturns : List Char → List Char
  | '\r' :: '\n' :: r => '\n' :: dropReturns r
  | c :: r => c :: dropReturns r
  | [] => []

/-- The lines of a text, without their ends. -/
def lines (s : String) : List String :=
  let pieces := (splitAt '\n' (unifyLineEnds s.toList)).map String.ofList
  if pieces.getLast? = some "" then pieces.dropLast else pieces

theorem not_mem_unifyLineEnds (cs : List Char) : '\r' ∉ unifyLineEnds cs := by
  fun_induction unifyLineEnds cs with
  | case1 r ih => simp [ih]
  | case2 r _ ih => simp [ih]
  | case3 c r _ hc ih => simp [ih, Ne.symm hc]
  | case4 => simp

end Colloquy.Text
