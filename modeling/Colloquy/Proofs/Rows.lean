import Colloquy.Csv
import Mathlib.Data.List.Basic

/-!
# Rows are read as they were written

A reader of comma-separated rows takes a text line by line and each line character by character
(`Csv.Reader.step`). A quote where a cell begins opens a quoted one, in which line ends are
characters like others and two quotes stand for one; any other cell goes on to the next comma or
line end. Rows that are written one after the other are read again, whatever characters there are
in their cells (`Csv.read_write`): in quotes the reader collects the cell until the quote that
closes it (`Csv.Reader.run_quotes`), a cell without quotes holds nothing that would end it
(`Csv.Reader.run_plain`), and what comes behind either of them ends it in the same way
(`Csv.Reader.run_cell`).
-/

namespace Colloquy.Csv

/-! ## Reading -/

/-- Where in a row a reader is. -/
inductive Place where
  | rowStart
  | cellStart
  | inCell
  | inQuotes
  /-- Behind a quote in a quoted cell: it closes the cell, or stands for itself if another one
  follows. -/
  | behindQuote
  /-- Behind a line end; there are no other characters in the line. -/
  | behindRow
deriving DecidableEq, Repr, Inhabited

/-- Where a comma or a line end ends a cell. -/
def Place.Ends (place : Place) : Prop :=
  place = .cellStart ∨ place = .inCell ∨ place = .behindQuote

structure Reader where
  place : Place := .rowStart
  /-- The characters of the cell so far. -/
  chars : List Char := []
  /-- The cells of the row so far. -/
  cells : List String := []
  rows : List (List String) := []
deriving DecidableEq, Inhabited

namespace Reader

def add (r : Reader) (c : Char) : Reader := { r with chars := r.chars ++ [c] }

def endCell (r : Reader) : Reader :=
  { r with chars := [], cells := r.cells ++ [String.ofList r.chars] }

def endRow (r : Reader) : Reader := { rows := r.rows ++ [r.cells] }

def isLineEnd (c : Char) : Bool := c = '\r' || c = '\n'

/-- Takes the first character of a cell, or what ends an empty one. -/
def enter (r : Reader) (c : Char) : Reader :=
  if isLineEnd c then { r.endCell with place := .behindRow }
  else if c = '"' then { r with place := .inQuotes }
  else if c = ',' then { r.endCell with place := .cellStart }
  else { r.add c with place := .inCell }

/-- Takes a character, or the end of a line. Nothing may follow a line end in its line. -/
def step (r : Reader) : Option Char → Option Reader
  | none =>
    match r.place with
    | .rowStart | .behindRow => some r.endRow
    | .cellStart | .inCell | .behindQuote => some r.endCell.endRow
    | .inQuotes => some r
  | some c =>
    match r.place with
    | .rowStart =>
      if isLineEnd c then some { r with place := .behindRow } else some (r.enter c)
    | .cellStart => some (r.enter c)
    | .inCell =>
      if isLineEnd c then some { r.endCell with place := .behindRow }
      else if c = ',' then some { r.endCell with place := .cellStart }
      else some (r.add c)
    | .inQuotes => if c = '"' then some { r with place := .behindQuote } else some (r.add c)
    | .behindQuote =>
      if c = '"' then some { r.add c with place := .inQuotes }
      else if c = ',' then some { r.endCell with place := .cellStart }
      else if isLineEnd c then some { r.endCell with place := .behindRow }
      else some { r.add c with place := .inCell }
    | .behindRow => if isLineEnd c then some r else none

def run (r : Reader) (cs : List (Option Char)) : Option Reader := cs.foldlM step r

/-- The rows when the text is at its end, where a cell may still be open. -/
def finish (r : Reader) : List (List String) :=
  if r.chars = [] ∧ r.place ≠ .inQuotes then r.rows else r.endCell.endRow.rows

end Reader

/-- The characters of a text with the ends of its lines. A line ends behind a line feed or a
carriage return, which belong together when they follow each other, and with the text. -/
def lined : Bool → List Char → List (Option Char)
  | isOpen, [] => if isOpen then [none] else []
  | _, c :: cs =>
    if c = '\n' ∨ c = '\r' ∧ cs.head? ≠ some '\n' then some c :: none :: lined false cs
    else some c :: lined true cs

/-- The rows in a text, if it is well-formed. -/
def read (cs : List Char) : Option (List (List String)) :=
  (Reader.run {} (lined false cs)).map Reader.finish

/-! ## Cells -/

namespace Reader

variable {d : Char} {rest : List Char} {fs : List String} {rows : List (List String)}

/-- A line goes on behind any character but a line end. -/
theorem lined_cons {c : Char} (h : isLineEnd c = false) (b : Bool) (cs : List Char) :
    lined b (c :: cs) = some c :: lined true cs := by
  simp only [isLineEnd, Bool.or_eq_false_iff, decide_eq_false_iff_not] at h
  rw [lined, if_neg]
  rintro (hc | ⟨hc, -⟩)
  · exact h.2 hc
  · exact h.1 hc

/-- A character that is no mark is none that begins or ends anything. -/
theorem ne_of_isMark {c : Char} (h : isMark c = false) :
    c ≠ ',' ∧ c ≠ '"' ∧ isLineEnd c = false := by
  simp only [isMark, Bool.or_eq_false_iff, decide_eq_false_iff_not] at h
  obtain ⟨⟨⟨comma, quote⟩, cr⟩, lf⟩ := h
  exact ⟨comma, quote, by simp [isLineEnd, cr, lf]⟩

/-- In quotes, a line goes on to the next one. -/
theorem run_inQuotes {c : Char} (h : c ≠ '"') (acc : List Char) (fs : List String)
    (rows : List (List String)) (b : Bool) (cs : List Char) : ∃ b',
    run ⟨.inQuotes, acc, fs, rows⟩ (lined b (c :: cs)) =
      run ⟨.inQuotes, acc ++ [c], fs, rows⟩ (lined b' cs) := by
  rw [lined]
  split_ifs
  · exact ⟨false, by simp [run, step, h, add]⟩
  · exact ⟨true, by simp [run, step, h, add]⟩

/-- In quotes, a cell is collected up to the quote that closes it. -/
theorem run_quotes : ∀ (cs acc : List Char) (b : Bool),
    run ⟨.inQuotes, acc, fs, rows⟩
        (lined b (Text.replaceChar '"' ['"', '"'] cs ++ '"' :: d :: rest)) =
      run ⟨.behindQuote, acc ++ cs, fs, rows⟩ (lined true (d :: rest))
  | [], acc, b => by
    rw [List.append_nil]
    rfl
  | c :: cs, acc, b => by
    by_cases hc : c = '"'
    · subst hc
      have twice := run_quotes cs (acc ++ ['"']) true
      rw [List.append_assoc, List.singleton_append] at twice
      exact twice
    · have once : Text.replaceChar '"' ['"', '"'] (c :: cs) =
          c :: Text.replaceChar '"' ['"', '"'] cs := by
        rw [Text.replaceChar, List.flatMap_cons, if_neg hc]
        rfl
      obtain ⟨b', hb⟩ := run_inQuotes hc acc fs rows b
        (Text.replaceChar '"' ['"', '"'] cs ++ '"' :: d :: rest)
      rw [once, List.cons_append, hb, run_quotes cs (acc ++ [c]) b', List.append_assoc,
        List.singleton_append]

/-- A cell without quotes is collected as it stands. -/
theorem run_plain : ∀ {cs acc : List Char} {b : Bool}, (∀ c ∈ cs, isMark c = false) →
    run ⟨.inCell, acc, fs, rows⟩ (lined b (cs ++ d :: rest)) =
      run ⟨.inCell, acc ++ cs, fs, rows⟩ (lined true (d :: rest))
  | [], acc, b, _ => by
    rw [List.append_nil]
    rfl
  | c :: cs, acc, b, h => by
    rw [List.forall_mem_cons] at h
    obtain ⟨comma, -, inside⟩ := ne_of_isMark h.1
    have taken : step ⟨.inCell, acc, fs, rows⟩ (some c) =
        some ⟨.inCell, acc ++ [c], fs, rows⟩ := by
      simp [step, inside, comma, add]
    rw [List.cons_append, lined_cons inside, run, List.foldlM_cons, taken]
    exact (run_plain h.2).trans (by rw [List.append_assoc, List.singleton_append])

/-- In a cell that begins where one can begin, what is written is collected up to what is behind
it. -/
theorem run_cell {place : Place} (start : place = .rowStart ∨ place = .cellStart) {cs : List Char}
    (hcs : cs ≠ []) (b : Bool) : ∃ place' : Place, place'.Ends ∧
      run ⟨place, [], fs, rows⟩ (lined b (cell cs ++ d :: rest)) =
        run ⟨place', cs, fs, rows⟩ (lined true (d :: rest)) := by
  unfold cell
  split_ifs with marked
  · have opened : step ⟨place, [], fs, rows⟩ (some '"') = some ⟨.inQuotes, [], fs, rows⟩ := by
      rcases start with rfl | rfl <;> rfl
    have text : quoted cs ++ d :: rest =
        '"' :: (Text.replaceChar '"' ['"', '"'] cs ++ '"' :: d :: rest) := by simp [quoted]
    refine ⟨.behindQuote, .inr (.inr rfl), ?_⟩
    rw [text, lined_cons (by decide), run, List.foldlM_cons, opened]
    exact run_quotes cs [] true
  · obtain ⟨c, r, rfl⟩ := List.exists_cons_of_ne_nil hcs
    have plain : ∀ x ∈ c :: r, isMark x = false := by
      simpa using marked
    rw [List.forall_mem_cons] at plain
    obtain ⟨comma, quote, inside⟩ := ne_of_isMark plain.1
    have opened : step ⟨place, [], fs, rows⟩ (some c) = some ⟨.inCell, [c], fs, rows⟩ := by
      rcases start with rfl | rfl <;> simp [step, enter, inside, comma, quote, add]
    refine ⟨.inCell, .inr (.inl rfl), ?_⟩
    rw [List.cons_append, lined_cons inside, run, List.foldlM_cons, opened]
    exact run_plain plain.2

/-- A comma ends a cell, also an empty one. -/
theorem run_comma {place : Place} (start : place = .rowStart ∨ place = .cellStart) (s : String)
    (b : Bool) : run ⟨place, [], fs, rows⟩ (lined b (cell s.toList ++ ',' :: rest)) =
      run ⟨.cellStart, [], fs ++ [s], rows⟩ (lined true rest) := by
  have ended : ∀ {place' : Place}, place' = .rowStart ∨ place'.Ends → ∀ b : Bool,
      run ⟨place', s.toList, fs, rows⟩ (lined b (',' :: rest)) =
        run ⟨.cellStart, [], fs ++ [s], rows⟩ (lined true rest) := by
    intro place' h b
    have taken : step ⟨place', s.toList, fs, rows⟩ (some ',') =
        some ⟨.cellStart, [], fs ++ [s], rows⟩ := by
      rcases h with rfl | rfl | rfl | rfl <;> simp [step, enter, isLineEnd, endCell]
    rw [lined_cons (by decide), run, List.foldlM_cons, taken]
    rfl
  by_cases hs : s.toList = []
  · rw [hs] at ended ⊢
    exact ended (start.imp_right .inl) b
  · obtain ⟨place', ends, hr⟩ := run_cell start hs b
    rw [hr, ended (.inr ends)]

/-- A line end behind a cell ends the row. -/
theorem run_lineEnd {place : Place} (h : place.Ends) (cs : List Char) (b : Bool) :
    run ⟨place, cs, fs, rows⟩ (lined b ('\r' :: '\n' :: rest)) =
      run ⟨.rowStart, [], [], rows ++ [fs ++ [String.ofList cs]]⟩ (lined false rest) := by
  rcases h with rfl | rfl | rfl <;> rfl

/-! ## Rows -/

/-- A row is read up to its end; where it begins, it may not be a single empty cell. -/
theorem run_cells : ∀ {cells : List String} {place : Place} {fs : List String} {b : Bool},
    cells ≠ [] → place = .cellStart ∨ place = .rowStart ∧ cells ≠ [""] →
    run ⟨place, [], fs, rows⟩ (lined b
        (Text.join [','] (cells.map fun s => cell s.toList) ++ '\r' :: '\n' :: rest)) =
      run ⟨.rowStart, [], [], rows ++ [fs ++ cells]⟩ (lined false rest)
  | [], _, _, _, h, _ => absurd rfl h
  | [s], place, fs, b, _, start => by
    rw [List.map_singleton, Text.join]
    by_cases hs : s.toList = []
    · have empty : s = "" := String.toList_eq_nil_iff.1 hs
      obtain rfl : place = .cellStart := start.resolve_right fun h => h.2 (by rw [empty])
      rw [hs, empty]
      exact run_lineEnd (.inl rfl) [] b
    · obtain ⟨place', ends, hr⟩ := run_cell (start.symm.imp_left And.left) hs b
      rw [hr, run_lineEnd ends, String.ofList_toList]
  | s :: t :: cells, place, fs, b, _, start => by
    have text : Text.join [','] ((s :: t :: cells).map fun s => cell s.toList) ++
        '\r' :: '\n' :: rest = cell s.toList ++ ',' ::
          (Text.join [','] ((t :: cells).map fun s => cell s.toList) ++ '\r' :: '\n' :: rest) := by
      simp [Text.join]
    rw [text, run_comma (start.symm.imp_left And.left),
      run_cells (List.cons_ne_nil t cells) (.inl rfl), List.append_assoc, List.singleton_append]

theorem run_row (cells : List String) (b : Bool) :
    run ⟨.rowStart, [], [], rows⟩ (lined b (row cells ++ rest)) =
      run ⟨.rowStart, [], [], rows ++ [cells]⟩ (lined false rest) := by
  rw [row, List.append_assoc]
  by_cases single : cells = [""]
  · rw [single]
    rfl
  rw [if_neg single]
  by_cases none : cells = []
  · rw [none]
    rfl
  · exact run_cells none (.inr ⟨rfl, single⟩)

theorem run_rows : ∀ (cells : List (List String)) (rows : List (List String)) (b : Bool),
    run ⟨.rowStart, [], [], rows⟩ (lined b (cells.flatMap row)) =
      run ⟨.rowStart, [], [], rows ++ cells⟩ (lined (b && cells.isEmpty) [])
  | [], rows, b => by
    rw [List.append_nil, List.flatMap_nil, List.isEmpty_nil, Bool.and_true]
  | c :: cells, rows, b => by
    rw [List.flatMap_cons, run_row, run_rows cells, List.append_assoc, List.singleton_append]
    simp

end Reader

/-- Rows are read as they were written, whatever is in their cells. -/
theorem read_write (rows : List (List String)) :
    read (String.join (write rows)).toList = some rows := by
  have text : (String.join (write rows)).toList = rows.flatMap row := by
    rw [write, String.toList_join]
    simp [List.flatMap_def, Function.comp_def]
  rw [text, read, Reader.run_rows]
  rfl

/-- A row that is empty, one with an empty cell, and cells with marks and line ends in them. -/
example : read (String.join (write [[], [""], ["a\r", "\"b\", c", "\r\n"]])).toList =
    some [[], [""], ["a\r", "\"b\", c", "\r\n"]] := by
  decide +kernel

end Colloquy.Csv
