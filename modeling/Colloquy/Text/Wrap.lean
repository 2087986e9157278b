import Colloquy.Text.Blank
import Colloquy.Text.WordChar

/-!
# Wrapping text

A paragraph is cut into chunks, and chunks are put on lines of a given width. A chunk is a run of
spaces, a word, or a dash between words; words also end after a hyphen between letters
(`isBreak`). The chunks joined are the paragraph (`flatten_chunks`). A line takes as many chunks as
fit; a chunk too long for any line is cut, after a hyphen if it can be. Blank chunks are dropped at
the end of a line and at the start of all lines but the first.
-/

namespace Colloquy.Text

/-- The characters that count as spaces in a paragraph. -/
def isSpace (c : Char) : Bool :=
  c = ' ' || c = '\t' || c = '\n' || c = '\x0b' || c = '\x0c' || c = '\r'

/-- Fills tabs up to columns that are multiples of eight, from a given column on. -/
def expandTabs : Nat → List Char → List Char
  | _, [] => []
  | column, '\t' :: r =>
    List.replicate (8 - column % 8) ' ' ++ expandTabs (column + (8 - column % 8)) r
  | column, c :: r => c :: expandTabs (if c = '\n' || c = '\r' then 0 else column + 1) r

/-- A paragraph with every kind of space written as spaces. -/
def levelSpaces (cs : List Char) : List Char :=
  (expandTabs 0 cs).map fun c => if isSpace c then ' ' else c

/-- The characters that a dash can follow. -/
def isWordPunct (c : Char) : Bool :=
  isWordChar c || c = '!' || c = '"' || c = '\'' || c = '&' || c = '.' || c = ',' || c = '?'

/-- Whether a text starts with a dash of two or more hyphens that a word follows. -/
def startsDash (cs : List Char) : Bool :=
  2 ≤ (cs.takeWhile (· = '-')).length && ((cs.dropWhile (· = '-')).head?.any isWordChar)

/-- Whether a dash starts between two texts, the first of them given from its end. -/
def isDashStart (before after : List Char) : Bool :=
  before.head?.any isWordPunct && startsDash after

/-- Whether a dash ends between two texts, the first of them given from its end. -/
def isDashEnd (before after : List Char) : Bool :=
  2 ≤ (before.takeWhile (· = '-')).length && (before.dropWhile (· = '-')).head?.any isWordPunct
    && after.head?.any isWordChar

/-- Whether the first of two texts, given from its end, ends with a hyphen between letters. -/
def isAfterHyphen (before after : List Char) : Bool :=
  (match before with
    | '-' :: a :: '-' :: b :: _ => isLetter a && isLetter b
    | '-' :: a :: b :: _ => isLetter a && isLetter b
    | _ => false)
  && match after with
    | a :: '-' :: b :: _ => isLetter a && isLetter b
    | a :: b :: _ => isLetter a && isLetter b
    | _ => false

/-- Whether a paragraph can be broken between two texts, the first of them given from its end. -/
def isBreak (before after : List Char) : Bool :=
  match before, after with
  | a :: _, b :: _ =>
    if a = ' ' || b = ' ' then a ≠ b
    else isDashStart before after || isDashEnd before after || isAfterHyphen before after
  | _, _ => false

/-- The pieces of a text between the places that a predicate on the text before, from its end, and
the text after picks. -/
def cutWhere (p : List Char → List Char → Bool) (before : List Char) :
    List Char → List (List Char)
  | [] => []
  | c :: r =>
    match cutWhere p (c :: before) r with
    | [] => [[c]]
    | piece :: more =>
      if p (c :: before) r then [c] :: piece :: more else (c :: piece) :: more

def chunks (cs : List Char) : List (List Char) :=
  cutWhere isBreak [] (levelSpaces cs)

theorem flatten_cutWhere (p : List Char → List Char → Bool) :
    ∀ before cs : List Char, (cutWhere p before cs).flatten = cs
  | _, [] => rfl
  | before, c :: r => by
    have ih := flatten_cutWhere p (c :: before) r
    simp only [cutWhere]
    split
    · next h => rw [h] at ih; simp at ih; simp [ih]
    · next h => rw [h] at ih; split <;> simpa using ih

theorem flatten_chunks (cs : List Char) : (chunks cs).flatten = levelSpaces cs :=
  flatten_cutWhere isBreak [] (levelSpaces cs)

theorem ne_nil_of_mem_cutWhere (p : List Char → List Char → Bool) :
    ∀ {before cs piece : List Char}, piece ∈ cutWhere p before cs → piece ≠ []
  | _, [], _, h => by simp [cutWhere] at h
  | before, c :: r, piece, h => by
    simp only [cutWhere] at h
    split at h
    · simp only [List.mem_singleton] at h; simp [h]
    · next first more hm =>
      have ih := fun {q} (hq : q ∈ first :: more) =>
        @ne_nil_of_mem_cutWhere p (c :: before) r q (hm ▸ hq)
      split at h
      · rcases List.mem_cons.1 h with rfl | h
        · simp
        · exact ih h
      · rcases List.mem_cons.1 h with rfl | h
        · simp
        · exact ih (List.mem_cons_of_mem _ h)

/-- The chunks that fit into a width, and the others. -/
def fill : Nat → List (List Char) → List (List Char) × List (List Char)
  | _, [] => ([], [])
  | room, c :: cs =>
    if c.length ≤ room then
      let (taken, rest) := fill (room - c.length) cs
      (c :: taken, rest)
    else ([], c :: cs)

/-- The place of the last hyphen in a text. -/
def lastHyphen? (cs : List Char) : Option Nat :=
  (cs.reverse.findIdx? (· = '-')).map fun i => cs.length - 1 - i

/-- Where a chunk that is too long for a line is cut when a given room is left: after the last
hyphen that fits and follows something else than hyphens, or where the room ends. -/
def cutPlace (room : Nat) (c : List Char) : Nat :=
  match lastHyphen? (c.take room) with
  | some i => if (c.take i).any (· ≠ '-') then i + 1 else room
  | none => room

def isBlankChunk (c : List Char) : Bool := c.all isBlank

/-- The chunks without the last one if that is blank. -/
def dropBlankEnd (cs : List (List Char)) : List (List Char) :=
  match cs.getLast? with
  | some c => if isBlankChunk c then cs.dropLast else cs
  | none => cs

/-- The chunks of the next line, and those that are left. -/
def takeLine (width : Nat) (cs : List (List Char)) : List (List Char) × List (List Char) :=
  match fill width cs with
  | (taken, []) => (dropBlankEnd taken, [])
  | (taken, c :: rest) =>
    if width < c.length then
      let place := cutPlace (width - taken.flatten.length) c
      (dropBlankEnd (taken ++ [c.take place]), c.drop place :: rest)
    else (dropBlankEnd taken, c :: rest)

/-- The chunks without the first one if that is blank. -/
def dropBlankStart : List (List Char) → List (List Char)
  | c :: cs => if isBlankChunk c then cs else c :: cs
  | [] => []

/-- The lines that chunks fill; every line but the first one starts without a blank chunk. -/
def linesFrom (width : Nat) (isFirst : Bool) (cs : List (List Char)) : List (List Char) :=
  if cs.isEmpty then []
  else
    let (line, rest) := takeLine width (if isFirst then cs else dropBlankStart cs)
    if rest.flatten.length < cs.flatten.length then
      if line.isEmpty then linesFrom width isFirst rest
      else line.flatten :: linesFrom width false rest
    else []
termination_by cs.flatten.length
decreasing_by all_goals assumption

/-- Whether no chunk of a paragraph is too long for a line. -/
def fitsUncut (width : Nat) (cs : List Char) : Bool :=
  (chunks cs).all fun c => c.length ≤ width

/-- The lines of a paragraph. -/
def wrap (width : Nat) (cs : List Char) : List (List Char) :=
  linesFrom width true (chunks cs)

end Colloquy.Text
