/-!
# Punycode

A text in letters, digits and hyphens that stands for any text: its ASCII characters, then for each
other one, in the order of their codes, how far it is from the one before, counted over all codes
and places that lie between. A distance is written in digits to the base 36, the least first, and
ends with the first digit below a threshold that follows the size of the distances so far.
-/

namespace Colloquy.Text.Punycode

/-- The digit with a value below 36. -/
def digit (n : Nat) : Char :=
  if n < 26 then Char.ofNat (97 + n) else Char.ofNat (22 + n)

/-- The threshold for the digit at a place, which counts in steps of 36. -/
def threshold (bias place : Nat) : Nat :=
  max 1 (min 26 (place - bias))

/-- The digits of a distance, from a place on. -/
def digits (bias place n : Nat) : List Char :=
  let t := threshold bias place
  if n < t then [digit n]
  else digit (t + (n - t) % (36 - t)) :: digits bias (place + 36) ((n - t) / (36 - t))
termination_by n
decreasing_by
  have ht : 1 ≤ threshold bias place := by simp only [threshold]; omega
  exact Nat.lt_of_le_of_lt (Nat.div_le_self _ _) (by omega)

/-- The bias that a scaled distance comes to. -/
def settled (place n : Nat) : Nat :=
  if 455 < n then settled (place + 36) (n / 35) else place + 36 * n / (n + 38)
termination_by n

/-- The bias after a distance, with so many characters written. -/
def adapted (distance written : Nat) (isFirst : Bool) : Nat :=
  let n := if isFirst then distance / 700 else distance / 2
  settled 0 (n + n / written)

/-- How far the writing has come: the distance since the last character written, the bias, and the
number of characters written. -/
structure State where
  distance : Nat
  bias : Nat
  written : Nat

/-- Goes over the characters of a text and writes those with a code; the first argument is the
number of its ASCII characters. -/
def writeCode (basic code : Nat) (s : State) : List Char → State × List Char
  | [] => (s, [])
  | c :: r =>
    if c.toNat = code then
      let bias := adapted s.distance (s.written + 1) (s.written = basic)
      let (s', ds) := writeCode basic code ⟨0, bias, s.written + 1⟩ r
      (s', digits s.bias 36 s.distance ++ ds)
    else
      writeCode basic code
        { s with distance := if c.toNat < code then s.distance + 1 else s.distance } r

/-- Writes the characters with the codes that are left, of which the next could be `next`. -/
def writeCodes (basic : Nat) (cs : List Char) (next : Nat) (s : State) : List Nat → List Char
  | [] => []
  | code :: codes =>
    let distance := s.distance + (code - next) * (s.written + 1)
    let (s, ds) := writeCode basic code { s with distance } cs
    ds ++ writeCodes basic cs (code + 1) { s with distance := s.distance + 1 } codes

/-- Puts a code in its place among others, unless it is there. -/
def insertCode (n : Nat) : List Nat → List Nat
  | [] => [n]
  | m :: r => if n < m then n :: m :: r else if n = m then m :: r else m :: insertCode n r

/-- The codes of the characters beyond ASCII, in order. -/
def codes : List Char → List Nat
  | [] => []
  | c :: r => if c.toNat < 128 then codes r else insertCode c.toNat (codes r)

def encode (cs : List Char) : List Char :=
  let basic := cs.filter (·.toNat < 128)
  (if basic.isEmpty then [] else basic ++ ['-'])
    ++ writeCodes basic.length cs 128 ⟨0, 72, basic.length⟩ (codes cs)

/-- The value of a digit. -/
def value? (c : Char) : Option Nat :=
  if c.isDigit then some (c.toNat - 22)
  else if c.isAlpha then some (c.toLower.toNat - 97)
  else none

/-- How far the reading has come: the text so far, the code of the character read last, the place
behind it, the bias, whether no distance was read yet, and what is read of the next distance. -/
structure Progress where
  text : List Char
  code : Nat := 128
  next : Nat := 0
  bias : Nat := 72
  isFirst : Bool := true
  place : Nat := 36
  weight : Nat := 1
  distance : Nat := 0

/-- Puts in the character at the distance that was read. -/
def Progress.insert? (p : Progress) : Option Progress :=
  let length := p.text.length + 1
  let code := p.code + (p.next + p.distance) / length
  let index := (p.next + p.distance) % length
  if code.isValidChar then
    some {
      text := p.text.take index ++ Char.ofNat code :: p.text.drop index
      code
      next := index + 1
      bias := adapted p.distance length p.isFirst
      isFirst := false }
  else none

/-- Reads the digits of distances. -/
def read (p : Progress) : List Char → Option (List Char)
  | [] => if p.place = 36 then some p.text else none
  | c :: r =>
    match value? c with
    | none => none
    | some n =>
      let p := { p with distance := p.distance + n * p.weight }
      let t := threshold p.bias p.place
      if n < t then
        match p.insert? with
        | some p => read p r
        | none => none
      else read { p with weight := p.weight * (36 - t), place := p.place + 36 } r

/-- The text that a text in letters, digits and hyphens stands for. -/
def decode? (cs : List Char) : Option (List Char) :=
  let ending := (cs.reverse.takeWhile (· ≠ '-')).reverse
  read { text := cs.take (cs.length - ending.length - 1) } ending

example : String.ofList (encode "bücher".toList) = "bcher-kva" := by decide +kernel

example : String.ofList (encode "日本語".toList) = "wgv71a119e" := by decide +kernel

example : (decode? "bcher-kva".toList).map String.ofList = some "bücher" := by decide +kernel

end Colloquy.Text.Punycode
