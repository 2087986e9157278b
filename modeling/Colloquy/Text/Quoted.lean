import Colloquy.Text.Half
import Colloquy.Text.Printable

/-!
# Quoted text

A text is quoted between single quotes, or between double quotes when it holds a single quote and
no double one. A backslash and the quote are escaped by a backslash, the line and tab characters
have a letter of their own, and any other character that is not printable is written by its code
in two, four or eight hexadecimal digits, as is half a surrogate pair.
-/

namespace Colloquy.Text.Quoted

variable [Text.Halves]

/-- A code in lower case hexadecimal digits, filled up with zeros. -/
def hex (width n : Nat) : List Char :=
  let ds := Nat.toDigits 16 n
  List.replicate (width - ds.length) '0' ++ ds

/-- The escape of a character by its code. -/
def byCode (c : Char) : List Char :=
  let n := Half.code c
  if n ≤ 0xFF then '\\' :: 'x' :: hex 2 n
  else if n ≤ 0xFFFF then '\\' :: 'u' :: hex 4 n
  else '\\' :: 'U' :: hex 8 n

def encodeChar (quote c : Char) : List Char :=
  if c = quote || c = '\\' then ['\\', c]
  else if c = '\t' then ['\\', 't']
  else if c = '\n' then ['\\', 'n']
  else if c = '\r' then ['\\', 'r']
  else if isPrintable c then [c]
  else byCode c

def quoteFor (cs : List Char) : Char :=
  if '\'' ∈ cs ∧ '"' ∉ cs then '"' else '\''

def encode (cs : List Char) : List Char :=
  let q := quoteFor cs
  q :: cs.flatMap (encodeChar q) ++ [q]

/-- A text in which every half of a surrogate pair is written by its code. -/
def spelled (s : String) : String :=
  String.ofList (s.toList.flatMap fun c => if Half.isHalf c then byCode c else [c])

example : String.ofList (@encode ⟨[]⟩ "it's".toList) = "\"it's\"" := by decide +kernel

example : String.ofList (@encode ⟨[]⟩ "a\n\x01é".toList) = "'a\\n\\x01é'" := by decide +kernel

example : String.ofList (@encode ⟨[Char.ofNat 0x40000]⟩ ['a', Char.ofNat 0x40000]) =
    "'a\\ud800'" := by decide +kernel

end Colloquy.Text.Quoted
