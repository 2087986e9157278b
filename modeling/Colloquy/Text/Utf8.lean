/-!
# Bytes as text

Bytes are read as UTF-8. Where they are not, the longest part that could have begun a character, or
else one byte, is no text, and reading goes on behind it. In a text for people a replacement
character stands for such a part (`decode`).
-/

namespace Colloquy.Text.Utf8

/-- What the first byte of a longer character tells: its share of the code point, how many bytes
follow, and between which bounds the next one lies. -/
def lead? (b : Nat) : Option (Nat × Nat × Nat × Nat) :=
  if 0xC2 ≤ b && b ≤ 0xDF then some (b - 0xC0, 1, 0x80, 0xBF)
  else if b = 0xE0 then some (0, 2, 0xA0, 0xBF)
  else if b = 0xED then some (0xD, 2, 0x80, 0x9F)
  else if 0xE1 ≤ b && b ≤ 0xEF then some (b - 0xE0, 2, 0x80, 0xBF)
  else if b = 0xF0 then some (0, 3, 0x90, 0xBF)
  else if 0xF1 ≤ b && b ≤ 0xF3 then some (b - 0xF0, 3, 0x80, 0xBF)
  else if b = 0xF4 then some (4, 3, 0x80, 0x8F)
  else none

/-- A character that has begun: its bytes and code point so far, how many bytes are missing, and
between which bounds the next one lies. -/
structure Begun where
  bytes : List UInt8
  code : Nat
  missing : Nat
  low : Nat
  high : Nat

/-- The characters that bytes begin or are, given what has begun before them and what stands for
bytes that are no text. -/
def decodeFrom (other : List UInt8 → List Char) : Option Begun → List UInt8 → List Char
  | none, [] => []
  | some c, [] => other c.bytes
  | begun, b :: r =>
    let n := b.toNat
    let afresh := fun (_ : Unit) =>
      if n < 0x80 then Char.ofNat n :: decodeFrom other none r
      else
        match lead? n with
        | some (code, missing, low, high) =>
          decodeFrom other (some ⟨[b], code, missing, low, high⟩) r
        | none => other [b] ++ decodeFrom other none r
    match begun with
    | none => afresh ()
    | some c =>
      if c.low ≤ n && n ≤ c.high then
        let code := c.code * 64 + (n - 0x80)
        if c.missing ≤ 1 then Char.ofNat code :: decodeFrom other none r
        else decodeFrom other (some ⟨c.bytes ++ [b], code, c.missing - 1, 0x80, 0xBF⟩) r
      else other c.bytes ++ afresh ()

/-- The text of bytes, with a replacement character for what is no text. -/
def decode (bs : List UInt8) : String :=
  String.ofList (decodeFrom (fun _ => ['\uFFFD']) none bs)

end Colloquy.Text.Utf8
