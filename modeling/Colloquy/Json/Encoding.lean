import Colloquy.Json.Reader

/-!
# Encodings of JSON

JSON begins with a character of one byte in UTF-8, so where its first bytes are zero tells in which
encoding it is written (`Encoding.ofBytes`). Bytes that are no text in their encoding are no JSON.
-/

namespace Colloquy.Json

variable [Text.Halves]

inductive Encoding where
  | utf8
  | utf16 (bigEndian : Bool)
  | utf32 (bigEndian : Bool)
deriving DecidableEq, Repr

namespace Encoding

/-- The encoding of bytes by where the first four of them, or both of two, are zero. -/
def ofBytes : List UInt8 → Encoding
  | 0 :: 0 :: _ :: _ :: _ => .utf32 true
  | 0 :: _ :: _ :: _ :: _ => .utf16 true
  | _ :: 0 :: 0 :: 0 :: _ => .utf32 false
  | _ :: 0 :: _ :: _ :: _ => .utf16 false
  | [0, _] => .utf16 true
  | [_, 0] => .utf16 false
  | _ => .utf8

/-- The number that bytes are, the first of them the most or the least significant. -/
def number (bigEndian : Bool) (bs : List UInt8) : Nat :=
  (if bigEndian then bs else bs.reverse).foldl (fun n b => n * 256 + b.toNat) 0

/-- The numbers that every two bytes are; none is left over. -/
def pairs? (bigEndian : Bool) : List UInt8 → Option (List Nat)
  | [] => some []
  | a :: b :: r => (pairs? bigEndian r).map (number bigEndian [a, b] :: ·)
  | [_] => none

/-- The numbers that every four bytes are; none is left over. -/
def quadruples? (bigEndian : Bool) : List UInt8 → Option (List Nat)
  | [] => some []
  | a :: b :: c :: d :: r => (quadruples? bigEndian r).map (number bigEndian [a, b, c, d] :: ·)
  | _ => none

/-- The character with a code point, if there is one. -/
def character? (n : Nat) : Option Char :=
  if n < 0x110000 then some (Text.Half.character n) else none

/-- The text that bytes are in an encoding. A byte order mark in front of UTF-8 does not count. -/
def decode? (e : Encoding) (bs : List UInt8) : Option String :=
  match e with
  | .utf8 =>
    (String.fromUTF8? ⟨bs.toArray⟩).map fun s =>
      match s.toList with
      | '\uFEFF' :: r => String.ofList r
      | _ => s
  | .utf16 bigEndian => (pairs? bigEndian bs).map fun units => String.ofList (characters units)
  | .utf32 bigEndian =>
    ((quadruples? bigEndian bs).bind fun ns => ns.mapM character?).map String.ofList

end Encoding

/-- The value of JSON in any of the encodings, if the bytes are JSON. Only nesting that is too deep
is a failure of its own. -/
def readBytes (bs : List UInt8) : Except Failure (Option Datum) :=
  match (Encoding.ofBytes bs).decode? bs with
  | none => .ok none
  | some s =>
    match read s with
    | .ok d => .ok (some d)
    | .error .tooDeep => .error .tooDeep
    | .error _ => .ok none

end Colloquy.Json
