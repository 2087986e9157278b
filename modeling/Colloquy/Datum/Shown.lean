import Colloquy.Datum
import Colloquy.Number.Numeral
import Colloquy.Number.Shortest
import Colloquy.Text.Quoted

/-!
# Data in messages

How a value is shown inside a message: texts are quoted, lists stand in brackets and tables in
braces, and a table met again inside itself is shown as three dots. On its own, a text is shown
without quotes (`Datum.plain`). An integer is showable when it has no more digits than are read back
(`Scalar.isShowable`).
-/

namespace Colloquy

variable [Text.Halves]

/-- Numbers in messages: the leading digit between 10⁻⁴ and 10¹⁵ is written positionally. -/
def Layout.message : Layout := ⟨-4, 15, 2, "inf", "nan"⟩

def Text.quote (s : String) : String :=
  String.ofList (Text.Quoted.encode s.toList)

/-- An integer in decimal digits. -/
def Text.ofInt (n : Int) : String :=
  String.ofList ((if n < 0 then ['-'] else []) ++ Nat.toDigits 10 n.natAbs)

def Text.ofNat (n : Nat) : String :=
  String.ofList (Nat.toDigits 10 n)

def Scalar.shown : Scalar → String
  | .null => "None"
  | .bool true => "True"
  | .bool false => "False"
  | .int n => Text.ofInt n
  | .float x => String.ofList (Layout.message.write x)
  | .text s => Text.quote s

/-- The first positive integer with too many digits to be read back. -/
def integerBound : Nat := Nat.pow 10 Number.Numeral.digitLimit

def Scalar.isShowable : Scalar → Bool
  | .int n => n.natAbs < integerBound
  | _ => true

namespace Datum

mutual

/-- Whether all that is in a value is showable. -/
def isShowable : Datum → Bool
  | .scalar s => s.isShowable
  | .list xs => areShowable xs
  | .map es => areEntriesShowable es
  | .back _ => true
termination_by structural d => d

def areShowable : List Datum → Bool
  | [] => true
  | x :: xs => isShowable x && areShowable xs
termination_by structural xs => xs

def areEntriesShowable : List (Scalar × Datum) → Bool
  | [] => true
  | (k, x) :: es => k.isShowable && isShowable x && areEntriesShowable es
termination_by structural es => es

end

mutual

def shown : Datum → String
  | .scalar s => s.shown
  | .list xs => "[" ++ ", ".intercalate (shownItems xs) ++ "]"
  | .map es => "\x7b" ++ ", ".intercalate (shownEntries es) ++ "\x7d"
  | .back _ => "\x7b...\x7d"
termination_by structural d => d

def shownItems : List Datum → List String
  | [] => []
  | x :: xs => shown x :: shownItems xs
termination_by structural xs => xs

def shownEntries : List (Scalar × Datum) → List String
  | [] => []
  | (k, x) :: es => (k.shown ++ ": " ++ shown x) :: shownEntries es
termination_by structural es => es

end

def plain : Datum → String
  | .text s => s
  | d => d.shown

end Datum

end Colloquy
