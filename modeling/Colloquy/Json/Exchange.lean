import Colloquy.Json.Reader
import Colloquy.Json.Parts

/-!
# Values sent as JSON

What becomes of a value when it is sent as JSON and read by the other side: a table has texts for
names only, whatever its keys were.
-/

namespace Colloquy.Json

variable [Text.Halves]

/-- A value as it is read after it was written on a line. One that cannot be written stays. -/
def sent (d : Datum) : Datum :=
  match (write? .line d).map read with
  | some (.ok d) => d
  | _ => d

mutual

/-- A value with the names that its tables have in JSON. -/
def named : Datum → Datum
  | .list xs => .list (namedItems xs)
  | .map es => .map (namedEntries es)
  | d => d
termination_by structural d => d

def namedItems : List Datum → List Datum
  | [] => []
  | x :: xs => named x :: namedItems xs
termination_by structural xs => xs

def namedEntries : List (Scalar × Datum) → List (Scalar × Datum)
  | [] => []
  | (k, x) :: es => (.text (memberName k), named x) :: namedEntries es
termination_by structural es => es

end

end Colloquy.Json
