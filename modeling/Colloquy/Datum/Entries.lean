import Colloquy.Fault

/-!
# Entries given as data

The entries of a table can be given by another table or by a list of pairs. A pair is anything with
two parts of which the first can be a key. Entries in front of one that is no pair count
(`Table.update`).
-/

namespace Colloquy

/-- The two halves of an entry given as a list, a text of two characters or a table of two keys. -/
def pairOf? : Datum → Except Fault (Scalar × Datum)
  | .list [.scalar k, d] => .ok (k, d)
  | .list [_, _] => .error .wrongKind
  | .list _ => .error .wrongValue
  | .map [(k, _), (l, _)] => .ok (k, .scalar l)
  | .map _ => .error .wrongValue
  | .text s =>
    match s.toList with
    | [c, d] => .ok (.text (String.singleton c), .text (String.singleton d))
    | _ => .error .wrongValue
  | .scalar _ => .error .wrongKind
  | .back _ => .error .wrongKind

namespace Table

/-- Puts a list of pairs into a table, up to the first that is not a pair. -/
def putPairs (t : Table Datum) : List Datum → Table Datum × Option Fault
  | [] => (t, none)
  | d :: ds =>
    match pairOf? d with
    | .ok (k, x) => putPairs (t.put k x) ds
    | .error f => (t, some f)

/-- Puts the entries of a datum into a table: those of a table, or a list of pairs. -/
def update (t : Table Datum) : Datum → Table Datum × Option Fault
  | .map es => (t.putAll es, none)
  | .list ds => t.putPairs ds
  | .text s => t.putPairs (s.toList.map fun c => .text (String.singleton c))
  | .scalar _ => (t, some .wrongKind)
  | .back _ => (t, some .wrongKind)

/-- A table made of the entries of a datum. -/
def ofDatum (d : Datum) : Except Fault (Table Datum) :=
  match update [] d with
  | (t, none) => .ok t
  | (_, some f) => .error f

end Table

end Colloquy
