import Colloquy.Datum.Sorting
import Colloquy.Fault

/-!
# Keys and their order

A scalar can be the key of a table, a list or a table cannot (`Datum.key`). Texts are ordered by the
codes of their characters and numbers by their values. A table can be put in order when all its keys
are of one of these two kinds, or when there is one key at most.
-/

namespace Colloquy

variable [Text.Halves]

/-- A value as a key. -/
def Datum.key : Datum → Except Fault Scalar
  | .scalar s => .ok s
  | _ => .error .wrongKind

/-- Whether a key comes before another, if they can be compared. -/
def Scalar.isBefore? : Scalar → Scalar → Option Bool
  | .text s, .text t => some (Text.before s t)
  | a, b =>
    match a.number?, b.number? with
    | some x, some y => some (x.lt y)
    | _, _ => none

/-- The entries of a table in the order of their keys. -/
def Table.sorted {α : Type} (t : Table α) : Except Fault (Table α) :=
  match t with
  | [] => .ok []
  | [e] => .ok [e]
  | e :: es =>
    if es.all fun e' => (e.1.isBefore? e'.1).isSome then
      .ok (Sorting.sort (fun a b => (a.1.isBefore? b.1).getD false) t)
    else .error .wrongKind

end Colloquy
