import Colloquy.Context.Heap

/-!
# Equality on a heap

Two values are compared through the cells that they lead to, entry by entry. A cell met on both
sides at once is like itself and is not looked into, so a table inside itself can be compared with
what holds it; two tables that only repeat each other's shape would be compared for ever, and then
there is no answer (`Heap.equal?`).
-/

namespace Colloquy

namespace Heap

/-- The number of tables inside each other that a comparison goes into. -/
def depthLimit : Nat := 1000

/-- Whether two values are equal, if a comparison that goes into so many tables inside each other
tells. The sides change places with every table. -/
def equalWithin (h : Heap) : Nat → Value → Value → Option Bool
  | _, .scalar a, .scalar b => some (a.same b)
  | _, .list xs, .list ys => some (Datum.alikeItems xs ys)
  | 0, .map _, .map _ => none
  | n + 1, .map r, .map s =>
    if (h.cell r).length = (h.cell s).length then
      (h.cell r).allM fun (k, v) =>
        match (h.cell s).get? k with
        | some w => if w = v then some true else equalWithin h n w v
        | none => some false
    else some false
  | _, _, _ => some false

/-- Whether two values are equal; there is no answer if they are nested too deeply. -/
def equal? (h : Heap) (a b : Value) : Option Bool :=
  h.equalWithin depthLimit a b

theorem equal?_scalar (h : Heap) (a b : Scalar) :
    h.equal? (.scalar a) (.scalar b) = some (a.same b) := rfl

end Heap

end Colloquy
