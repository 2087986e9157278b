import Colloquy.Script.Effect

/-!
# Scripts given as data

A condition or an effect that is not part of a tree is given as data and read each time that it is
used, so what is wrong with it is reported each time. A list of conditions is read up to the first
that does not hold, a list of effects up to the first that fails.
-/

namespace Colloquy.World

variable [Text.Halves]

/-- Whether a condition given as data holds. -/
def evaluate (w : World) (d : Datum) : World × Except Fault Bool :=
  match Condition.ofDatum d with
  | .error f => (w, .error f)
  | .ok c => ((w.noteAll c.readNotices).noteAll c.notices, c.holds w.store)

/-- Whether all of some conditions given as data hold. -/
def evaluateAll (w : World) : List Datum → World × Except Fault Bool
  | [] => (w, .ok true)
  | d :: ds =>
    match w.evaluate d with
    | (w, .ok true) => evaluateAll w ds
    | outcome => outcome

/-- Applies an effect given as data. -/
def apply (w : World) (d : Datum) : World × Option Fault :=
  let c := w.store.context
  let (heap, e) := Effect.ofDatum c.heap d
  let w := { w with store := { w.store with context := { c with heap } } }.noteAll e.readNotices
  e.apply w

/-- Applies effects given as data, one after the other. -/
def applyAll (w : World) : List Datum → World × Option Fault
  | [] => (w, none)
  | d :: ds =>
    match w.apply d with
    | (w, none) => applyAll w ds
    | outcome => outcome

/-- A condition does nothing but report. -/
@[simp] theorem evaluate_store (w : World) (d : Datum) : (w.evaluate d).1.store = w.store := by
  unfold evaluate
  split <;> simp

end Colloquy.World
