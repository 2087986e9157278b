import Colloquy.Datum.Order
import Colloquy.Store

/-!
# The world

What a script acts on: a store, the clock that stamps quest transitions, and the notices given so
far, newest first. The clock goes on by a fixed step with every reading. A sum that is no number is
like no other one, so the world counts the payloads that it has given out (`World.distinguish`).
-/

namespace Colloquy

structure Clock where
  now : Number := .int 1000
  step : Number := .int 1
deriving DecidableEq, Inhabited

/-- The current time, and the clock after it has been read, if there is a time after it. -/
def Clock.read (c : Clock) : Except Fault (Datum × Clock) :=
  match c.now.add? c.step with
  | some now => .ok (.scalar (.ofNumber c.now), { c with now })
  | none => .error .beyondRange

structure World where
  store : Store
  clock : Clock := {}
  journal : List Notice := []
  /-- The payload of the next sum that is no number. -/
  payload : Nat := 1
  /-- Whether each notice is put into words as it is given. -/
  isHeard : Bool := false
deriving Inhabited

namespace World

/-- A number as the result of a sum: if it is none, it gets a payload of its own. -/
def distinguish (w : World) : Number → World × Number
  | .float (.nan _) => ({ w with payload := w.payload + 1 }, .float (.nan w.payload))
  | n => (w, n)

def note (w : World) (n : Notice) : World :=
  { w with journal := n :: w.journal }

def noteAll (w : World) (ns : List Notice) : World :=
  { w with journal := ns.reverse ++ w.journal }

@[simp] theorem note_store (w : World) (n : Notice) : (w.note n).store = w.store := rfl

@[simp] theorem noteAll_store (w : World) (ns : List Notice) :
    (w.noteAll ns).store = w.store := rfl

/-- Moves the quest that a value is the key of to a status at the current time. The clock is read
before the value is. -/
def moveQuest (w : World) (key : Datum) (status : Quest.Status) : World × Except Fault Quest :=
  match w.clock.read with
  | .error f => (w, .error f)
  | .ok (time, clock) =>
    match key.key with
    | .error f => ({ w with clock }, .error f)
    | .ok key =>
      let (store, q) := w.store.moveQuest key status time
      ({ w with store, clock }, .ok q)

/-- Writes a value into the context and reports what it had to replace. -/
def set (w : World) (path : String) (v : Value) : Except Fault World :=
  (w.store.set path v).map fun (store, replaced) =>
    { w with store }.noteAll (replaced.map fun key => .valueReplaced key path)

end World

end Colloquy
