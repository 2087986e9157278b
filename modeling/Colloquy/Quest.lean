import Colloquy.Datum

/-!
# Quests

A quest record is a status and the time of the latest transition to each one. Starting a quest
begins a new record; completing or failing it keeps the times that it has.
-/

namespace Colloquy

namespace Quest

inductive Status where
  | active
  | completed
  | failed
deriving DecidableEq, Repr, Inhabited

def Status.name : Status → String
  | .active => "active"
  | .completed => "completed"
  | .failed => "failed"

/-- The status that a value names. -/
def Status.ofDatum? : Datum → Option Status
  | .text "active" => some .active
  | .text "completed" => some .completed
  | .text "failed" => some .failed
  | _ => none

theorem Status.ofDatum?_name (s : Status) : ofDatum? (.text s.name) = some s := by
  cases s <;> rfl

end Quest

structure Quest where
  status : Quest.Status
  started : Datum := .null
  completed : Datum := .null
  failed : Datum := .null
deriving DecidableEq, Inhabited

namespace Quest

/-- The record after a transition at a given time. -/
def move (old : Option Quest) (status : Status) (time : Datum) : Quest :=
  match status with
  | .active => { status, started := time }
  | .completed => { old.getD { status } with status, completed := time }
  | .failed => { old.getD { status } with status, failed := time }

def toDatum (q : Quest) : Datum :=
  .object [("status", .text q.status.name), ("started", q.started), ("completed", q.completed),
    ("failed", q.failed)]

end Quest

end Colloquy
