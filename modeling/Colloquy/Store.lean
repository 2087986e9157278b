import Colloquy.Context
import Colloquy.Notice
import Colloquy.Quest

/-!
# The store

The game state that conditions read and effects write: flags, the context, and quest records. A
snapshot keeps the store as it is; restoring one gives back its flags and quests and a copy of its
context (`Store.restore`). Restoring from data first reads all quest records, then replaces flags,
context and quests one after the other; data of the wrong shape stops it where it stands, as does a
context that is no table (`Store.restoreData`).
-/

namespace Colloquy

structure Store where
  flags : Table Datum
  context : Context
  quests : Table Quest
deriving Inhabited

/-- A store kept as it was. -/
abbrev Snapshot := Store

namespace Store

/-- An empty store on top of a heap. -/
def empty (h : Heap) : Store :=
  { flags := [], context := .empty h, quests := [] }

def flag? (s : Store) (key : Scalar) : Option Datum :=
  s.flags.get? key

/-- Whether a flag is set; a flag that is not there is not. -/
def flag (s : Store) (key : Scalar) : Bool :=
  match s.flag? key with
  | some d => d.isTrue
  | none => false

def setFlag (s : Store) (key : Scalar) (value : Bool) : Store :=
  { s with flags := s.flags.put key (.bool value) }

/-- Flips a flag and returns its new value. -/
def toggleFlag (s : Store) (key : Scalar) : Store × Bool :=
  (s.setFlag key (!s.flag key), !s.flag key)

def get? (s : Store) (path : String) : Option Value :=
  s.context.get? (Path.split path)

/-- Writes a value into the context; the keys where something was replaced are returned. -/
def set (s : Store) (path : String) (v : Value) : Except Fault (Store × List String) :=
  (s.context.set (Path.split path) v).map fun (context, replaced) =>
    ({ s with context }, replaced)

def quest? (s : Store) (key : Scalar) : Option Quest :=
  s.quests.get? key

def moveQuest (s : Store) (key : Scalar) (status : Quest.Status) (time : Datum) : Store × Quest :=
  let q := Quest.move (s.quest? key) status time
  ({ s with quests := s.quests.put key q }, q)

/-- The store kept as it is, with a copy of its context. -/
def snapshot (s : Store) : Except Fault Snapshot :=
  if s.context.isCopyable then .ok s else .error .tooDeep

/-- Replaces flags, context and quests by those of a snapshot, up to the first fault. -/
def restore (s : Store) (old : Snapshot) : Store × Option Fault :=
  match s.context.load old.context with
  | (context, none) => ({ flags := old.flags, context, quests := old.quests }, none)
  | (context, some f) => ({ s with flags := old.flags, context }, some f)

/-- A store with the same contents and nothing in common with this one. -/
def copy (s : Store) : Except Fault Store := do
  match (empty #[]).restore (← s.snapshot) with
  | (s, none) => return s
  | (_, some f) => throw f

/-- The same store with its context on another heap. -/
def onto (h : Heap) (s : Store) : Store :=
  { s with context := s.context.onto h }

def toDatum (s : Store) : Datum :=
  .object [("flags", .map s.flags), ("context", s.context.view),
    ("quests", .map (s.quests.map fun (k, q) => (k, q.toDatum)))]

end Store

/-- The record that data describes; without a status it is an active one. -/
def Quest.ofDatum : Datum → Except Fault Quest
  | .map es =>
    let status := (Table.get? es (.text "status")).getD (.text "active")
    match Status.ofDatum? status with
    | some s => .ok { status := s, started := Table.field es "started",
                      completed := Table.field es "completed", failed := Table.field es "failed" }
    | none => .error (.unknownStatus status)
  | _ => .error .noFields

namespace Store

/-- The quest records that data describes. -/
def questsOf : List (Scalar × Datum) → Except Fault (Table Quest)
  | [] => .ok []
  | (k, d) :: es =>
    match Quest.ofDatum d, questsOf es with
    | .error f, _ => .error f
    | .ok q, .ok t => .ok ((k, q) :: t)
    | .ok _, .error f => .error f

def readQuests : Datum → Except Fault (Table Quest)
  | .map es => questsOf es
  | _ => .error .noFields

/-- Replaces the contents by what data describes. When the data has the wrong shape, the store is
left as far as it was replaced. -/
def restoreData (s : Store) : Datum → Store × Option Fault
  | .map es =>
    let part := fun name => (Table.get? es (.text name)).getD (.map [])
    match readQuests (part "quests") with
    | .error f => (s, some f)
    | .ok quests =>
      match Table.update [] (part "flags") with
      | (flags, some f) => ({ s with flags }, some f)
      | (flags, none) =>
        match s.context.loadDatum (part "context") with
        | (context, some f) => ({ s with flags, context }, some f)
        | (context, none) => ({ flags, context, quests }, none)
  | _ => (s, some .noFields)

/-- The store that data describes, on top of a heap. -/
def ofDatum (h : Heap) (d : Datum) : Except Fault Store :=
  match (empty h).restoreData d with
  | (s, none) => .ok s
  | (_, some f) => .error f

/-- A store made from its parts: flags, context and quest records. -/
def make (h : Heap) (flags : Table Datum) (context : Datum) (quests : Table Quest) :
    Except Fault Store :=
  (Context.ofDatum h context).map fun context => { flags, context, quests }

/-- A store made from data for its parts. Null stands for no quests; of flags and context, what does
not count as true stands for an empty part. -/
def ofParts (h : Heap) (flags context quests : Datum) : Except Fault Store :=
  match readQuests (if quests.isNull then .map [] else quests),
    Table.ofDatum (flags.orElse (.map [])) with
  | .error f, _ => .error f
  | .ok _, .error f => .error f
  | .ok quests, .ok flags => make h flags (context.orElse (.map [])) quests

end Store

end Colloquy
