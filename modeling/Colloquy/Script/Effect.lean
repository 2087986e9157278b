import Colloquy.Script.Condition
import Colloquy.World

/-!
# Effects

An effect is written as a text, such as `set_flag.met` or `context.gold=10`, or as an object with a
type, a key and an action. What cannot be read is an effect that does nothing. A value given in an
object stands in the heap from the moment it is read, so that setting it more than once sets the
same value. Applying an effect fails only when a sum needs an integer as a floating point number
and it is too large for one, and then nothing is changed (`Effect.apply`).
-/

namespace Colloquy

variable [Text.Halves]

/-- What is done to a context value. -/
inductive Operation where
  | set
  | add
  | subtract
deriving DecidableEq, Repr, Inhabited

namespace Operation

def name : Operation → String
  | .set => "set"
  | .add => "add"
  | .subtract => "subtract"

def ofDatum? : Datum → Option Operation
  | .text "set" => some .set
  | .text "add" => some .add
  | .text "subtract" => some .subtract
  | _ => none

end Operation

/-- What is done to a quest. -/
inductive Transition where
  | start
  | complete
  | fail
deriving DecidableEq, Repr, Inhabited

namespace Transition

def name : Transition → String
  | .start => "start"
  | .complete => "complete"
  | .fail => "fail"

def status : Transition → Quest.Status
  | .start => .active
  | .complete => .completed
  | .fail => .failed

def ofDatum? : Datum → Option Transition
  | .text "start" => some .start
  | .text "complete" => some .complete
  | .text "fail" => some .fail
  | _ => none

end Transition

/-- Where a written value comes from. -/
inductive Source where
  | flag (key : String)
  | context (path : String)
  | value (v : Value)
deriving DecidableEq, Inhabited

inductive Effect where
  | setFlag (key : String) (value : Bool)
  | toggleFlag (key : String)
  | write (path : String) (op : Operation) (source : Source)
  | moveQuest (key : String) (transition : Transition)
  | malformed (source : Datum) (reason : String)
deriving DecidableEq, Inhabited

namespace Source

def ofChars (cs : List Char) : Source :=
  if let some rest := Text.after? Space.context.lead cs then .context (String.ofList rest)
  else if let some rest := Text.after? Space.flag.lead cs then .flag (String.ofList rest)
  else .value (.scalar (Operand.numberOrText cs))

/-- The value of a source; only a context path can be without one. -/
def resolve (s : Store) : Source → Option Value
  | .flag key => some (.scalar (.bool (s.flag (.text key))))
  | .context path => s.get? path
  | .value v => some v

end Source

namespace Effect

/-- The effect with a given key; blanks around the key do not count, and it may not be empty. -/
def keyed (source : String) (kind : String) (make : String → Effect) (key : List Char) : Effect :=
  match Text.strip key with
  | [] => .malformed (.text source) ("empty " ++ kind ++ " name")
  | key => make (String.ofList key)

/-- The words that text effects on flags and quests begin with, and what they make of a key. -/
def leads : List (String × String × (String → Effect)) :=
  [("set_flag.", "flag", fun key => .setFlag key true),
   ("unset_flag.", "flag", fun key => .setFlag key false),
   ("toggle_flag.", "flag", .toggleFlag),
   ("start_quest.", "quest", fun key => .moveQuest key .start),
   ("complete_quest.", "quest", fun key => .moveQuest key .complete),
   ("fail_quest.", "quest", fun key => .moveQuest key .fail)]

/-- A context assignment, after its leading word. -/
def assignment (source : String) (cs : List Char) : Effect :=
  match Text.splitAt '=' cs with
  | [path, value] =>
    match Text.strip path with
    | [] => .malformed (.text source) "empty context path"
    | path => .write (String.ofList path) .set (.ofChars (Text.strip value))
  | _ => .malformed (.text source) "expected context.<path>=<value>"

def ofText (source : String) : Effect :=
  let cs := Text.strip source.toList
  match leads.findSome? fun (lead, kind, make) =>
      (Text.after? lead cs).map fun key => keyed source kind make key with
  | some e => e
  | none =>
    match Text.after? Space.context.lead cs with
    | some rest => assignment source rest
    | none => .malformed (.text source) "unrecognized effect"

/-- The effect that an object with a type and a key describes, and the heap that holds its value. -/
def ofAction (h : Heap) (es : Table Datum) (space : Space) (key : String) : Heap × Effect :=
  let unknown : Effect :=
    .malformed (.map es) ("unknown " ++ space.name ++ " action " ++ (es.field "action").shown)
  match space with
  | .flag =>
    match es.field "action" with
    | .text "set" => (h, .setFlag key ((es.get? (.text "value")).getD (.bool true)).isTrue)
    | .text "unset" => (h, .setFlag key false)
    | .text "toggle" => (h, .toggleFlag key)
    | _ => (h, unknown)
  | .context =>
    match Operation.ofDatum? (es.field "action") with
    | some op =>
      let (h, v) := h.hold (es.field "value")
      (h, .write key op (.value v))
    | none => (h, unknown)
  | .quest =>
    match Transition.ofDatum? (es.field "action") with
    | some t => (h, .moveQuest key t)
    | none => (h, unknown)

def ofTable (h : Heap) (es : Table Datum) : Heap × Effect :=
  match Space.ofDatum? (es.field "type"), es.field "key" with
  | none, _ => (h, .malformed (.map es) ("unknown effect type " ++ (es.field "type").shown))
  | some space, .text key =>
    if key = "" then (h, .malformed (.map es) "missing key") else ofAction h es space key
  | some _, _ => (h, .malformed (.map es) "missing key")

def ofDatum (h : Heap) : Datum → Heap × Effect
  | .text s => (h, ofText s)
  | .map es => ofTable h es
  | d => (h, .malformed d ("unsupported effect type " ++ d.kind))

/-- What is reported when an effect is read. -/
def readNotices : Effect → List Notice
  | .malformed source reason => [.malformedEffect source reason]
  | _ => []

/-- The number that a value counts as in a sum; what is not one counts as zero. -/
def amount (v : Option Value) : Number :=
  (v.bind Value.number?).getD (.int 0)

def combine? : Operation → Number → Number → Option Number
  | .subtract, a, b => a.sub? b
  | _, a, b => a.add? b

/-- Writes a value and reports it as it then is. An integer that cannot be put into words stops
this after it was written. -/
def writeValue (w : World) (path : String) (op : Operation) (v : Value) : World × Option Fault :=
  match w.set path v with
  | .error f => (w, some f)
  | .ok w =>
    let d := w.store.context.heap.view v
    if w.isHeard && !d.isShowable then (w, some .wrongValue)
    else (w.note (.contextWritten path op.name d), none)

def applyWrite (w : World) (path : String) (op : Operation) (source : Source) :
    World × Option Fault :=
  match op with
  | .set =>
    match source.resolve w.store with
    | some v => writeValue w path op v
    | none => (w.note (.missingReference path), none)
  | op =>
    match combine? op (amount (w.store.get? path)) (amount (source.resolve w.store)) with
    | some n =>
      let (w, n) := w.distinguish n
      writeValue w path op (.ofNumber n)
    | none => (w, some .beyondRange)

/-- Applies an effect; when that fails, the world is left as far as it was changed. -/
def apply (w : World) : Effect → World × Option Fault
  | .setFlag key value =>
    ({ w with store := w.store.setFlag (.text key) value }.note (.flagSet key value), none)
  | .toggleFlag key =>
    let (store, value) := w.store.toggleFlag (.text key)
    ({ w with store }.note (.flagToggled key value), none)
  | .write path op source => applyWrite w path op source
  | .moveQuest key t =>
    match w.moveQuest (.text key) t.status with
    | (w, .ok _) => (w.note (.questMoved key t.name), none)
    | (w, .error f) => (w, some f)
  | .malformed source reason => (w.note (.effectSkipped source reason), none)

/-- Applies effects one after the other, up to the first that fails. -/
def applyAll (w : World) : List Effect → World × Option Fault
  | [] => (w, none)
  | e :: es =>
    match e.apply w with
    | (w, none) => applyAll w es
    | outcome => outcome

end Effect

end Colloquy
