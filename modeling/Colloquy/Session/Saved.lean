import Colloquy.Datum.Order
import Colloquy.Session

/-!
# Saved sessions

A session is saved as its phase, its current node, its history and the choices taken once, sorted.
It cannot be saved when the keys of these cannot be put in order (`Session.save`); those that
sessions make always can. A session made from saved data is idle, and goes on when its current node
is entered again.
-/

namespace Colloquy

variable [Text.Halves]

/-- The parts of a value that is gone through one by one: the items of a list, the characters of a
text, or the keys of a table. -/
def Datum.parts : Datum → Except Fault (List Datum)
  | .list ds => .ok ds
  | .text s => .ok (s.toList.map fun c => .text (String.singleton c))
  | .map es => .ok (es.map fun (k, _) => .scalar k)
  | _ => .error .wrongKind

/-- A value as an integer: a text has to be a numeral, and a fraction is cut off. -/
def Datum.toInteger : Datum → Except Fault Int
  | .int n => .ok n
  | .bool b => .ok (if b then 1 else 0)
  | .text s =>
    match Number.Numeral.int? s.toList with
    | some n => .ok n
    | none => .error .wrongValue
  | .float (.infinite _) => .error .beyondRange
  | .float x =>
    match x.truncate? with
    | some n => .ok n
    | none => .error .wrongValue
  | _ => .error .wrongKind

namespace ChoiceKey

/-- Whether the parts of a key come before those of another, if they can be compared. The first two
that are not alike decide. -/
def arePartsBefore? : List Scalar → List Scalar → Option Bool
  | a :: as, b :: bs => if a.alike b then arePartsBefore? as bs else a.isBefore? b
  | [], _ :: _ => some true
  | _, [] => some false

def isBefore? (a b : ChoiceKey) : Option Bool := arePartsBefore? a.parts b.parts

/-- Whether keys can be put in order. -/
def areOrdered : List ChoiceKey → Bool
  | [] => true
  | k :: ks => (ks.all fun k' => (k.isBefore? k').isSome) && areOrdered ks

/-- Keys in order. -/
def sorted (ks : List ChoiceKey) : List ChoiceKey :=
  Sorting.sort (fun a b => (a.isBefore? b).getD false) ks

def toDatum (k : ChoiceKey) : Datum := .list (k.parts.map .scalar)

/-- The key in saved data. -/
def ofDatum (d : Datum) : Except Fault ChoiceKey :=
  match d.parts with
  | .error f => .error f
  | .ok [t, n, i] => i.toInteger.map fun index => of t.plain n.plain index
  | .ok _ => .error .wrongValue

/-- The key that has the parts of a value as they are. Lists and tables cannot be parts. -/
def ofParts (d : Datum) : Except Fault ChoiceKey :=
  match d.parts with
  | .error f => .error f
  | .ok ds => (ds.mapM Datum.key).map fun parts => ⟨parts⟩

/-- The keys that data lists, each once. -/
def listOf (read : Datum → Except Fault ChoiceKey) (ds : List Datum) :
    Except Fault (List ChoiceKey) :=
  (ds.mapM read).map fun keys => keys.foldl addTo []

end ChoiceKey

namespace Session

def toDatum (s : Session) : Datum :=
  .object [("tree", s.tree.id), ("state", .text s.phase.name), ("currentNode", s.current),
    ("onceTaken", .list ((ChoiceKey.sorted s.onceTaken).map (·.toDatum))),
    ("history", .list s.history)]

/-- The data of a session, unless the choices taken once cannot be put in order. -/
def save (s : Session) : Except Fault Datum :=
  if ChoiceKey.areOrdered s.onceTaken then .ok s.toDatum else .error .wrongKind

/-- A session on a tree and a world from saved data. -/
def ofDatum (tree : Tree) (world : World) (budget : Datum) : Datum → Except Fault Session
  | .map es =>
    let part := fun name => (Table.get? es (.text name)).getD (.list [])
    match (part "onceTaken").parts with
    | .error f => .error f
    | .ok ds =>
      match ChoiceKey.listOf ChoiceKey.ofDatum ds with
      | .error f => .error f
      | .ok onceTaken =>
        match (part "history").parts with
        | .error f => .error f
        | .ok history =>
          .ok { tree, world, budget, onceTaken, history, current := Table.field es "currentNode" }
  | _ => .error .noFields

end Session

end Colloquy
