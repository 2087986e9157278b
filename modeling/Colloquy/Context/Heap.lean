import Colloquy.Datum

/-!
# Heaps

Tables that a script can write to are cells of a heap and are named by references, so that a table
reached by two paths is one table. All other values stand in the cells themselves: nothing inside
a list can be named by a path, so a list is a plain datum.

A heap is a value. Keeping one keeps everything that can be read from it, whatever is done to the
heaps made from it later; what has to be shared with a live heap is grafted into it as fresh cells
that repeat the sharing and the cycles of the graft and nothing else (`Heap.graft`).
-/

namespace Colloquy

abbrev Ref := Nat

inductive Value where
  | scalar (s : Scalar)
  | list (items : List Datum)
  | map (ref : Ref)
deriving DecidableEq, Inhabited

abbrev Heap := Array (Table Value)

namespace Value

@[match_pattern] abbrev text (s : String) : Value := .scalar (.text s)

def ofNumber (n : Number) : Value := .scalar (Scalar.ofNumber n)

def ref? : Value → Option Ref
  | .map r => some r
  | _ => none

/-- The value with its reference renamed. -/
def rename (f : Ref → Ref) : Value → Value
  | .map r => .map (f r)
  | v => v

end Value

namespace Heap

def cell (h : Heap) (r : Ref) : Table Value :=
  h[r]?.getD []

def alloc (h : Heap) (t : Table Value) : Heap × Ref :=
  (h.push t, h.size)

/-- Writes a named entry of a cell. -/
def putField (h : Heap) (r : Ref) (name : String) (v : Value) : Heap :=
  h.setIfInBounds r ((h.cell r).put (.text name) v)

mutual

/-- A value for a datum, its tables as fresh cells. -/
def hold : Heap → Datum → Heap × Value
  | h, .scalar s => (h, .scalar s)
  | h, .list xs => (h, .list xs)
  | h, .map es =>
    let (h, t) := holdEntries h es
    let (h, r) := h.alloc t
    (h, .map r)
  | h, .back _ => (h, .scalar .null)
termination_by structural _ d => d

def holdEntries : Heap → List (Scalar × Datum) → Heap × Table Value
  | h, [] => (h, [])
  | h, (k, d) :: es =>
    let (h, v) := hold h d
    let (h, t) := holdEntries h es
    (h, (k, v) :: t)
termination_by structural _ es => es

end

/-- The datum that a value is, below the cells on a path. The first argument bounds the depth. -/
def viewBelow (h : Heap) : Nat → List Ref → Value → Datum
  | _, _, .scalar s => .scalar s
  | _, _, .list xs => .list xs
  | 0, _, .map _ => .map []
  | n + 1, path, .map r =>
    match path.idxOf? r with
    | some i => .back (i + 1)
    | none => .map ((h.cell r).map fun (k, v) => (k, viewBelow h n (r :: path) v))

/-- The datum that a value is; a cell met again inside itself is marked. -/
def view (h : Heap) (v : Value) : Datum :=
  viewBelow h (h.size + 1) [] v

def viewTable (h : Heap) (t : Table Value) : Table Datum :=
  t.map fun (k, v) => (k, h.view v)

/-- The references in a table. -/
def refsOf (t : Table Value) : List Ref :=
  t.filterMap fun (_, v) => v.ref?

/-- The number of references in all cells. -/
def edgeCount (h : Heap) : Nat :=
  h.foldl (fun n t => n + t.length) 0

/-- The cells reached from a list of references, each once. The first argument bounds the steps. -/
def reachFrom (h : Heap) : Nat → List Ref → List Ref → List Ref
  | 0, _, seen => seen
  | _ + 1, [], seen => seen
  | n + 1, r :: todo, seen =>
    if r ∈ seen then reachFrom h n todo seen
    else reachFrom h n (refsOf (h.cell r) ++ todo) (seen ++ [r])

def reach (h : Heap) (todo : List Ref) : List Ref :=
  reachFrom h (todo.length + h.edgeCount + 1) todo []

/-- The greatest depth of a list in a table. -/
def depthOfLists (t : Table Value) : Nat :=
  t.foldl (fun n (_, v) => match v with
    | .list ds => max n (Datum.list ds).depth
    | _ => n) 0

/-- The greatest depth of lists and tables inside each other, each cell counted where it is first
come to. The second argument holds the cells to come, each with the number of cells that it is in;
the first bounds the steps. -/
def depthFrom (h : Heap) : Nat → List (Ref × Nat) → List Ref → Nat
  | 0, _, _ => 0
  | _ + 1, [], _ => 0
  | n + 1, (r, d) :: todo, seen =>
    if r ∈ seen then depthFrom h n todo seen
    else
      max (d + 1 + depthOfLists (h.cell r))
        (depthFrom h n ((refsOf (h.cell r)).map (·, d + 1) ++ todo) (r :: seen))

/-- The depth of lists and tables in a value as it is copied. -/
def depth (h : Heap) : Value → Nat
  | .scalar _ => 0
  | .list ds => (Datum.list ds).depth
  | .map r => depthFrom h (h.edgeCount + 2) [(r, 0)] []

/-- Copies a table of another heap, with all that it reaches, into fresh cells. -/
def graft (h src : Heap) (t : Table Value) : Heap × Table Value :=
  let rs := src.reach (refsOf t)
  let move := fun (t : Table Value) =>
    t.map fun (k, v) => (k, v.rename fun r => h.size + rs.idxOf r)
  (h ++ (rs.map fun r => move (src.cell r)).toArray, move t)

end Heap

end Colloquy
