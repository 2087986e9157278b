import Colloquy.Context.Heap
import Colloquy.Context.Path
import Colloquy.Datum.Entries

/-!
# The context

The nested values of a game, below one table of a heap. Reading follows a path through tables only
(`Context.get?`). Writing goes along the path, puts a fresh table wherever there is none, and
changes the one cell that holds the last key; what it had to replace on the way is reported, except
for null (`Context.set`). A context may be made from a value that is no table. Nothing is in it, and
nothing can be written to it or loaded into it. There is a bound on how deeply lists and tables can
be nested in what is copied (`Context.copyLimit`), but writing may go deeper.
-/

namespace Colloquy

structure Context where
  heap : Heap
  root : Value
deriving Inhabited

namespace Context

/-- An empty context on top of a heap. -/
def empty (h : Heap) : Context :=
  let (heap, r) := h.alloc []
  ⟨heap, .map r⟩

/-- The greatest depth of lists and tables inside each other in a context that can be copied. -/
def copyLimit : Nat := 493

/-- Whether a copy can be made of the context. -/
def isCopyable (c : Context) : Bool := c.heap.depth c.root ≤ copyLimit

/-- A context made of a copy of data, on top of a heap. -/
def ofDatum (h : Heap) (d : Datum) : Except Fault Context :=
  if d.depth ≤ copyLimit then
    let (heap, root) := h.hold d
    .ok ⟨heap, root⟩
  else .error .tooDeep

/-- The value at the end of a path that starts at a value. -/
def walk (h : Heap) : Value → Path → Option Value
  | v, [] => some v
  | .map r, key :: rest =>
    match (h.cell r).get? (.text key) with
    | some v => walk h v rest
    | none => none
  | _, _ :: _ => none

def get? (c : Context) (p : Path) : Option Value :=
  walk c.heap c.root p

/-- Writes a value at the end of a path that starts at a cell. The keys at which something else
than a table was replaced are returned with the heap. -/
def write (h : Heap) (r : Ref) : Path → Value → Heap × List String
  | [], _ => (h, [])
  | [key], v => (h.putField r key v, [])
  | key :: rest, v =>
    match (h.cell r).get? (.text key) with
    | some (.map child) => write h child rest v
    | other =>
      let (h, child) := h.alloc []
      let (h, replaced) := write (h.putField r key (.map child)) child rest v
      (h, if other.isNone || other = some (.scalar .null) then replaced else key :: replaced)

/-- Writes a value at the end of a path. Without a table there is nothing to go through and nothing
to put a value into. -/
def set (c : Context) (p : Path) (v : Value) : Except Fault (Context × List String) :=
  match c.root, p with
  | .map r, p =>
    let (heap, replaced) := write c.heap r p v
    .ok ({ c with heap }, replaced)
  | _, [_] => .error .wrongKind
  | _, _ => .error .noFields

def entries (c : Context) : Table Value :=
  match c.root with
  | .map r => c.heap.cell r
  | _ => []

/-- Replaces all entries of a table. -/
def setEntries (c : Context) (t : Table Value) : Context :=
  match c.root with
  | .map r => { c with heap := c.heap.setIfInBounds r t }
  | _ => c

/-- Replaces all entries by fresh values for data. -/
def loadData (c : Context) (t : Table Datum) : Context :=
  let (heap, t) := c.heap.holdEntries t
  { c with heap }.setEntries t

/-- Replaces all entries by those that a datum gives. When that fails, a table is left as far as it
was replaced; without a table it fails, but a list is emptied first. -/
def loadDatum (c : Context) (d : Datum) : Context × Option Fault :=
  match c.root with
  | .map _ =>
    if d.depth ≤ copyLimit then
      let (entries, f) := Table.update [] d
      (c.loadData entries, f)
    else (c.loadData [], some .tooDeep)
  | .list _ => ({ c with root := .list [] }, some .noFields)
  | .scalar _ => (c, some .noFields)

/-- Replaces all entries by those of another context, as they are in that one. -/
def load (c src : Context) : Context × Option Fault :=
  match c.root, src.root with
  | .map _, .map _ =>
    let (heap, t) := c.heap.graft src.heap src.entries
    ({ c with heap }.setEntries (Table.ofList t), none)
  | _, v => c.loadDatum (src.heap.view v)

/-- The same context on another heap. -/
def onto (h : Heap) (c : Context) : Context :=
  match c.root with
  | .map _ => ((empty h).load c).1
  | v => ⟨h, v⟩

def view (c : Context) : Datum :=
  match c.root with
  | .map _ => .map (c.heap.viewTable c.entries)
  | v => c.heap.view v

end Context

end Colloquy
