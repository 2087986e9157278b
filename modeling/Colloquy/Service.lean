import Colloquy.Datum.Order
import Colloquy.Json.Encoding
import Colloquy.Json.Exchange
import Colloquy.Service.Route
import Colloquy.Service.Shelf
import Colloquy.Session.Saved
import Colloquy.Text.Capital
import Colloquy.Validation

/-!
# The service

The service shows dialogue files, checks trees, and runs sessions for its clients, one request at a
time (`Service.handle`). A session is known by its number and lives until it ends or breaks; a
request that is refused leaves all sessions as they were. A fault that the service has no answer
for is answered with status 500.
-/

namespace Colloquy

variable [Text.Halves]

namespace Service

mutual

/-- Whether a value can be sent: no table is inside itself, the keys of each can be put in order,
and every integer is showable. -/
def isSendable : Datum → Bool
  | .scalar s => s.isShowable
  | .list ds => areSendable ds
  | .map es => (Table.sorted es).isOk && areEntriesSendable es
  | .back _ => false
termination_by structural d => d

def areSendable : List Datum → Bool
  | [] => true
  | d :: ds => isSendable d && areSendable ds
termination_by structural ds => ds

def areEntriesSendable : List (Scalar × Datum) → Bool
  | [] => true
  | (_, d) :: es => isSendable d && areEntriesSendable es
termination_by structural es => es

end

structure Request where
  method : String := "GET"
  target : Target
  /-- The value that is sent with the request, if it can be read; null if there is none. -/
  body : Except Fault Datum := .ok .null
deriving Inhabited

/-- Whether a media type stands for JSON. What follows a semicolon does not count, nor do spaces and
tabs around what is before it. -/
def isJson (mediaType : String) : Bool :=
  let kind := Text.trim (fun c => c = ' ' || c = '\t') (mediaType.toList.takeWhile (· ≠ ';'))
  let kind := String.ofList (kind.map Char.toLower)
  kind = "application/json" || (kind.startsWith "application/" && kind.endsWith "+json")

/-- Whether a text can be sent as the value of a header. -/
def isHeader (s : String) : Bool := s.toList.all fun c => c ≠ '\n' && c ≠ '\r'

/-- What is sent with a request. -/
inductive Content where
  | nothing
  /-- A value, as JSON. -/
  | value (d : Datum)
  /-- A text. -/
  | raw (s : String)

/-- The value of a content of a given media type: null unless it is JSON. -/
def Content.read (mediaType : String) : Content → Except Fault Datum
  | .nothing => .ok .null
  | .value d => .ok (Json.sent d)
  | .raw s =>
    if isJson mediaType then
      match Json.readBytes s.toUTF8.toList with
      | .ok d => .ok (d.getD .null)
      | .error _ => .error .tooDeep
    else .ok .null

/-- Whether a content can be sent. -/
def Content.isWhole : Content → Bool
  | .raw s => Text.isWhole s
  | _ => true

/-- A request as it is sent, if it can be. -/
def Request.make (method target mediaType : String) (content : Content) :
    Except Fault Request := do
  let target ← Target.ofText target
  if !isHeader mediaType then .error .wrongValue
  if !content.isWhole then .error .notEncodable
  target.check
  .ok { method, target, body := content.read mediaType }

structure Response where
  status : Nat
  /-- The value that is sent back, if any. -/
  body : Option Datum := none
deriving DecidableEq, Inhabited

namespace Response

/-- An answer with a value, which has to be one that can be sent. -/
def send (status : Nat) (d : Datum) : Except Fault Response :=
  if isSendable d then .ok ⟨status, some d⟩ else .error .wrongValue

def refusal (status : Nat) (message : String) : Response :=
  ⟨status, some (.object [("error", .text message)])⟩

def fileNotFound : Response := refusal 404 "File not found"

def unknownSession (id : Datum) : Response :=
  refusal 404 ("Unknown session '" ++ id.plain ++ "'")

/-- The answer to a chain of nodes that is too long. -/
def overrun (f : Fault) (chain : List String) : Response :=
  ⟨422, some (.object [("error", .text f.message), ("chain", .list (chain.map .text)),
    ("state", .text "error")])⟩

end Response

end Service

open Service

structure Service where
  shelf : Shelf
  budget : Datum := Budget.standard
  clock : Clock := {}
  journal : List Notice := []
  /-- The sessions that are alive, by their ids. -/
  sessions : List (String × Session) := []
  /-- The number of sessions that were started so far. -/
  started : Nat := 0
  /-- Whether each notice is put into words as it is given. -/
  isHeard : Bool := false
deriving Inhabited

namespace Service

/-- An answer, or a fault that there is none for. -/
abbrev Answer := Service × Except Fault Response

/-- What a body asks for: the fields of a table. A body that does not count as true has none. -/
def fields (body : Except Fault Datum) : Except Fault (Table Datum) :=
  match body with
  | .error f => .error f
  | .ok d =>
    match d.orElse (.map []) with
    | .map es => .ok es
    | _ => .error .noFields

/-- The session with an id. Lists and tables cannot be ids, not even of nothing. -/
def session? (s : Service) : Datum → Except Fault (Option Session)
  | .text id => .ok (s.sessions.lookup id)
  | .scalar _ => .ok none
  | _ => .error .wrongKind

def idOf (number : Nat) : String := "s" ++ Text.ofNat number

/-- Puts a session under an id, in place if it is there. -/
def putSession (id : String) (x : Session) : List (String × Session) → List (String × Session)
  | [] => [(id, x)]
  | (i, y) :: r => if i = id then (i, x) :: r else (i, y) :: putSession id x r

/-- Keeps a session, with the clock and the journal that it leaves. -/
def keep (s : Service) (id : String) (x : Session) : Service :=
  { s with
    sessions := putSession id x s.sessions
    clock := x.world.clock
    journal := x.world.journal }

def drop (s : Service) (id : String) : Service :=
  { s with sessions := s.sessions.filter fun e => e.1 ≠ id }

/-- A session on the clock and journal of the service. -/
def wake (s : Service) (x : Session) : Session :=
  { x with world := { x.world with clock := s.clock, journal := s.journal } }

/-- Reads a tree, with its values on a heap of their own. -/
def readTree (s : Service) (step : Reading.Step Tree) : Service × Except Fault (Tree × Heap) :=
  match step { notices := s.journal } with
  | .ok t r => ({ s with journal := r.notices }, .ok (t, r.heap))
  | .error f r => ({ s with journal := r.notices }, .error f)

/-- The answer to a tree that cannot be read. -/
def refuseTree (f : Fault) : Except Fault Response :=
  if f.isDialogue then .ok (.refusal 400 f.message) else .error f

/-- Loads a tree from the shelf and goes on with it. -/
def withFile (s : Service) (name : String) (k : Service → Tree → Heap → Answer) : Answer :=
  match s.shelf.find? name with
  | .error f => (s, .error f)
  | .ok none => (s, .ok .fileNotFound)
  | .ok (some names) =>
    match s.readTree (s.shelf.tree names) with
    | (s, .ok (t, h)) => k s t h
    | (s, .error f) => (s, refuseTree f)

/-- Reads a tree from data and goes on with it. -/
def withTree (s : Service) (d : Datum) (k : Service → Tree → Heap → Answer) : Answer :=
  match s.readTree (Reading.tree d) with
  | (s, .ok (t, h)) => k s t h
  | (s, .error f) => (s, refuseTree f)

def issueDatum (severity : String) (i : Issue) : Datum :=
  .object [("severity", .text severity), ("message", .text i.message),
    ("nodeId", (i.node.map .text).getD .null), ("choiceIndex", (i.choice.map .ofNat).getD .null),
    ("suggestion", (i.suggestion.map .text).getD .null)]

def reportDatum (r : Report) : Datum :=
  .object [("valid", .bool r.isValid), ("errors", .list (r.errors.map (issueDatum "error"))),
    ("warnings", .list (r.warnings.map (issueDatum "warning")))]

def validate (s : Service) (body : Table Datum) : Answer :=
  s.withTree (body.field "tree") fun s t _ =>
    (s, match t.validate with
      | .ok r => Response.send 200 (reportDatum r)
      | .error f => .error f)

/-- The answer to a call that a session has done. A session that has ended is dropped. -/
def stepped (s : Service) (id : String) (x : Session) (r : StepResult) : Answer :=
  (if r.isTerminal then s.drop id else s, do
    let state ← x.store.snapshot
    Response.send 200 (.object [("sessionId", .text id), ("step", r.toDatum),
      ("state", state.toDatum)]))

/-- Makes a call to a session, and answers it; `refuse` answers the faults that are not about the
budget, if it can. -/
def call (s : Service) (id : String) (x : Session) (c : Session.Call)
    (refuse : Fault → Option Response) : Answer :=
  match (s.wake x).step c with
  | (x, .ok r) => (s.keep id x).stepped id x r
  | (x, .error f) =>
    match f with
    | .budgetExceeded chain _ => ((s.keep id x).drop id, .ok (.overrun f chain))
    | f => (s.keep id x, match refuse f with | some r => .ok r | none => .error f)

/-- The store of a new session: from the state that is sent, or from the initial context of its
tree. -/
def storeFor (t : Tree) (h : Heap) (state : Datum) : Except Fault Store :=
  if state.isTrue then Store.ofDatum h state else Store.make h [] (.map t.initial) []

/-- Starts a session on a tree. -/
def startOn (body : Table Datum) (s : Service) (t : Tree) (h : Heap) : Answer :=
  match storeFor t h (body.field "state") with
  | .error .tooDeep => (s, .error .tooDeep)
  | .error f => (s, .ok (.refusal 400 ("Invalid state: " ++ f.message)))
  | .ok store =>
    let number := s.started + 1
    let x : Session := { tree := t, world := { store, isHeard := s.isHeard }, budget := s.budget }
    { s with started := number }.call (idOf number) x
      (.enter ((body.field "node").orElse t.start)) fun _ => none

def start (s : Service) (body : Table Datum) : Answer :=
  match (body.field "file").orElse .null with
  | .null => s.withTree (body.field "tree") (startOn body)
  | .text name => s.withFile name (startOn body)
  | _ => (s, .error .wrongKind)

/-- Finds the session that a body names and goes on with it. -/
def withSession (s : Service) (id : Datum) (k : String → Session → Answer) : Answer :=
  match s.session? id, id with
  | .error f, _ => (s, .error f)
  | .ok (some x), .text name => k name x
  | .ok _, id => (s, .ok (.unknownSession id))

def choose (s : Service) (body : Table Datum) : Answer :=
  s.withSession (body.field "sessionId") fun id x =>
    s.call id x (.choose (body.field "index")) fun
      | .invalidChoice i n node => some (.refusal 400 (Fault.invalidChoice i n node).message)
      | _ => none

def advance (s : Service) (body : Table Datum) : Answer :=
  s.withSession (body.field "sessionId") fun id x =>
    s.call id x .advance fun f =>
      if f.isDialogue then some (.refusal 409 f.message) else none

def state (s : Service) (id : String) : Answer :=
  s.withSession (.text id) fun _ x => (s, do
    let state ← x.store.snapshot
    Response.send 200 (.object [("session", x.toDatum), ("state", state.toDatum)]))

/-- Goes on with the fields of a body. -/
def withFields (s : Service) (body : Except Fault Datum) (k : Table Datum → Answer) : Answer :=
  match fields body with
  | .ok es => k es
  | .error f => (s, .error f)

/-- The answer to a request for a resource. -/
def serve (s : Service) (body : Except Fault Datum) : Route → Answer
  | .listing => (s, s.shelf.listing.bind (Response.send 200))
  | .dialogue file => s.withFile file fun s t h => (s, Response.send 200 (t.toDatum h))
  | .presentation file => s.withFile file fun s t _ => (s, Response.send 200 t.toPresentation)
  | .validation => s.withFields body s.validate
  | .start => s.withFields body s.start
  | .choice => s.withFields body s.choose
  | .advance => s.withFields body s.advance
  | .state session => s.state session
  | .asset => (s, .ok ⟨404, none⟩)

/-- Answers a request. The name of a method counts in any letters, but only the method written in
capitals is answered without a body. -/
def handle (s : Service) (q : Request) : Service × Response :=
  let method := Text.capitals q.method
  if !q.target.isNamed then (s, ⟨400, none⟩)
  else match Route.find method q.target.path with
  | .unknown => (s, ⟨404, none⟩)
  | .wrongMethod => (s, ⟨405, none⟩)
  | .moved => (s, ⟨308, none⟩)
  | .found r =>
    if method = "OPTIONS" then (s, ⟨200, none⟩)
    else
      match s.serve q.body r with
      | (s, .ok answer) => (s, if q.method = "HEAD" then { answer with body := none } else answer)
      | (s, .error _) => (s, ⟨500, none⟩)

/-- Answers requests one after the other. -/
def handleAll (s : Service) : List Request → Service × List Response
  | [] => (s, [])
  | q :: qs =>
    let (s, r) := s.handle q
    let (s, rs) := s.handleAll qs
    (s, r :: rs)

end Service

end Colloquy
