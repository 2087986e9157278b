import Colloquy.Proofs.Walk
import Colloquy.Service

/-!
# What requests ask for

A request asks something of at most one session (`Service.ask`): to start it, to take a choice, to
go on, or to show its state. If it does, it is answered as the session is asked
(`Service.answer`), and otherwise no session is touched (`Service.handle_eq`). What is asked does not
depend on the sessions that are alive, nor on what has been reported (`Service.ask_quiet`).
-/

namespace Colloquy

variable [Text.Halves]

/-! ## Reading whatever has been reported -/

namespace Reading

variable {α β : Type}

/-- What a step gives, apart from what it reports. -/
def given (m : Step α) (r : Reading) : Except Fault (α × Heap) :=
  match m r with
  | .ok a r => .ok (a, r.heap)
  | .error f _ => .error f

/-- A step gives the same whatever has been reported before. -/
def Quiet (m : Step α) : Prop := ∀ r js, given m { r with notices := js } = given m r

omit [Text.Halves] in
theorem quiet_pure (a : α) : Quiet (pure a) := fun _ _ => rfl

omit [Text.Halves] in
theorem quiet_throw (f : Fault) : Quiet (throw f : Step α) := fun _ _ => rfl

omit [Text.Halves] in
theorem quiet_noteAll (ns : List Notice) : Quiet (noteAll ns) := fun _ _ => rfl

omit [Text.Halves] in
theorem Quiet.bind {m : Step α} {k : α → Step β} (hm : Quiet m) (hk : ∀ a, Quiet (k a)) :
    Quiet (m >>= k) := by
  intro r js
  have h := hm r js
  simp only [given, Bind.bind, EStateM.bind] at h ⊢
  generalize m { r with notices := js } = o at h ⊢
  generalize m r = o' at h ⊢
  rcases o with ⟨a, r₁⟩ | ⟨f, r₁⟩
  all_goals rcases o' with ⟨b, r₂⟩ | ⟨g, r₂⟩
  · obtain ⟨rfl, hr⟩ := Prod.mk.inj (Except.ok.inj h)
    have hk' := hk a r₂ r₁.notices
    rwa [← hr] at hk'
  · cases h
  · cases h
  · exact congrArg Except.error (Except.error.inj h)

omit [Text.Halves] in
theorem quiet_mapM {f : α → Step β} (hf : ∀ a, Quiet (f a)) : ∀ as : List α, Quiet (as.mapM f)
  | [] => quiet_pure []
  | a :: as => by
    rw [List.mapM_cons]
    exact (hf a).bind fun b => (quiet_mapM hf as).bind fun bs => quiet_pure _

theorem quiet_guard (d : Datum) : Quiet (guard d) := by
  unfold guard
  split
  · exact (quiet_noteAll _).bind fun _ => quiet_pure _
  · exact quiet_throw _

theorem quiet_deed (d : Datum) : Quiet (deed d) := fun _ _ => rfl

theorem quiet_choice (es : Table Datum) : Quiet (choice es) := by
  unfold choice
  exact (quiet_mapM quiet_guard _).bind fun _ => (quiet_mapM quiet_deed _).bind fun _ =>
    quiet_pure _

theorem quiet_choices (id : String) : ∀ (i : ℕ) (ds : List Datum), Quiet (choices id i ds)
  | _, [] => quiet_pure []
  | i, .map es :: ds =>
    (quiet_choice es).bind fun _ => (quiet_choices id (i + 1) ds).bind fun _ => quiet_pure _
  | _, .scalar _ :: _ | _, .list _ :: _ | _, .back _ :: _ => quiet_throw _

theorem quiet_node (id : Scalar) (d : Datum) : Quiet (node id d) := by
  unfold node
  split
  · split
    · refine (quiet_choices _ 0 _).bind fun cs => ?_
      unfold nodeWith
      exact (quiet_mapM quiet_guard _).bind fun _ => (quiet_mapM quiet_deed _).bind fun _ =>
        quiet_pure _
    · exact quiet_throw _
  · exact quiet_throw _

theorem quiet_nodes (es : List (Scalar × Datum)) : Quiet (nodes es) := by
  induction es with
  | nil => exact quiet_pure []
  | cons e es ih => exact (quiet_node e.1 e.2).bind fun _ => ih.bind fun _ => quiet_pure _

omit [Text.Halves] in
theorem quiet_table (d : Datum) : Quiet (table d) := by
  unfold table
  split
  · exact quiet_pure _
  · exact quiet_throw _

/-- Reading a tree gives the same whatever has been reported before. -/
theorem quiet_tree (d : Datum) : Quiet (tree d) := by
  unfold tree
  split
  · split
    · refine (quiet_table _).bind fun _ => (quiet_table _).bind fun _ =>
        (quiet_nodes _).bind fun ns => ?_
      unfold treeWith
      simp only
      split
      · exact quiet_pure _
      · exact (quiet_noteAll _).bind fun _ => quiet_pure _
      · exact quiet_throw _
    · exact quiet_throw _
  · exact quiet_throw _

theorem quiet_file (fs : Files) (p : FilePath) : Quiet (file fs p) := by
  unfold file text
  split
  · exact quiet_throw _
  · split
    · exact (quiet_tree _).bind fun t => quiet_pure _
    all_goals exact quiet_throw _

end Reading

/-! ## Requests -/

namespace Service

/-- What a request asks of one session. -/
inductive Ask where
  /-- A new session is to enter a node. -/
  | start (session : Session) (node : Datum)
  | choose (index : Datum)
  | advance
  | state
deriving Inhabited

/-- The tree that a body asks for, if it can be read. -/
def treeFor (s : Service) (body : Table Datum) : Option (Tree × Heap) :=
  match (body.field "file").orElse .null with
  | .null => (Reading.given (Reading.tree (body.field "tree")) {}).toOption
  | .text name =>
    match s.shelf.find? name with
    | .ok (some names) => (Reading.given (s.shelf.tree names) {}).toOption
    | _ => none
  | _ => none

/-- The session that a body asks to start, with the node that it is to enter. -/
def opened? (s : Service) (body : Table Datum) : Option (Session × Datum) :=
  (s.treeFor body).bind fun (t, h) => (storeFor t h (body.field "state")).toOption.map fun store =>
    ({ tree := t, world := { store, isHeard := s.isHeard }, budget := s.budget },
      (body.field "node").orElse t.start)

/-- The text by which a body names a session, with the fields of the body. -/
def named? (body : Except Fault Datum) : Option (String × Table Datum) :=
  match fields body with
  | .ok es =>
    match es.field "sessionId" with
    | .text id => some (id, es)
    | _ => none
  | .error _ => none

/-- What a request for a resource asks of a session, with the id of the session. -/
def askFor (s : Service) (body : Except Fault Datum) : Route → Option (String × Ask)
  | .start =>
    (fields body).toOption.bind fun es => (s.opened? es).map fun (x, node) =>
      (idOf (s.started + 1), .start x node)
  | .choice => (named? body).map fun (id, es) => (id, .choose (es.field "index"))
  | .advance => (named? body).map fun (id, _) => (id, .advance)
  | .state id => some (id, .state)
  | _ => none

/-- What a request asks of a session, with the id of the session. A request without an answer in
full asks nothing. -/
def ask (s : Service) (q : Request) : Option (String × Ask) :=
  let method := Text.capitals q.method
  if q.target.isNamed && method ≠ "OPTIONS" && q.method ≠ "HEAD" then
    match Route.find method q.target.path with
    | .found r => s.askFor q.body r
    | _ => none
  else none

/-- The answer to a fault of a choice that is not about the budget. -/
def refuseChoice : Fault → Option Response
  | .invalidChoice i n node => some (.refusal 400 (Fault.invalidChoice i n node).message)
  | _ => none

/-- The answer to a fault of going on that is not about the budget. -/
def refuseAdvance (f : Fault) : Option Response :=
  if f.isDialogue then some (.refusal 409 f.message) else none

/-- Goes on with the session that has an id, if there is one. -/
def withId (s : Service) (id : String) (k : Session → Answer) : Answer :=
  match s.sessions.lookup id with
  | some x => k x
  | none => (s, .ok (.unknownSession (.text id)))

/-- What is answered as a session is asked. -/
def answer (s : Service) (id : String) : Ask → Answer
  | .start x node => { s with started := s.started + 1 }.call id x (.enter node) fun _ => none
  | .choose index => s.withId id fun x => s.call id x (.choose index) refuseChoice
  | .advance => s.withId id fun x => s.call id x .advance refuseAdvance
  | .state => s.state id

/-- Whether a session is dropped after a call with such an outcome: it has ended, or broken its
budget. -/
def ends : Except Fault StepResult → Bool
  | .ok r => r.isTerminal
  | .error (.budgetExceeded ..) => true
  | .error _ => false

/-- The service after a call to a session. -/
def leave (s : Service) (id : String) (o : Session × Except Fault StepResult) : Service :=
  if ends o.2 then (s.keep id o.1).drop id else s.keep id o.1

/-- The answer to a call to a session. -/
def report (id : String) (refuse : Fault → Option Response) :
    Session × Except Fault StepResult → Except Fault Response
  | (x, .ok r) => do
    let state ← x.store.snapshot
    Response.send 200 (.object [("sessionId", .text id), ("step", r.toDatum),
      ("state", state.toDatum)])
  | (_, .error (.budgetExceeded chain budget)) =>
    .ok (.overrun (.budgetExceeded chain budget) chain)
  | (_, .error f) => match refuse f with | some r => .ok r | none => .error f

/-- The session that is called when one is asked, with the call. -/
def due (s : Service) (id : String) : Ask → Option (Session × Session.Call)
  | .start x node => some (x, .enter node)
  | .choose index => (s.sessions.lookup id).map fun x => (x, .choose index)
  | .advance => (s.sessions.lookup id).map fun x => (x, .advance)
  | .state => none

/-- The number of sessions that are started when one is asked. -/
def Ask.starts : Ask → ℕ
  | .start .. => 1
  | _ => 0

/-- The answer to the faults of a call, but for those about the budget. -/
def Ask.refuse : Ask → Fault → Option Response
  | .choose _ => refuseChoice
  | .advance => refuseAdvance
  | _ => fun _ => none

/-- A fault that there is no answer for is answered too. -/
def close : Answer → Service × Response
  | (s, .ok r) => (s, r)
  | (s, .error _) => (s, ⟨500, none⟩)

theorem ask_start {s : Service} {q : Request} {id : String} {x : Session} {node : Datum}
    (h : s.ask q = some (id, .start x node)) :
    id = idOf (s.started + 1) ∧ ∃ body, s.opened? body = some (x, node) := by
  unfold ask at h
  simp only at h
  split_ifs at h
  split at h
  · rename_i r _
    cases r with
    | start =>
      obtain ⟨es, -, he⟩ := Option.bind_eq_some_iff.1 h
      obtain ⟨⟨y, n⟩, ho, he⟩ := Option.map_eq_some_iff.1 he
      cases he
      exact ⟨rfl, es, ho⟩
    | choice | advance =>
      obtain ⟨⟨i, es⟩, -, he⟩ := Option.map_eq_some_iff.1 h
      cases he
    | _ => cases h
  · cases h

/-- What is asked does not depend on the sessions that are alive, nor on what has been reported or on
the clock. -/
theorem ask_quiet {s s' : Service} (shelf : s'.shelf = s.shelf) (budget : s'.budget = s.budget)
    (isHeard : s'.isHeard = s.isHeard) (started : s'.started = s.started) (q : Request) :
    s'.ask q = s.ask q := by
  obtain ⟨⟩ := s
  obtain ⟨⟩ := s'
  subst shelf budget isHeard started
  rfl

/-- Nothing is done but reporting. -/
def Reports (s : Service) (a : Answer) : Prop := ∃ js r, a = ({ s with journal := js }, r)

omit [Text.Halves] in
theorem Reports.refl (s : Service) (r : Except Fault Response) : s.Reports (s, r) :=
  ⟨s.journal, r, rfl⟩

omit [Text.Halves] in
theorem readTree_eq (s : Service) {step : Reading.Step Tree} (quiet : Reading.Quiet step) :
    ∃ js, s.readTree step = ({ s with journal := js }, Reading.given step {}) := by
  rw [← quiet {} s.journal]
  unfold readTree Reading.given
  rcases step { notices := s.journal } with ⟨t, r⟩ | ⟨f, r⟩
  · exact ⟨r.notices, rfl⟩
  · exact ⟨r.notices, rfl⟩

/-- An answer is that to what is asked of a session, if anything is, and nothing is done but
reporting otherwise. -/
def Answers (s : Service) : Option (String × Ask) → Answer → Prop
  | some (id, asked), a => ∃ js, a = { s with journal := js }.answer id asked
  | none, a => s.Reports a

/-- A tree that is read opens a session if there is a store for it. -/
theorem startOn_answers (body : Table Datum) (s : Service) (js : List Notice)
    (o : Except Fault (Tree × Heap)) : s.Answers
      ((o.toOption.bind fun (t, h) => (storeFor t h (body.field "state")).toOption.map fun store =>
        ({ tree := t, world := { store, isHeard := s.isHeard }, budget := s.budget },
          (body.field "node").orElse t.start)).map fun (x, node) =>
            (idOf (s.started + 1), .start x node))
      (match (({ s with journal := js }, o) : Service × Except Fault (Tree × Heap)) with
        | (s, .ok (t, h)) => startOn body s t h
        | (s, .error f) => (s, refuseTree f)) := by
  rcases o with f | ⟨t, h⟩
  · exact ⟨js, _, rfl⟩
  · simp only [Except.toOption, Option.bind_some, startOn]
    rcases storeFor t h (body.field "state") with f | store
    · cases f <;> exact ⟨js, _, rfl⟩
    · exact ⟨js, rfl⟩

/-- A request to start a session starts the one that its body opens. -/
theorem start_answers (s : Service) (body : Table Datum) :
    s.Answers ((s.opened? body).map fun (x, node) => (idOf (s.started + 1), .start x node))
      (s.start body) := by
  unfold opened? treeFor start
  rcases (body.field "file").orElse .null with (_ | _ | _ | _ | name) | _ | _ | _
  case scalar.null =>
    obtain ⟨js, hr⟩ := s.readTree_eq (Reading.quiet_tree (body.field "tree"))
    simp only [withTree, hr]
    exact startOn_answers body s js _
  case scalar.text =>
    simp only [withFile]
    rcases s.shelf.find? name with f | _ | names
    · exact .refl s _
    · exact .refl s _
    · have quiet : Reading.Quiet (s.shelf.tree names) := Reading.quiet_file _ _
      obtain ⟨js, hr⟩ := s.readTree_eq quiet
      simp only [hr]
      exact startOn_answers body s js _
  all_goals exact .refl s _

theorem withSession_text (s : Service) (id : String) (k : String → Session → Answer) :
    s.withSession (.text id) k = s.withId id (k id) := by
  have hs : s.session? (.text id) = .ok (s.sessions.lookup id) := rfl
  unfold withSession withId
  rw [hs]
  rcases s.sessions.lookup id with _ | x
  · rfl
  · rfl

/-- A body that does not name a session by a text has no session that is gone on with. -/
theorem withSession_answers (s : Service) (body : Except Fault Datum)
    (k : Table Datum → String → Session → Answer) :
    match named? body with
    | some (id, es) =>
      s.withFields body (fun es => s.withSession (es.field "sessionId") (k es)) =
        s.withId id (k es id)
    | none =>
      s.Reports (s.withFields body fun es => s.withSession (es.field "sessionId") (k es)) := by
  unfold named? withFields
  rcases fields body with f | es
  · exact .refl s _
  simp only
  rcases es.field "sessionId" with (_ | _ | _ | _ | id) | _ | _ | _
  case scalar.text => exact withSession_text s id (k es)
  all_goals exact .refl s _

/-- A tree that is only looked at leaves nothing but a report. -/
theorem reports_of_tree (s : Service) {step : Reading.Step Tree} (quiet : Reading.Quiet step)
    {k : Service → Tree → Heap → Answer} (looks : ∀ s t h, ∃ r, k s t h = (s, r)) :
    s.Reports (match s.readTree step with
      | (s, .ok (t, h)) => k s t h
      | (s, .error f) => (s, refuseTree f)) := by
  obtain ⟨js, hr⟩ := s.readTree_eq quiet
  rw [hr]
  rcases Reading.given step {} with f | ⟨t, h⟩
  · exact ⟨js, _, rfl⟩
  · obtain ⟨r, hk⟩ := looks { s with journal := js } t h
    exact ⟨js, r, hk⟩

theorem withFile_reports (s : Service) (name : String) {k : Service → Tree → Heap → Answer}
    (looks : ∀ s t h, ∃ r, k s t h = (s, r)) : s.Reports (s.withFile name k) := by
  unfold withFile
  rcases s.shelf.find? name with f | _ | names
  · exact .refl s _
  · exact .refl s _
  · exact reports_of_tree s (Reading.quiet_file _ _) looks

theorem serve_answers (s : Service) (body : Except Fault Datum) (r : Route) :
    s.Answers (s.askFor body r) (s.serve body r) := by
  cases r with
  | start =>
    simp only [askFor, serve, withFields]
    rcases fields body with f | es
    · exact .refl s _
    · exact start_answers s es
  | choice =>
    have h := s.withSession_answers body fun es id x =>
      s.call id x (.choose (es.field "index")) refuseChoice
    simp only [askFor, serve]
    rcases hn : named? body with _ | ⟨id, es⟩
    all_goals rw [hn] at h
    · exact h
    · exact ⟨s.journal, h⟩
  | advance =>
    have h := s.withSession_answers body fun _ id x => s.call id x .advance refuseAdvance
    simp only [askFor, serve]
    rcases hn : named? body with _ | ⟨id, es⟩
    all_goals rw [hn] at h
    · exact h
    · exact ⟨s.journal, h⟩
  | state id => exact ⟨s.journal, rfl⟩
  | listing | asset => exact .refl s _
  | dialogue name | presentation name => exact withFile_reports s name fun _ _ _ => ⟨_, rfl⟩
  | validation =>
    simp only [askFor, serve, withFields]
    rcases fields body with f | es
    · exact .refl s _
    · exact reports_of_tree s (Reading.quiet_tree _) fun _ _ _ => ⟨_, rfl⟩

theorem state_eq (s : Service) (id : String) : ∃ r, s.state id = (s, r) := by
  unfold state
  rw [withSession_text, withId]
  rcases s.sessions.lookup id with _ | x
  · exact ⟨_, rfl⟩
  · exact ⟨_, rfl⟩

/-- A call is reported, and leaves its session alive unless it ends it. -/
theorem call_eq (s : Service) (id : String) (x : Session) (c : Session.Call)
    (refuse : Fault → Option Response) : s.call id x c refuse =
      (s.leave id ((s.wake x).step c), report id refuse ((s.wake x).step c)) := by
  unfold call leave
  rcases (s.wake x).step c with ⟨x', f | r⟩
  · cases f
    all_goals rfl
  · rfl

/-- If a call is due, it is made, and reported. -/
theorem answer_due {s : Service} {id : String} {asked : Ask} {x : Session} {c : Session.Call}
    (h : s.due id asked = some (x, c)) : s.answer id asked =
      { s with started := s.started + asked.starts }.call id x c asked.refuse := by
  cases asked with
  | start y node =>
    obtain ⟨rfl, rfl⟩ := Prod.mk.inj (Option.some.inj h)
    rfl
  | choose index | advance =>
    obtain ⟨y, hy, he⟩ := Option.map_eq_some_iff.1 h
    obtain ⟨rfl, rfl⟩ := Prod.mk.inj he
    rw [answer, withId, hy]
    rfl
  | state => cases h

/-- If no call is due, no session is touched. -/
theorem answer_idle {s : Service} {id : String} {asked : Ask} (h : s.due id asked = none) :
    ∃ r, s.answer id asked = (s, r) := by
  cases asked with
  | start => cases h
  | choose | advance =>
    rw [answer, withId, Option.map_eq_none_iff.1 h]
    exact ⟨_, rfl⟩
  | state => exact s.state_eq id

/-- Nothing is done but reporting for what is only read. -/
theorem serve_reports (s : Service) (body : Except Fault Datum) {r : Route}
    (reading : r.isReading = true) : s.Reports (s.serve body r) := by
  have h := serve_answers s body r
  cases r with
  | start | choice | advance | validation => cases reading
  | state id =>
    obtain ⟨r, hr⟩ := s.state_eq id
    exact ⟨s.journal, r, hr⟩
  | listing | asset | dialogue | presentation => exact h

omit [Text.Halves] in
theorem mem_methods {method path : String} {r : Route} (h : Route.find method path = .found r) :
    method ∈ r.methods := by
  unfold Route.find at h
  simp only at h
  split at h
  · rename_i r' hr
    obtain rfl := Route.Match.found.inj h
    exact of_decide_eq_true (List.find?_some (p := fun r : Route => decide (method ∈ r.methods)) hr)
  · split at h
    · cases h
    · split at h <;> cases h

omit [Text.Halves] in
/-- Only what is read can be asked for without its body. -/
theorem isReading_of_head {path : String} {r : Route}
    (h : Route.find (Text.capitals "HEAD") path = .found r) : r.isReading = true := by
  have hm := mem_methods h
  by_contra hn
  rw [Route.methods, if_neg hn] at hm
  revert hm
  decide +kernel

/-- A request is answered as it asks a session, if it asks one, and otherwise nothing is done but
reporting. -/
theorem handle_eq (s : Service) (q : Request) :
    match s.ask q with
    | some (id, asked) => ∃ js, s.handle q = close ({ s with journal := js }.answer id asked)
    | none => ∃ js r, s.handle q = ({ s with journal := js }, r) := by
  unfold ask handle
  rcases q.target.isNamed with _ | _
  · exact ⟨s.journal, _, rfl⟩
  simp only [Bool.not_true, Bool.false_eq_true, if_false, Bool.true_and]
  rcases hr : Route.find (Text.capitals q.method) q.target.path with r | _ | _ | _
  case moved | wrongMethod | unknown =>
    simp only [ite_self]
    exact ⟨s.journal, _, rfl⟩
  by_cases ho : Text.capitals q.method = "OPTIONS"
  · simp only [ho, ne_eq, not_true_eq_false, decide_false, Bool.false_and, Bool.false_eq_true,
      if_false, if_true]
    exact ⟨s.journal, _, rfl⟩
  by_cases hh : q.method = "HEAD"
  · have reading : r.isReading = true := isReading_of_head (hh ▸ hr)
    obtain ⟨js, a, ha⟩ := serve_reports s q.body reading
    simp only [hh, ne_eq, not_true_eq_false, decide_false, Bool.and_false, Bool.false_eq_true,
      if_false, if_true, ha]
    rw [hh] at ho
    rw [if_neg ho]
    rcases a with f | a
    · exact ⟨js, _, rfl⟩
    · exact ⟨js, _, rfl⟩
  · have hs := serve_answers s q.body r
    simp only [ho, hh, ne_eq, not_false_eq_true, decide_true, Bool.and_true, if_true, if_false]
    generalize s.askFor q.body r = o at hs ⊢
    rcases o with _ | ⟨id, asked⟩
    · obtain ⟨js, a, ha⟩ := hs
      rw [ha]
      rcases a with f | a
      · exact ⟨js, _, rfl⟩
      · exact ⟨js, _, rfl⟩
    · obtain ⟨js, ha⟩ := hs
      refine ⟨js, ?_⟩
      rw [ha]
      rcases answer _ id asked with ⟨s', f | a⟩
      · rfl
      · rfl

/-- The service as it turns to a session, with what has been reported until then. -/
def turn (s : Service) (js : List Notice) (asked : Ask) : Service :=
  { s with journal := js, started := s.started + asked.starts }

/-- What a request comes to: a call to a session, an answer that touches none, or nothing but a
report. -/
inductive Handling (s : Service) (q : Request) : Service × Response → Prop
  | calls {id : String} {asked : Ask} {x : Session} {c : Session.Call} (js : List Notice)
      {o : Session × Except Fault StepResult} (asks : s.ask q = some (id, asked))
      (due : s.due id asked = some (x, c)) (steps : ((s.turn js asked).wake x).step c = o) :
      Handling s q (close ((s.turn js asked).leave id o, report id asked.refuse o))
  | looks {id : String} {asked : Ask} (js : List Notice) (asks : s.ask q = some (id, asked))
      (due : s.due id asked = none) :
      Handling s q (close ({ s with journal := js }, ({ s with journal := js }.answer id asked).2))
  | aside (js : List Notice) (r : Response) (asks : s.ask q = none) :
      Handling s q ({ s with journal := js }, r)

theorem handle_cases (s : Service) (q : Request) : s.Handling q (s.handle q) := by
  have hq := s.handle_eq q
  rcases ha : s.ask q with _ | ⟨id, asked⟩
  all_goals rw [ha] at hq
  · obtain ⟨js, r, hh⟩ := hq
    exact hh ▸ .aside js r ha
  · obtain ⟨js, hh⟩ := hq
    rw [hh]
    rcases hd : s.due id asked with _ | ⟨x, c⟩
    · have hd' : { s with journal := js }.due id asked = none := by
        rw [← hd]
        cases asked <;> rfl
      obtain ⟨r, hr⟩ := answer_idle hd'
      have hl := Handling.looks js ha hd
      rwa [hr] at hl ⊢
    · have hd' : { s with journal := js }.due id asked = some (x, c) := by
        rw [← hd]
        cases asked <;> rfl
      rw [answer_due hd', call_eq]
      exact .calls js ha hd rfl

end Service

end Colloquy
