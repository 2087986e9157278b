import Colloquy.Proofs.Isolated

/-!
# Requests that are refused

A request that is refused leaves the sessions as they are: what a session itself refuses, it does
nothing for (`Session.step_stops`), and whatever else is refused touches none
(`Service.handle_refused`). A request whose chain of nodes is too long takes its own session away
and no other (`Service.handle_overrun`). For a request to start a session this is the new one, as no
session has a number that has not been given out yet (`Service.handleAll_numbered`).
-/

namespace Colloquy

section service

variable [Text.Halves]

namespace Service

/-! ## Requests that ask nothing of a session -/

/-- Whether an answer does not tell of a chain of nodes that is too long. -/
def Spares (a : Answer) : Prop := (close a).2.status ≠ 422

omit [Text.Halves] in
theorem spares_error (s : Service) (f : Fault) : Spares (s, .error f) :=
  (by decide : 500 ≠ 422)

omit [Text.Halves] in
theorem spares_refusal (s : Service) {n : ℕ} (h : n ≠ 422) (message : String) :
    Spares (s, .ok (.refusal n message)) := h

theorem spares_send (s : Service) (d : Datum) : Spares (s, Response.send 200 d) := by
  unfold Response.send
  split_ifs
  · exact (by decide : 200 ≠ 422)
  · exact spares_error s _

/-- A tree that is read spares the sessions if what is done with it does. -/
theorem spares_tree (s : Service) {step : Reading.Step Tree} (quiet : Reading.Quiet step)
    {k : Service → Tree → Heap → Answer}
    (hk : ∀ s t h, Reading.given step {} = .ok (t, h) → Spares (k s t h)) :
    Spares (match s.readTree step with
      | (s, .ok (t, h)) => k s t h
      | (s, .error f) => (s, refuseTree f)) := by
  obtain ⟨js, hr⟩ := s.readTree_eq quiet
  rw [hr]
  rcases hg : Reading.given step {} with f | ⟨t, h⟩
  · simp only [refuseTree]
    split_ifs
    · exact spares_refusal _ (by decide) _
    · exact spares_error _ f
  · exact hk _ t h hg

theorem spares_file (s : Service) (name : String) {k : Service → Tree → Heap → Answer}
    (hk : ∀ names, s.shelf.find? name = .ok (some names) → ∀ s' t h,
      Reading.given (s.shelf.tree names) {} = .ok (t, h) → Spares (k s' t h)) :
    Spares (s.withFile name k) := by
  unfold withFile
  rcases hf : s.shelf.find? name with f | _ | names
  · exact spares_error s f
  · exact spares_refusal s (by decide) _
  · exact spares_tree s (Reading.quiet_file _ _) (hk names hf)

/-- A tree without a store for it starts no session. -/
theorem spares_startOn {body : Table Datum} {t : Tree} {h : Heap} (s : Service)
    (bare : (storeFor t h (body.field "state")).toOption = none) : Spares (startOn body s t h) := by
  unfold startOn
  rcases hs : storeFor t h (body.field "state") with f | store
  · cases f
    case tooDeep => exact spares_error s _
    all_goals exact spares_refusal s (by decide) _
  · rw [hs] at bare
    cases bare

theorem spares_start {s : Service} {body : Table Datum} (unopened : s.opened? body = none) :
    Spares (s.start body) := by
  unfold opened? treeFor at unopened
  unfold start
  generalize (body.field "file").orElse .null = file at unopened ⊢
  rcases file with (_ | _ | _ | _ | name) | _ | _ | _
  case scalar.null =>
    refine spares_tree s (Reading.quiet_tree _) fun s' t h hg => spares_startOn s' ?_
    simp only [hg, Except.toOption, Option.bind_some] at unopened
    exact Option.map_eq_none_iff.1 unopened
  case scalar.text =>
    refine spares_file s name fun names hf s' t h hg => spares_startOn s' ?_
    simp only [hf, hg, Except.toOption, Option.bind_some] at unopened
    exact Option.map_eq_none_iff.1 unopened
  all_goals exact spares_error s _

theorem spares_session {s : Service} {body : Except Fault Datum} (unnamed : named? body = none)
    (k : Table Datum → String → Session → Answer) :
    Spares (s.withFields body fun es => s.withSession (es.field "sessionId") (k es)) := by
  unfold named? at unnamed
  unfold withFields
  rcases hf : fields body with f | es
  · exact spares_error s f
  rw [hf] at unnamed
  simp only at unnamed ⊢
  generalize es.field "sessionId" = id at unnamed ⊢
  rcases id with (_ | _ | _ | _ | id) | _ | _ | _
  case scalar.text => cases unnamed
  case list | map | back => exact spares_error s _
  all_goals exact spares_refusal s (by decide) _

/-- A request that asks nothing of a session, or that only reads, spares the sessions. -/
theorem spares_serve {s : Service} {body : Except Fault Datum} {r : Route}
    (h : r.isReading = true ∨ s.askFor body r = none) : Spares (s.serve body r) := by
  cases r with
  | listing =>
    simp only [serve]
    rcases s.shelf.listing with f | d
    · exact spares_error s f
    · exact spares_send s d
  | dialogue name | presentation name =>
    exact spares_file s name fun _ _ s' _ _ _ => spares_send s' _
  | validation =>
    simp only [serve, withFields]
    rcases fields body with f | es
    · exact spares_error s f
    · refine spares_tree s (Reading.quiet_tree _) fun s' t h _ => ?_
      rcases t.validate with f | report
      · exact spares_error s' f
      · exact spares_send s' _
  | start =>
    have unopened := h.resolve_left Bool.false_ne_true
    simp only [askFor] at unopened
    simp only [serve, withFields]
    rcases hf : fields body with f | es
    · exact spares_error s f
    · rw [hf] at unopened
      exact spares_start (Option.map_eq_none_iff.1 unopened)
  | choice =>
    exact spares_session (Option.map_eq_none_iff.1 (h.resolve_left Bool.false_ne_true)) _
  | advance =>
    exact spares_session (Option.map_eq_none_iff.1 (h.resolve_left Bool.false_ne_true)) _
  | state id =>
    simp only [serve, state, withSession_text, withId]
    rcases s.sessions.lookup id with _ | x
    · exact spares_refusal s (by decide) _
    · simp only
      rcases x.store.snapshot with f | kept
      · exact spares_error s f
      · exact spares_send s _
  | asset => exact (by decide : 404 ≠ 422)

/-- Only a request that asks something of a session is answered by its chain of nodes. -/
theorem handle_spares {s : Service} {q : Request} (idle : s.ask q = none) :
    (s.handle q).2.status ≠ 422 := by
  unfold ask at idle
  unfold handle
  rcases hn : q.target.isNamed with _ | _
  · exact (by decide : 400 ≠ 422)
  rcases hr : Route.find (Text.capitals q.method) q.target.path with r | _ | _ | _
  all_goals
    simp only [hn, hr, Bool.not_true, Bool.false_eq_true, if_false, Bool.true_and] at idle ⊢
  case moved | wrongMethod | unknown => decide
  by_cases ho : Text.capitals q.method = "OPTIONS"
  · rw [if_pos ho]
    exact (by decide : 200 ≠ 422)
  have spared : Spares (s.serve q.body r) := by
    refine spares_serve ?_
    by_cases hh : q.method = "HEAD"
    · exact .inl (isReading_of_head (hh ▸ hr))
    · rw [if_pos (by simp [ho, hh])] at idle
      exact .inr idle
  rw [if_neg ho]
  revert spared
  rcases s.serve q.body r with ⟨s', f | answer⟩
  · exact fun spared => spared
  · intro spared
    simp only
    split_ifs
    all_goals exact spared

/-! ## What is left of the sessions -/

omit [Text.Halves] in
theorem filter_putSession (id : String) (x : Session) : ∀ l : List (String × Session),
    (putSession id x l).filter (fun e => e.1 ≠ id) = l.filter fun e => e.1 ≠ id
  | [] => by simp [putSession]
  | (i, y) :: l => by
    rw [putSession]
    split_ifs with h
    · simp [h]
    · rw [List.filter_cons, List.filter_cons, filter_putSession id x l]

omit [Text.Halves] in
/-- A session that is put in the place of one that is the same on any clock changes nothing. -/
theorem map_putSession {s : Service} {id : String} {x x' : Session} (same : s.wake x' = s.wake x) :
    ∀ {l : List (String × Session)}, l.lookup id = some x →
      (putSession id x' l).map (fun e => (e.1, s.wake e.2)) = l.map fun e => (e.1, s.wake e.2)
  | [], h => by cases h
  | (i, y) :: l, h => by
    rw [lookup_entry] at h
    rw [putSession]
    split_ifs at h with hi
    · obtain rfl := Option.some.inj h
      rw [if_pos hi.symm]
      simp [same]
    · rw [if_neg (Ne.symm hi), List.map_cons, List.map_cons, map_putSession same h]

/-- The statuses of requests that are refused. -/
def refusals : List ℕ := [400, 404, 405, 409]

/-- What the answer to a call tells of its outcome: the step, or no answer; a chain of nodes that is
too long; or what it was refused for. -/
theorem report_cases (s : Service) (id : String) (refuse : Fault → Option Response)
    (o : Session × Except Fault StepResult) :
    (close (s, report id refuse o)).2.status ∈ [200, 500] ∨
      (∃ chain budget, o.2 = .error (.budgetExceeded chain budget) ∧
        (close (s, report id refuse o)).2.status = 422) ∨
      ∃ f r, o.2 = .error f ∧ (∀ chain budget, f ≠ .budgetExceeded chain budget) ∧
        refuse f = some r ∧ (close (s, report id refuse o)).2 = r := by
  obtain ⟨x, f | r⟩ := o
  · by_cases hb : ∃ chain budget, f = .budgetExceeded chain budget
    · obtain ⟨chain, budget, rfl⟩ := hb
      exact .inr (.inl ⟨chain, budget, rfl, rfl⟩)
    have within : ∀ chain budget, f ≠ .budgetExceeded chain budget :=
      fun chain budget h => hb ⟨chain, budget, h⟩
    rcases hr : refuse f with _ | r
    · have told : report id refuse (x, .error f) = .error f := by
        cases f <;> first | exact absurd rfl (within _ _) | simp only [report, hr]
      rw [told]
      exact .inl (by simp [close])
    · have told : report id refuse (x, .error f) = .ok r := by
        cases f <;> first | exact absurd rfl (within _ _) | simp only [report, hr]
      rw [told]
      exact .inr (.inr ⟨f, r, rfl, within, hr, rfl⟩)
  · left
    simp only [report]
    rcases x.store.snapshot with f | kept
    · simp [close, bind, Except.bind]
    · simp only [bind, Except.bind, Response.send]
      split_ifs
      · simp [close]
      · simp [close]

/-- A session that is called is a new one, or one that is kept. -/
theorem due_cases {s : Service} {id : String} {asked : Ask} {x : Session} {c : Session.Call}
    (due : s.due id asked = some (x, c)) : asked.starts = 1 ∧ asked.refuse = (fun _ => none) ∨
      asked.starts = 0 ∧ s.sessions.lookup id = some x := by
  cases asked with
  | start => exact .inl ⟨rfl, rfl⟩
  | choose | advance =>
    obtain ⟨y, hy, he⟩ := Option.map_eq_some_iff.1 due
    obtain ⟨rfl, -⟩ := Prod.mk.inj he
    exact .inr ⟨rfl, hy⟩
  | state => cases due

/-- A request that is refused leaves each session as it is, but for the clock and the journal, which
are those of the service. -/
theorem handle_refused {s : Service} {q : Request} (h : (s.handle q).2.status ∈ refusals) :
    (s.handle q).1.sessions.map (fun e => (e.1, s.wake e.2)) =
      s.sessions.map fun e => (e.1, s.wake e.2) := by
  have hh := s.handle_cases q
  generalize s.handle q = a at hh h ⊢
  cases hh with
  | @calls id asked x c js o asks due steps =>
    rcases report_cases ((s.turn js asked).leave id o) id asked.refuse o with
      told | ⟨_, _, -, told⟩ | ⟨f, r, failed, within, refuses, -⟩
    · have apart : ∀ n ∈ [200, 500], n ∉ refusals := by decide
      exact absurd h (apart _ told)
    · rw [told] at h
      exact absurd h (by decide)
    · -- what the session refuses, it does nothing for
      have same : o.1 = (s.turn js asked).wake x := by
        rw [← steps] at failed ⊢
        rcases Session.step_stops failed (refuse_dialogue refuses) with ⟨same, -⟩ | spent
        · exact same
        · obtain ⟨chain, budget, hf⟩ := spent.fault
          exact absurd hf (within chain budget)
      have stays : ends o.2 = false := by
        rw [failed]
        cases f <;> first | rfl | exact absurd rfl (within _ _)
      have kept : s.sessions.lookup id = some x := by
        rcases due_cases due with ⟨-, hr⟩ | ⟨-, kept⟩
        · rw [hr] at refuses
          cases refuses
        · exact kept
      rw [close_service, leave, stays]
      exact map_putSession (by rw [same]; rfl) kept
  | looks =>
    rw [close_service]
  | aside => rfl

/-- A request whose chain of nodes is too long leaves no session with its id, and all others as they
are. -/
theorem handle_overrun {s : Service} {q : Request} (h : (s.handle q).2.status = 422) :
    ∃ id asked, s.ask q = some (id, asked) ∧
      (asked.starts = 1 ∨ asked.starts = 0 ∧ (s.sessions.lookup id).isSome = true) ∧
      (s.handle q).1.sessions = s.sessions.filter fun e => e.1 ≠ id := by
  have spares := @handle_spares _ s q
  have hh := s.handle_cases q
  generalize s.handle q = a at hh h spares ⊢
  cases hh with
  | @calls id asked x c js o asks due steps =>
    refine ⟨id, asked, asks, (due_cases due).imp And.left fun h => ⟨h.1, by rw [h.2]; rfl⟩, ?_⟩
    rcases report_cases ((s.turn js asked).leave id o) id asked.refuse o with
      told | ⟨_, _, exceeded, -⟩ | ⟨f, r, -, -, refuses, told⟩
    · rw [h] at told
      exact absurd told (by decide)
    · rw [close_service, leave, exceeded]
      exact filter_putSession id o.1 s.sessions
    · rw [told] at h
      have refused : r.status ≠ 422 := by
        cases asked with
        | start | state => cases refuses
        | choose =>
          cases f with
          | invalidChoice =>
            obtain rfl := Option.some.inj refuses
            exact (by decide : 400 ≠ 422)
          | _ => cases refuses
        | advance =>
          rw [Ask.refuse, refuseAdvance] at refuses
          split_ifs at refuses
          obtain rfl := Option.some.inj refuses
          exact (by decide : 409 ≠ 422)
      exact absurd h refused
  | @looks id asked js asks due =>
    have spared : Spares ({ s with journal := js },
        ({ s with journal := js }.answer id asked).2) := by
      cases asked with
      | start => cases due
      | choose | advance =>
        rw [answer, withId, Option.map_eq_none_iff.1 due]
        exact spares_refusal _ (by decide) _
      | state =>
        obtain ⟨r, hr⟩ := state_eq { s with journal := js } id
        have reads := @spares_serve _ { s with journal := js } (.ok .null) (.state id) (.inl rfl)
        simp only [serve, hr] at reads
        rw [answer, hr]
        exact reads
    exact absurd h spared
  | aside js r asks => exact absurd h (spares asks)

/-! ## Numbers -/

/-- Each session has a number that has been given out. -/
def AreNumbered (s : Service) : Prop := ∀ e ∈ s.sessions, ∃ n ≤ s.started, e.1 = idOf n

theorem handle_numbered {s : Service} {q : Request} (numbered : s.AreNumbered) :
    (s.handle q).1.AreNumbered := by
  have started := (s.handle_shared q).2.2.2
  have earlier : ∀ {m}, s.started ≤ m → ∀ e ∈ s.sessions, ∃ n ≤ m, e.1 = idOf n := by
    intro m hm e he
    obtain ⟨n, hn, hi⟩ := numbered e he
    exact ⟨n, hn.trans hm, hi⟩
  have hh := s.handle_cases q
  unfold AreNumbered
  rw [started]
  generalize s.handle q = a at hh ⊢
  cases hh with
  | @calls id asked x c js o asks due steps =>
    rw [close_service, asks]
    intro e he
    rcases mem_leave he with he | ⟨rfl, -⟩
    · exact earlier (Nat.le_add_right _ _) e he
    · rcases due_cases due with ⟨hs, -⟩ | ⟨-, kept⟩
      · obtain ⟨y, node, rfl⟩ := start_of_starts (by rw [hs]; decide)
        exact ⟨s.started + 1, le_rfl, (ask_start asks).1⟩
      · obtain ⟨n, hn, hi⟩ := earlier (Nat.le_add_right _ _) _ (mem_sessions kept)
        exact ⟨n, hn, hi⟩
  | looks =>
    rw [close_service]
    exact earlier (Nat.le_add_right _ _)
  | aside => exact earlier (Nat.le_add_right _ _)

theorem handleAll_numbered : ∀ {qs : List Request} {s : Service}, s.AreNumbered →
    (s.handleAll qs).1.AreNumbered
  | [], _, numbered => numbered
  | q :: _, s, numbered => by
    rw [handleAll_cons]
    exact handleAll_numbered (handle_numbered numbered)

/-- In a service that started with no sessions, a request that is refused leaves each session as it
is, but for the clock and the journal, which are those of the service. A request whose chain of
nodes is too long takes away the session that it asks something of, and changes no other; if it was to
start one, all that there were are still there. -/
theorem refused_unchanged {s : Service} (fresh : s.sessions = []) (before : List Request)
    (q : Request) :
    let now := (s.handleAll before).1
    ((now.handle q).2.status ∈ refusals →
        (now.handle q).1.sessions.map (fun e => (e.1, now.wake e.2)) =
          now.sessions.map fun e => (e.1, now.wake e.2)) ∧
      ((now.handle q).2.status = 422 → ∃ id asked, now.ask q = some (id, asked) ∧
        (asked.starts = 0 ∧ (now.sessions.lookup id).isSome = true ∧
            (now.handle q).1.sessions = now.sessions.filter (fun e => e.1 ≠ id) ∨
          asked.starts = 1 ∧ (now.handle q).1.sessions = now.sessions)) := by
  intro now
  have numbered : now.AreNumbered := handleAll_numbered (by simp [AreNumbered, fresh])
  refine ⟨handle_refused, fun h => ?_⟩
  obtain ⟨id, asked, asks, owner, left⟩ := handle_overrun h
  refine ⟨id, asked, asks, ?_⟩
  rcases owner with starts | ⟨idle, kept⟩
  · refine .inr ⟨starts, left.trans (List.filter_eq_self.2 fun e he => ?_)⟩
    obtain ⟨y, node, rfl⟩ := start_of_starts (by rw [starts]; decide)
    obtain ⟨n, hn, hi⟩ := numbered e he
    rw [(ask_start asks).1, hi]
    exact decide_eq_true (idOf_injective.ne (by omega))
  · exact .inl ⟨idle, kept, left⟩

end Service

end service

namespace Service

attribute [local instance] Text.noHalves

/-- Starts a session with a choice that leads to a node that always leads back to itself. -/
def startAtWhirlpool : Request :=
  sending "/api/play/start" [(.text "tree", .object [("nodes", .object [
    ("start", .object [("choices", .list [.object [("text", .text "jump"),
      ("goto", .text "pool")]])]),
    ("pool", .object [("autoAdvance", .bool true), ("nextNode", .text "pool")])])])]

/-- The requests after which one session is left resolving by a price that is too high, and another
one waits at the whirlpool. -/
def besideWhirlpool : List Request :=
  [startAtTollgate (.ofNat (Nat.pow 10 400)), pay, startAtWhirlpool]

/-- A request for each way to be refused. -/
def refusedThere : List Request :=
  [choosing "s2" 1, choosing "s3" 0, { choosing "s2" 0 with method := "GET" },
    sending "/api/play/advance" [(.text "sessionId", .text "s1")]]

/-- Who jumps into the whirlpool is gone, the session at the tollgate is not. -/
theorem refused_unchanged_atWhirlpool :
    refusedThere.map (fun q => ((bare.handleAll besideWhirlpool).1.handle q).2.status) =
        [400, 404, 405, 409] ∧
      (∀ q ∈ refusedThere,
        ((bare.handleAll besideWhirlpool).1.handle q).1.sessions.map
            (fun e => (e.1, (bare.handleAll besideWhirlpool).1.wake e.2)) =
          (bare.handleAll besideWhirlpool).1.sessions.map
            fun e => (e.1, (bare.handleAll besideWhirlpool).1.wake e.2)) ∧
      ((bare.handleAll besideWhirlpool).1.handle (choosing "s2" 0)).2.status = 422 ∧
      (∃ id asked, (bare.handleAll besideWhirlpool).1.ask (choosing "s2" 0) = some (id, asked) ∧
        (asked.starts = 0 ∧
            ((bare.handleAll besideWhirlpool).1.sessions.lookup id).isSome = true ∧
            ((bare.handleAll besideWhirlpool).1.handle (choosing "s2" 0)).1.sessions =
              (bare.handleAll besideWhirlpool).1.sessions.filter (fun e => e.1 ≠ id) ∨
          asked.starts = 1 ∧
            ((bare.handleAll besideWhirlpool).1.handle (choosing "s2" 0)).1.sessions =
              (bare.handleAll besideWhirlpool).1.sessions)) ∧
      ((bare.handleAll besideWhirlpool).1.handle (choosing "s2" 0)).1.sessions.map
          (fun e => (e.1, e.2.phase)) =
        [("s1", .resolving)] := by
  have statuses : refusedThere.map
      (fun q => ((bare.handleAll besideWhirlpool).1.handle q).2.status) = [400, 404, 405, 409] := by
    decide +kernel
  have broken : ((bare.handleAll besideWhirlpool).1.handle (choosing "s2" 0)).2.status = 422 := by
    decide +kernel
  refine ⟨statuses, fun q hq => ?_, broken, ?_, by decide +kernel⟩
  · have told : ((bare.handleAll besideWhirlpool).1.handle q).2.status ∈ refusals := by
      have all : ∀ n ∈ refusedThere.map
          (fun q => ((bare.handleAll besideWhirlpool).1.handle q).2.status), n ∈ refusals := by
        rw [statuses]
        decide
      exact all _ (List.mem_map_of_mem hq)
    exact (refused_unchanged (s := bare) rfl besideWhirlpool q).1 told
  · exact (refused_unchanged (s := bare) rfl besideWhirlpool (choosing "s2" 0)).2 broken

end Service

end Colloquy
