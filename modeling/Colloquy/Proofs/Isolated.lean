import Colloquy.Proofs.Dropped

/-!
# Sessions apart from each other

A service runs many sessions in turn on one clock. Each of them is answered as one is that is asked
alone (`Service.alone`), up to the times of its quests: what it is asked reaches it only, and what it
does depends on its own tree, store and budget (`Service.sessions_isolated`).
-/

namespace Colloquy

/-! ## Responses without times -/

namespace Datum

/-- Puts something else in the place of a named field. -/
def mapField (name : String) (f : Datum → Datum) : Datum → Datum
  | .map es => .map (es.map fun e => if e.1 = .text name then (e.1, f e.2) else e)
  | d => d

/-- Puts something else in the place of each field. -/
def mapFields (f : Datum → Datum) : Datum → Datum
  | .map es => .map (es.map fun e => (e.1, f e.2))
  | d => d

/-- The data of a store without the times of its quests. -/
def untimed (d : Datum) : Datum :=
  let blank := fun name => mapField name fun _ => .null
  d.mapField "quests" (mapFields (blank "started" ∘ blank "completed" ∘ blank "failed"))

end Datum

theorem Store.toDatum_untimed (s : Store) : s.toDatum.untimed = s.untimed.toDatum := by
  simp [toDatum, Datum.untimed, Datum.mapField, Datum.mapFields, Datum.object, untimed,
    Quest.toDatum, Quest.untimed]

section service

variable [Text.Halves]

namespace Service

/-- A response without the times of quests. -/
def Response.untimed (r : Response) : Response :=
  { r with body := r.body.map (Datum.mapField "state" Datum.untimed) }

/-! ## A session alone -/

/-- The response to a call that a session has done. -/
def respond (id : String) (refuse : Fault → Option Response) :
    Session × Except Fault StepResult → Response
  | (x, .ok r) => ⟨200, some (.object [("sessionId", .text id), ("step", r.toDatum),
      ("state", x.store.toDatum)])⟩
  | (_, .error (.budgetExceeded chain budget)) => .overrun (.budgetExceeded chain budget) chain
  | (_, .error f) => (refuse f).getD ⟨500, none⟩

/-- The response that shows a session. -/
def showing (x : Session) : Response :=
  ⟨200, some (.object [("session", x.toDatum), ("state", x.store.toDatum)])⟩

/-- What is left of a session after a call, with the response. -/
def conclude (id : String) (refuse : Fault → Option Response)
    (o : Session × Except Fault StepResult) : Option Session × Response :=
  (if ends o.2 then none else some o.1, respond id refuse o)

/-- A session that is asked alone, on a clock of its own: what is left of it, with the response.
Nothing is left once it has ended or broken its budget. -/
def alone (id : String) (clock : Clock) : Option Session → Ask → Option Session × Response
  | _, .start x node => conclude id (fun _ => none)
      ({ x with world := { x.world with clock } }.step (.enter node))
  | some x, .choose index => conclude id refuseChoice (x.step (.choose index))
  | some x, .advance => conclude id refuseAdvance (x.step .advance)
  | some x, .state => (some x, showing x)
  | none, _ => (none, .unknownSession (.text id))

/-- The responses of a session that is asked alone. -/
def replies (id : String) (clock : Clock) : Option Session → List Ask → List Response
  | _, [] => []
  | x, asked :: more =>
    (alone id clock x asked).2 :: replies id clock (alone id clock x asked).1 more

/-- What requests ask of the session with an id, with the responses to them. -/
def carried (id : String) : Service → List Request → List (Ask × Response)
  | _, [] => []
  | s, q :: qs =>
    match s.ask q with
    | some (i, asked) =>
      if i = id then (asked, (s.handle q).2) :: carried id (s.handle q).1 qs
      else carried id (s.handle q).1 qs
    | none => carried id (s.handle q).1 qs

/-! ## The sessions that are kept -/

omit [Text.Halves] in
theorem lookup_entry (i : String) (e : String × Session) (l : List (String × Session)) :
    (e :: l).lookup i = if i = e.1 then some e.2 else l.lookup i := by
  rw [List.lookup_cons]
  by_cases h : i = e.1
  · simp [h]
  · simp [h, beq_eq_false_iff_ne.2 h]

omit [Text.Halves] in
theorem lookup_putSession (id i : String) (x : Session) : ∀ l,
    (putSession id x l).lookup i = if i = id then some x else l.lookup i
  | [] => lookup_entry i (id, x) []
  | (j, y) :: r => by
    rw [putSession]
    by_cases hj : j = id
    · rw [if_pos hj, lookup_entry, lookup_entry, hj]
      split_ifs <;> rfl
    · rw [if_neg hj, lookup_entry, lookup_entry, lookup_putSession id i x r]
      split_ifs with h₁ h₂
      · exact absurd (h₁.symm.trans h₂) hj
      all_goals rfl

omit [Text.Halves] in
theorem lookup_drop (s : Service) (id i : String) :
    (s.drop id).sessions.lookup i = if i = id then none else s.sessions.lookup i := by
  unfold drop
  simp only
  induction s.sessions with
  | nil => simp
  | cons e l ih =>
    rw [List.filter_cons]
    by_cases he : e.1 = id
    · rw [if_neg (by simp [he]), ih, lookup_entry, he]
      split_ifs <;> rfl
    · rw [if_pos (by simp [he]), lookup_entry, lookup_entry, ih]
      split_ifs with h₁ h₂
      · exact absurd (h₁.symm.trans h₂) he
      all_goals rfl

omit [Text.Halves] in
/-- A call leaves the other sessions as they are. -/
theorem lookup_leave (s : Service) (id i : String) (o : Session × Except Fault StepResult) :
    (s.leave id o).sessions.lookup i = if i = id then (if ends o.2 then none else some o.1)
      else s.sessions.lookup i := by
  have kept := lookup_putSession id i o.1 s.sessions
  unfold leave
  split_ifs with he hi hi
  · rw [lookup_drop, if_pos hi]
  · rw [lookup_drop, if_neg hi]
    exact kept.trans (if_neg hi)
  · exact kept.trans (if_pos hi)
  · exact kept.trans (if_neg hi)

omit [Text.Halves] in
theorem leave_world (s : Service) (id : String) (o : Session × Except Fault StepResult) :
    (s.leave id o).clock = o.1.world.clock ∧ (s.leave id o).journal = o.1.world.journal := by
  unfold leave
  split_ifs
  · exact ⟨rfl, rfl⟩
  · exact ⟨rfl, rfl⟩

omit [Text.Halves] in
theorem wake_leave (s : Service) (id : String) (o : Session × Except Fault StepResult) :
    (s.leave id o).wake o.1 = o.1 := by
  obtain ⟨hc, hj⟩ := s.leave_world id o
  rw [wake, hc, hj]

/-! ## Side by side -/

/-- A kept session is the same as one that is asked alone, but for times, and so are none. -/
structure Beside (s : Service) (id : String) (clock : Clock) (y : Option Session) : Prop where
  timed : s.clock.read.isOk = clock.read.isOk
  same : Option.Rel (fun x y => (s.wake x).InStep World.Alike (fun _ => True) y)
    (s.sessions.lookup id) y

omit [Text.Halves] in
theorem rewake {s s' : Service} (timed : s'.clock.read.isOk = s.clock.read.isOk) {x y : Session}
    (H : (s.wake x).InStep World.Alike (fun _ => True) y) :
    (s'.wake x).InStep World.Alike (fun _ => True) y where
  world := ⟨H.world.store, H.world.payload, H.world.isHeard, H.world.timed.trans timed.symm⟩
  rest := H.rest
  tree _ _ := trivial
  offered _ _ _ _ := trivial

omit [Text.Halves] in
theorem Beside.on {s s' : Service} {id : String} {clock : Clock} {y : Option Session}
    (H : s.Beside id clock y) (kept : s'.sessions.lookup id = s.sessions.lookup id)
    (timed : s'.clock.read.isOk = s.clock.read.isOk) : s'.Beside id clock y := by
  have same := H.same
  refine ⟨timed.trans H.timed, ?_⟩
  rw [kept]
  generalize s.sessions.lookup id = x at same ⊢
  cases same with
  | some hxy => exact .some (rewake timed hxy)
  | none => exact .none

/-- The clock of a service can be read after a request just if it could be before. -/
theorem handle_timed (s : Service) (q : Request) :
    (s.handle q).1.clock.read.isOk = s.clock.read.isOk := by
  have hh := s.handle_cases q
  generalize s.handle q = a at hh ⊢
  cases hh with
  | @calls id asked x c js o asks due steps =>
    have ht : o.1.world.isTimed = _ := steps ▸ Session.timed_upheld.step _ c
    rw [close_service, (leave_world _ id o).1]
    exact ht
  | looks =>
    rw [close_service]
  | aside => rfl

theorem handle_other {s : Service} {id : String} {clock : Clock} {y : Option Session}
    (H : s.Beside id clock y) {q : Request} (other : ∀ asked, s.ask q ≠ some (id, asked)) :
    (s.handle q).1.Beside id clock y := by
  refine H.on ?_ (s.handle_timed q)
  have hh := s.handle_cases q
  generalize s.handle q = a at hh ⊢
  cases hh with
  | @calls i asked x c js o asks due steps =>
    have hi : id ≠ i := fun h => other asked (h ▸ asks)
    rw [close_service, lookup_leave, if_neg hi]
    rfl
  | looks =>
    rw [close_service]
  | aside => rfl

/-- What is called is the same as what is called alone. -/
theorem due_alone {s : Service} {id : String} {clock : Clock} {y : Option Session}
    (H : s.Beside id clock y) {asked : Ask} {x : Session} {c : Session.Call}
    (due : s.due id asked = some (x, c)) :
    ∃ y', (s.wake x).InStep World.Alike (fun _ => True) y' ∧
      alone id clock y asked = conclude id asked.refuse (y'.step c) := by
  have hs := H.same
  cases asked with
  | start z node =>
    obtain ⟨rfl, rfl⟩ := Prod.mk.inj (Option.some.inj due)
    exact ⟨{ z with world := { z.world with clock } },
      ⟨⟨rfl, rfl, rfl, H.timed.symm⟩, rfl, fun _ _ => trivial, fun _ _ _ _ => trivial⟩, rfl⟩
  | choose | advance =>
    obtain ⟨z, hz, he⟩ := Option.map_eq_some_iff.1 due
    obtain ⟨rfl, rfl⟩ := Prod.mk.inj he
    rw [hz] at hs
    cases hs with
    | some hxy => exact ⟨_, hxy, rfl⟩
  | state => cases due

theorem respond_untimed {id : String} {refuse : Fault → Option Response}
    {o o' : Session × Except Fault StepResult}
    (H : Session.InStepOutcome World.Alike (fun _ => True) o o') :
    (respond id refuse o).untimed = (respond id refuse o').untimed := by
  obtain ⟨x, r⟩ := o
  obtain ⟨y, r'⟩ := o'
  obtain ⟨hw, rfl⟩ := H
  have hs : x.store.untimed.toDatum = y.store.untimed.toDatum :=
    congrArg Store.toDatum hw.world.store.symm
  rcases r' with f | r
  · cases f
    all_goals rfl
  · simp [respond, Response.untimed, Datum.object, Datum.mapField, Store.toDatum_untimed, hs]

theorem showing_untimed {x y : Session} (H : x.InStep World.Alike (fun _ => True) y) :
    (showing x).untimed = (showing y).untimed := by
  have hs : x.store.untimed.toDatum = y.store.untimed.toDatum :=
    congrArg Store.toDatum H.world.store.symm
  have hx : y.toDatum = x.toDatum := by
    rw [H.rest]
    rfl
  simp [showing, Response.untimed, Datum.object, Datum.mapField, Store.toDatum_untimed, hs, hx]

/-- What can be sent is what is told. -/
theorem send_store (s : Service) (x : Session) (tell : Datum → Datum)
    (h : (close (s, do
      let state ← x.store.snapshot
      Response.send 200 (tell state.toDatum))).2.status ≠ 500) :
    (close (s, do
      let state ← x.store.snapshot
      Response.send 200 (tell state.toDatum))).2 = ⟨200, some (tell x.store.toDatum)⟩ := by
  rcases hk : x.store.snapshot with f | kept
  · rw [hk] at h
    exact absurd rfl h
  · obtain rfl := Session.snapshot_eq hk
    rw [hk] at h
    simp only [bind, Except.bind, Response.send] at h ⊢
    split_ifs at h ⊢
    · rfl
    · exact absurd rfl h

theorem report_eq {s : Service} {id : String} {refuse : Fault → Option Response}
    {o : Session × Except Fault StepResult}
    (h : (close (s, report id refuse o)).2.status ≠ 500) :
    (close (s, report id refuse o)).2 = respond id refuse o := by
  obtain ⟨x, f | r⟩ := o
  · cases f
    case budgetExceeded => rfl
    all_goals
      simp only [report, respond]
      split
      · rename_i hr
        rw [hr]
        rfl
      · rename_i hr
        rw [hr]
        rfl
  · exact send_store s x (fun state => .object [("sessionId", .text id), ("step", r.toDatum),
      ("state", state)]) h

/-- Where no call is due, a session that is shown is left as it is, and one that is not there cannot
be found. -/
theorem answer_alone {s : Service} {id : String} {clock : Clock} {y : Option Session}
    (H : s.Beside id clock y) {asked : Ask} (due : s.due id asked = none) :
    (alone id clock y asked).1 = y ∧ ((close (s, (s.answer id asked).2)).2.status ≠ 500 →
      (close (s, (s.answer id asked).2)).2.untimed = (alone id clock y asked).2.untimed) := by
  have same := H.same
  cases asked with
  | start => cases due
  | choose | advance =>
    have absent := Option.map_eq_none_iff.1 due
    rw [absent] at same
    cases same
    rw [answer, withId, absent]
    exact ⟨rfl, fun _ => rfl⟩
  | state =>
    rw [answer, state, withSession_text, withId]
    generalize s.sessions.lookup id = x at same ⊢
    cases same with
    | none => exact ⟨rfl, fun _ => rfl⟩
    | @some x y hxy =>
      refine ⟨rfl, fun h => ?_⟩
      have hs := send_store s x (fun state => .object [("session", x.toDatum), ("state", state)]) h
      have hy : (showing (s.wake x)).untimed = (showing y).untimed := showing_untimed hxy
      exact (congrArg _ hs).trans hy

/-- A session is left as it is alone, and answered so. -/
theorem handle_own {s : Service} {id : String} {clock : Clock} {y : Option Session}
    (H : s.Beside id clock y) {q : Request} {asked : Ask} (asks : s.ask q = some (id, asked)) :
    (s.handle q).1.Beside id clock (alone id clock y asked).1 ∧
      ((s.handle q).2.status ≠ 500 →
        (s.handle q).2.untimed = (alone id clock y asked).2.untimed) := by
  have ht := s.handle_timed q
  have hh := s.handle_cases q
  generalize s.handle q = a at hh ht ⊢
  cases hh with
  | @calls i asked' x c js o asks' due steps =>
    obtain ⟨rfl, rfl⟩ := Prod.mk.inj (Option.some.inj (asks.symm.trans asks'))
    obtain ⟨y', Hy, halone⟩ := due_alone H due
    have turned : (s.turn js asked).clock.read.isOk = s.clock.read.isOk := rfl
    have Ho := (rewake turned Hy).step World.alike_lockstep c
    rw [steps] at Ho
    rw [halone]
    refine ⟨⟨ht.trans H.timed, ?_⟩, fun h => (congrArg _ (report_eq h)).trans (respond_untimed Ho)⟩
    rw [close_service, lookup_leave, if_pos rfl, conclude, Ho.2]
    split_ifs
    · exact .none
    · refine .some ?_
      rw [wake_leave]
      exact Ho.1
  | @looks i asked' js asks' due =>
    obtain ⟨rfl, rfl⟩ := Prod.mk.inj (Option.some.inj (asks.symm.trans asks'))
    have turned : { s with journal := js }.Beside id clock y := H.on rfl rfl
    have due' : { s with journal := js }.due id asked = none := by
      rw [← due]
      cases asked <;> rfl
    obtain ⟨hy, hr⟩ := answer_alone turned due'
    rw [hy]
    refine ⟨?_, hr⟩
    rw [close_service]
    exact turned
  | aside js r asks' => exact absurd (asks.symm.trans asks') (Option.some_ne_none _)

theorem carried_own {id : String} {s : Service} {q : Request} {asked : Ask}
    (asks : s.ask q = some (id, asked)) (qs : List Request) : carried id s (q :: qs) =
      (asked, (s.handle q).2) :: carried id (s.handle q).1 qs := by
  rw [carried, asks]
  exact if_pos rfl

theorem carried_other {id : String} {s : Service} {q : Request}
    (other : ∀ asked, s.ask q ≠ some (id, asked)) (qs : List Request) :
    carried id s (q :: qs) = carried id (s.handle q).1 qs := by
  rw [carried]
  rcases ha : s.ask q with _ | ⟨i, asked⟩
  · rfl
  · exact if_neg fun hi => other asked (by rw [ha, hi])

/-- The responses that are carried are those of a session that is asked alone. -/
theorem carried_replies {id : String} {clock : Clock} : ∀ {qs : List Request} {s : Service}
    {y : Option Session}, s.Beside id clock y → (∀ e ∈ carried id s qs, e.2.status ≠ 500) →
      (carried id s qs).map (·.2.untimed) =
        (replies id clock y ((carried id s qs).map (·.1))).map (·.untimed)
  | [], _, _, _, _ => rfl
  | q :: qs, s, y, H, answered => by
    by_cases h : ∃ asked, s.ask q = some (id, asked)
    · obtain ⟨asked, asks⟩ := h
      rw [carried_own asks, List.forall_mem_cons] at answered
      obtain ⟨hnext, hreply⟩ := handle_own H asks
      rw [carried_own asks, List.map_cons, List.map_cons, replies, List.map_cons,
        hreply answered.1, carried_replies hnext answered.2]
    · have other := not_exists.1 h
      rw [carried_other other] at answered ⊢
      exact carried_replies (handle_other H other) answered

/-! ## Ids -/

omit [Text.Halves] in
/-- Sessions with different numbers have different ids. -/
theorem idOf_injective : Function.Injective idOf := by
  intro m n h
  have hd : Nat.toDigits 10 m = Nat.toDigits 10 n := by
    have ht := congrArg String.toList h
    simpa [idOf, Text.ofNat] using ht
  rw [← Nat.ofDigitChars_ten_toDigits (n := m), hd, Nat.ofDigitChars_ten_toDigits]

/-- A request leaves what all sessions share as it is, and counts the session that it starts. -/
theorem handle_shared (s : Service) (q : Request) :
    (s.handle q).1.shelf = s.shelf ∧ (s.handle q).1.budget = s.budget ∧
      (s.handle q).1.isHeard = s.isHeard ∧
      (s.handle q).1.started = s.started + ((s.ask q).elim 0 fun e => e.2.starts) := by
  have hl : ∀ (s : Service) (id : String) (o : Session × Except Fault StepResult),
      (s.leave id o).shelf = s.shelf ∧ (s.leave id o).budget = s.budget ∧
        (s.leave id o).isHeard = s.isHeard ∧ (s.leave id o).started = s.started := by
    intro s id o
    unfold leave
    split_ifs
    · exact ⟨rfl, rfl, rfl, rfl⟩
    · exact ⟨rfl, rfl, rfl, rfl⟩
  have hh := s.handle_cases q
  generalize s.handle q = a at hh ⊢
  cases hh with
  | @calls id asked x c js o asks due steps =>
    rw [close_service, asks]
    exact hl (s.turn js asked) id o
  | @looks id asked js asks due =>
    rw [close_service, asks]
    cases asked with
    | start => cases due
    | choose | advance | state => exact ⟨rfl, rfl, rfl, rfl⟩
  | aside js r asks =>
    rw [asks]
    exact ⟨rfl, rfl, rfl, rfl⟩

omit [Text.Halves] in
theorem start_of_starts {asked : Ask} (h : asked.starts ≠ 0) : ∃ x node, asked = .start x node := by
  cases asked with
  | start x node => exact ⟨x, node, rfl⟩
  | choose | advance | state => exact absurd rfl h

/-- Once the numbers that have an id are used up, no session with the id is started. -/
theorem carried_started {id : String} : ∀ {qs : List Request} {s : Service},
    (∀ n, s.started < n → idOf n ≠ id) → ∀ e ∈ carried id s qs, e.1.starts = 0
  | [], _, _ => List.forall_mem_nil _
  | q :: qs, s, past => by
    have past' : ∀ n, (s.handle q).1.started < n → idOf n ≠ id := by
      intro n hn
      rw [(s.handle_shared q).2.2.2] at hn
      exact past n (by omega)
    by_cases h : ∃ asked, s.ask q = some (id, asked)
    · obtain ⟨asked, asks⟩ := h
      rw [carried_own asks, List.forall_mem_cons]
      refine ⟨?_, carried_started past'⟩
      by_contra hs
      obtain ⟨x, node, rfl⟩ := start_of_starts hs
      exact past _ (Nat.lt_succ_self _) (ask_start asks).1.symm
    · rw [carried_other (not_exists.1 h)]
      exact carried_started past'

/-- A session with an id is started once at most. -/
theorem starts_le_one (id : String) : ∀ (qs : List Request) (s : Service),
    ((carried id s qs).map (·.1.starts)).sum ≤ 1
  | [], _ => Nat.zero_le 1
  | q :: qs, s => by
    by_cases h : ∃ asked, s.ask q = some (id, asked)
    · obtain ⟨asked, asks⟩ := h
      rw [carried_own asks, List.map_cons, List.sum_cons]
      by_cases hs : asked.starts = 0
      · rw [hs, Nat.zero_add]
        exact starts_le_one id qs _
      · obtain ⟨x, node, rfl⟩ := start_of_starts hs
        have past : ∀ n, (s.handle q).1.started < n → idOf n ≠ id := by
          intro n hn
          rw [(s.handle_shared q).2.2.2, asks] at hn
          rw [(ask_start asks).1]
          exact idOf_injective.ne (Nat.ne_of_gt hn)
        have none : ∀ e ∈ carried _ (s.handle q).1 qs, e.1.starts = 0 := carried_started past
        rw [List.map_congr_left none, List.map_const', List.sum_replicate]
        simp [Ask.starts]
    · rw [carried_other (not_exists.1 h)]
      exact starts_le_one id qs _

theorem handleAll_shared : ∀ (qs : List Request) (s : Service),
    (s.handleAll qs).1.shelf = s.shelf ∧ (s.handleAll qs).1.budget = s.budget ∧
      (s.handleAll qs).1.isHeard = s.isHeard
  | [], _ => ⟨rfl, rfl, rfl⟩
  | q :: qs, s => by
    obtain ⟨h₁, h₂, h₃, -⟩ := s.handle_shared q
    obtain ⟨g₁, g₂, g₃⟩ := handleAll_shared qs (s.handle q).1
    exact ⟨g₁.trans h₁, g₂.trans h₂, g₃.trans h₃⟩

/-- In a service that starts with no sessions, whatever requests come and in whatever order, those
that carry one id are answered as a session is that is asked alone, up to the times of quests: as
its calls return, with status 400 for an index that is none of a choice, 409 for going on where it
cannot, 422 for a broken budget, and 404 before it is started and after it has ended or broken its
budget. It is started once at most, and what a request asks of it depends on the request, the files
and the budget only, and on the number of the session if it starts one. -/
theorem sessions_isolated {s : Service} (fresh : s.sessions = []) {clock : Clock}
    (timed : s.clock.read.isOk = clock.read.isOk) (id : String) {qs : List Request}
    (answered : ∀ e ∈ carried id s qs, e.2.status ≠ 500) :
    (carried id s qs).map (·.2.untimed) =
        (replies id clock none ((carried id s qs).map (·.1))).map (·.untimed) ∧
      ((carried id s qs).map (·.1.starts)).sum ≤ 1 ∧
      ∀ before q, (s.handleAll before).1.ask q =
        { s with started := (s.handleAll before).1.started }.ask q := by
  have beside : s.Beside id clock none := by
    refine ⟨timed, ?_⟩
    rw [fresh]
    exact .none
  refine ⟨carried_replies beside answered, starts_le_one id qs s, fun before q => ?_⟩
  obtain ⟨shelf, budget, isHeard⟩ := handleAll_shared before s
  exact ask_quiet (s := { s with started := (s.handleAll before).1.started }) shelf budget isHeard
    rfl q

end Service

end service

namespace Service

attribute [local instance] Text.noHalves

/-- Starts a session in which a quest is given, and done by a choice that ends it. -/
def startErrand : Request :=
  sending "/api/play/start" [(.text "tree", .object [("nodes", .object [
    ("start", .object [("effects", .list [.text "start_quest.fetch"]), ("choices", .list [.object [
      ("text", .text "done"), ("goto", .text "end")]])]),
    ("end", .object [("effects", .list [.text "complete_quest.fetch"])])])])]

/-- Takes a choice in a session. -/
def choosing (id : String) (index : ℤ) : Request :=
  sending "/api/play/choose" [(.text "sessionId", .text id), (.text "index", .int index)]

/-- Two clients on the same errand are answered each as if there were no other one, though the clock
that stamps their quests is one and the same. -/
theorem sessions_isolated_bare :
    let qs := [startErrand, startErrand, choosing "s2" 1, choosing "s1" 0, choosing "s2" 0,
      choosing "s2" 0, choosing "s1" 0]
    (carried "s2" bare qs).map (·.2.status) = [200, 400, 200, 404] ∧
      (carried "s2" bare qs).map (·.2.untimed) =
        (replies "s2" {} none ((carried "s2" bare qs).map (·.1))).map (·.untimed) ∧
      (carried "s2" bare qs).map (·.2) ≠
        replies "s2" {} none ((carried "s2" bare qs).map (·.1)) := by
  intro qs
  have answered : (carried "s2" bare qs).map (·.2.status) = [200, 400, 200, 404] := by
    decide +kernel
  have fine : ∀ e ∈ carried "s2" bare qs, e.2.status ≠ 500 := by
    intro e he h
    have hm := List.mem_map_of_mem (f := fun e : Ask × Response => e.2.status) he
    rw [answered, h] at hm
    revert hm
    decide
  have timed : bare.clock.read.isOk = ({} : Clock).read.isOk := rfl
  obtain ⟨same, -⟩ := sessions_isolated rfl timed "s2" fine
  exact ⟨answered, same, by decide +kernel⟩

end Service

end Colloquy
