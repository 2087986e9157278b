import Colloquy.Proofs.Phases
import Colloquy.Proofs.Requests
import Colloquy.Proofs.Untimed

/-!
# The sessions that a service keeps

A service drops a session once it ends or breaks its budget. A call that is not answered ends
nothing, so its session is kept as the call has left it: as it was before, or broken off half-way
(`Session.breaksOff`). A service that starts with no sessions keeps only such as can be gone on
with just as long as no request strands one (`Service.kept_presenting`).
-/

namespace Colloquy

section service

variable [Text.Halves]

open Service (ends)

namespace Session

/-- The context of a session stays a table. -/
theorem tabled_upheld : Upheld fun s s' : Session =>
    s.store.context.root.ref?.isSome = true → s'.store.context.root.ref?.isSome = true where
  refl _ hs := hs
  trans h h' hs := h' (h hs)
  arrive s target hs := by rwa [(arrive_grown s target).root]
  finish _ hs := hs
  settle _ _ _ _ hs := hs
  overrun _ _ hs := hs
  resolve s index c _ hs := by
    rw [resolve_store, (Effect.applyAll_grown _ _).root]
    exact hs
  undo h hs := by
    rw [undo_context, Context.load_root]
    exact h hs

/-! ## Where calls leave a session -/

/-- After a call, a session is dropped or can be gone on with. -/
def Rests (o : Session × Except Fault StepResult) : Prop :=
  ends o.2 = true ∨ o.1.phase = .presenting

omit [Text.Halves] in
theorem Leaves.rests {o : Session × Except Fault StepResult} {r : StepResult} (h : o.2 = .ok r)
    (leaves : o.1.Leaves r) : Rests o := by
  cases leaves with
  | ended _ told =>
    left
    rw [h]
    exact decide_eq_true told
  | waiting phase => exact .inr phase

omit [Text.Halves] in
/-- A call that is not answered does not end its session. -/
theorem not_ends {o : Except Fault StepResult} (h : isAnswer o = false) : ends o = false := by
  rcases o with f | r
  · cases f <;> first | rfl | cases h
  · cases h

omit [Text.Halves] in
theorem not_rests {o : Session × Except Fault StepResult} (h : isAnswer o.2 = false) :
    Rests o ↔ o.1.phase = .presenting := by
  rw [Rests, not_ends h]
  exact or_iff_right nofun

/-- A run that is answered rests. -/
theorem run_rests {s : Session} {target : Datum} (h : isAnswer (s.run target).2 = true) :
    Rests (s.run target) := by
  rcases hr : (s.run target).2 with f | r
  · rw [hr] at h
    have hd : f.isDialogue = true := by
      cases f <;> first | rfl | cases h
    obtain ⟨chain, budget, rfl⟩ := (run_fails hr hd).fault
    exact .inl (by rw [hr]; rfl)
  · exact (run_leaves hr).rests hr

/-- Taking a choice rests if it is answered, and leaves the session resolving otherwise. -/
theorem take_rests (s : Session) (i : ℕ) (c : Choice × ℕ) :
    isAnswer (s.take i c).2 = true ∧ Rests (s.take i c) ∨
      isAnswer (s.take i c).2 = false ∧ (s.take i c).1.phase = .resolving := by
  have hc := take_cases s i c
  generalize s.take i c = o at hc ⊢
  cases hc with
  | broken he => exact .inr ⟨not_isAnswer (Effect.applyAll_fault (congrArg Prod.snd he)), rfl⟩
  | finished => exact .inl ⟨rfl, .inl rfl⟩
  | @going w =>
    rcases run_phase (s.resolved i c w) c.1.goto with ⟨ha, -⟩ | ⟨ha, hp⟩
    · exact .inl ⟨ha, run_rests ha⟩
    · exact .inr ⟨ha, hp⟩

omit [Text.Halves] in
/-- A guarded call is refused, or taken back and its session dropped, or let go on. -/
theorem guarded_rests {s : Session} {o : Session × Except Fault StepResult}
    (hs : s.store.context.root.ref?.isSome = true)
    (ho : o.1.store.context.root.ref?.isSome = true) :
    s.store.context.isCopyable = false ∧ s.guarded o = (s, .error .tooDeep) ∨
      s.store.context.isCopyable = true ∧
        (s.guarded o = o ∨ isAnswer (s.guarded o).2 = true ∧ Rests (s.guarded o)) := by
  have hg := guarded_cases s o
  generalize s.guarded o = o' at hg ⊢
  cases hg with
  | refused kept =>
    obtain ⟨rfl, hc⟩ := snapshot_refused kept
    exact .inl ⟨hc, rfl⟩
  | kept kept => exact .inr ⟨copyable_of_kept kept, .inl rfl⟩
  | undone kept => exact .inr ⟨copyable_of_kept kept, .inr ⟨rfl, .inl rfl⟩⟩
  | stuck _ _ part => exact absurd (part.symm.trans (undo_whole ho hs)) (Option.some_ne_none _)

/-- Whether a call breaks off half-way: it is not answered, and its session was not at rest before,
or a choice is being taken. -/
def breaksOff (s : Session) (c : Call) : Bool :=
  !isAnswer (s.step c).2 &&
    (s.phase != .presenting || (s.taken? c).isSome && s.store.context.isCopyable)

/-- A guarded run rests, unless it is not answered and the session did not rest before. -/
theorem runs_rests {s : Session} (hs : s.store.context.root.ref?.isSome = true)
    (target : Datum) : Rests (s.guarded (s.run target)) ↔
      (!isAnswer (s.guarded (s.run target)).2 && s.phase != .presenting) = false := by
  rcases guarded_rests hs (tabled_upheld.run s target hs) with ⟨-, hg⟩ | ⟨-, hg | ⟨ha, hr⟩⟩
  · rw [hg, not_rests rfl]
    simp [isAnswer]
  · rw [hg]
    rcases run_phase s target with ⟨ha, -⟩ | ⟨ha, hp⟩
    · simp [ha, run_rests ha]
    · rw [not_rests ha, hp, ha]
      simp
  · simp [ha, hr]

theorem choose_rests {s : Session} (hs : s.store.context.root.ref?.isSome = true)
    (open_ : s.phase = .presenting) (index : Datum) :
    Rests (s.choose index) ↔ s.breaksOff (.choose index) = false := by
  have refused : ∀ f, s.taken? (.choose index) = none →
      Rests (s, .error f) ∧ s.breaksOff (.choose index) = false := by
    intro f hn
    refine ⟨.inr open_, ?_⟩
    rw [breaksOff, hn, open_]
    simp
  have hb : s.breaksOff (.choose index) = (!isAnswer (s.choose index).2 &&
      (s.phase != .presenting || (s.taken? (.choose index)).isSome &&
        s.store.context.isCopyable)) := rfl
  unfold choose at hb ⊢
  split_ifs at hb ⊢ with hc
  · have hn : s.taken? (.choose index) = none := by
      rcases hi : s.offeredAt? index with _ | ⟨i, c⟩
      · rw [taken?, hi]
        rfl
      · exact absurd (mem_offered hi) (by simp [hc.resolve_left (not_not.2 open_)])
    exact iff_of_true (refused _ hn).1 (refused (s.badIndex index 0) hn).2
  · rcases hi : s.offeredAt? index with _ | ⟨i, c⟩
    · have hn : s.taken? (.choose index) = none := by
        rw [taken?, hi]
        rfl
      exact iff_of_true (refused _ hn).1 (refused .wrongKind hn).2
    · have ht : s.taken? (.choose index) = some c.1 := by
        rw [taken?, hi]
        rfl
      rw [hi, ht, open_] at hb
      simp only [bne_self_eq_false, Bool.false_or, Option.isSome_some, Bool.true_and] at hb ⊢
      rw [hb]
      rcases guarded_rests hs (tabled_upheld.take s i c (mem_offered hi) hs) with
        ⟨hk, hg⟩ | ⟨hk, hg | ⟨ha, hr⟩⟩
      · rw [hg, hk]
        exact iff_of_true (.inr open_) (Bool.and_false _)
      · rw [hg, hk]
        rcases take_rests s i c with ⟨ha, hr⟩ | ⟨ha, hp⟩
        · simp [ha, hr]
        · rw [not_rests ha, hp, ha]
          simp
      · simp [ha, hr]

/-- A session at rest is so after a call, or dropped, unless the call breaks off; and so is a new
session that enters a node. -/
theorem step_rests {s : Session} (hs : s.store.context.root.ref?.isSome = true) {c : Call}
    (ready : s.phase = .presenting ∨ ∃ node, c = .enter node) :
    Rests (s.step c) ↔ s.breaksOff c = false := by
  have plain : ∀ c, s.taken? c = none → s.breaksOff c =
      (!isAnswer (s.step c).2 && s.phase != .presenting) := by
    intro c hn
    rw [breaksOff, hn]
    simp
  cases c with
  | enter target =>
    rw [plain _ rfl]
    exact runs_rests hs target
  | start =>
    rw [plain _ rfl]
    exact runs_rests hs s.tree.start
  | end_ => exact iff_of_true (.inl rfl) (by simp [breaksOff, taken?, step, end_, isAnswer])
  | advance =>
    obtain open_ : s.phase = .presenting := ready.resolve_right (by simp)
    rw [plain _ rfl, open_]
    refine iff_of_true ?_ (by simp)
    have hc := step_cases s .advance
    generalize s.step .advance = o at hc ⊢
    cases hc with
    | runs => exact (runs_rests hs _).2 (by simp [open_])
    | finishes => exact .inl rfl
    | refused => exact .inr open_
  | choose index =>
    exact choose_rests hs (ready.resolve_right (by simp)) index

/-- Of the faults of a call that a session at rest waits for, only one is about dialogue. -/
theorem awaited_fails {s : Session} (open_ : s.phase = .presenting) {c : Call}
    (awaited : c = .advance ∨ ∃ index, c = .choose index ∧ (s.offeredAt? index).isSome = true)
    {f : Fault} (h : (s.step c).2 = .error f) (hf : f.isDialogue = true) :
    ∃ chain budget, f = .budgetExceeded chain budget := by
  rcases awaited with rfl | ⟨index, rfl, hi⟩
  · simp only [step, advance, open_, ne_eq, not_true_eq_false, if_false] at h
    split at h
    · rename_i hn
      obtain rfl := Except.error.inj h
      unfold following at hn
      split at hn
      · rename_i hl
        obtain rfl := Except.error.inj hn
        rw [Tree.lookup_error hl] at hf
        cases hf
      · cases hn
      · cases hn
    · cases h
    · exact (guarded_fails (fun _ => run_fails) h hf).fault
  · obtain ⟨⟨i, c⟩, hi⟩ := Option.isSome_iff_exists.1 hi
    have hc : ¬(s.phase ≠ .presenting ∨ s.offered = []) := by
      rintro (h | h)
      · exact h open_
      · exact absurd (mem_offered hi) (by simp [h])
    simp only [step, choose, if_neg hc, hi] at h
    exact (guarded_fails (fun _ => take_fails) h hf).fault

end Session

namespace Service

/-! ## What is kept -/

/-- Each session that is kept waits to be gone on with. -/
def AreWaiting (s : Service) : Prop := ∀ e ∈ s.sessions, e.2.phase = .presenting

def AreTabled (s : Service) : Prop :=
  ∀ e ∈ s.sessions, e.2.store.context.root.ref?.isSome = true

omit [Text.Halves] in
theorem mem_sessions {s : Service} {id : String} {x : Session}
    (h : s.sessions.lookup id = some x) : (id, x) ∈ s.sessions := by
  obtain ⟨before, after, hs, -⟩ := List.lookup_eq_some_iff.1 h
  simp [hs]

omit [Text.Halves] in
theorem mem_putSession (id : String) (x : Session) : ∀ l, (id, x) ∈ putSession id x l
  | [] => List.mem_singleton_self _
  | (i, y) :: r => by
    rw [putSession]
    split_ifs with h
    · exact h ▸ List.mem_cons_self
    · exact List.mem_cons_of_mem _ (mem_putSession id x r)

omit [Text.Halves] in
theorem mem_of_mem_putSession {id : String} {x : Session} {e : String × Session} : ∀ {l},
    e ∈ putSession id x l → e = (id, x) ∨ e ∈ l
  | [], h => .inl (List.mem_singleton.1 h)
  | (i, y) :: r, h => by
    rw [putSession] at h
    split_ifs at h with hi
    · rcases List.mem_cons.1 h with rfl | h
      · exact .inl (by rw [hi])
      · exact .inr (List.mem_cons_of_mem _ h)
    · rcases List.mem_cons.1 h with rfl | h
      · exact .inr List.mem_cons_self
      · exact (mem_of_mem_putSession h).imp_right (List.mem_cons_of_mem _)

omit [Text.Halves] in
/-- What is kept after a call was there before, or is the session that was called. -/
theorem mem_leave {s : Service} {id : String} {o : Session × Except Fault StepResult}
    {e : String × Session} (he : e ∈ (s.leave id o).sessions) :
    e ∈ s.sessions ∨ e = (id, o.1) ∧ ends o.2 = false := by
  unfold leave at he
  split_ifs at he with h
  · obtain ⟨hm, hi⟩ := List.mem_filter.1 he
    rcases mem_of_mem_putSession hm with rfl | hm
    · simp at hi
    · exact .inl hm
  · rcases mem_of_mem_putSession he with rfl | hm
    · exact .inr ⟨rfl, Bool.eq_false_iff.2 h⟩
    · exact .inl hm

omit [Text.Halves] in
theorem leave_waiting {s : Service} {id : String} {o : Session × Except Fault StepResult}
    (waiting : s.AreWaiting) : (s.leave id o).AreWaiting ↔ Session.Rests o := by
  constructor
  · intro h
    rcases he : ends o.2
    · refine .inr (h (id, o.1) ?_)
      rw [leave, he]
      exact mem_putSession id o.1 s.sessions
    · exact .inl he
  · intro h e he
    rcases mem_leave he with hm | ⟨rfl, hn⟩
    · exact waiting e hm
    · exact h.resolve_left (by rw [hn]; exact nofun)

omit [Text.Halves] in
/-- The store of a new session has a table for its context. -/
theorem storeFor_tabled {t : Tree} {h : Heap} {state : Datum} {store : Store}
    (hs : storeFor t h state = .ok store) : store.context.root.ref?.isSome = true := by
  unfold storeFor at hs
  split_ifs at hs
  · exact Store.table_ofDatum hs
  · unfold Store.make Context.ofDatum at hs
    split_ifs at hs
    · obtain rfl := Except.ok.inj hs
      rfl
    · cases hs

theorem opened_tabled {s : Service} {body : Table Datum} {x : Session} {node : Datum}
    (h : s.opened? body = some (x, node)) : x.store.context.root.ref?.isSome = true := by
  obtain ⟨⟨t, g⟩, -, ht⟩ := Option.bind_eq_some_iff.1 h
  obtain ⟨store, hs, he⟩ := Option.map_eq_some_iff.1 ht
  obtain ⟨rfl, -⟩ := Prod.mk.inj he
  rcases hf : storeFor t g (body.field "state") with f | store'
  · rw [hf] at hs
    cases hs
  · rw [hf] at hs
    obtain rfl := Option.some.inj hs
    exact storeFor_tabled hf

omit [Text.Halves] in
/-- A call is made alike whatever has been reported before. -/
theorem wake_inStep {s s' : Service} (timed : s'.clock.read.isOk = s.clock.read.isOk)
    (x : Session) : (s.wake x).InStep World.Alike (fun _ => True) (s'.wake x) where
  world := ⟨rfl, rfl, rfl, timed⟩
  rest := rfl
  tree _ _ := trivial
  offered _ _ _ _ := trivial

theorem breaksOff_wake {s s' : Service} (timed : s'.clock.read.isOk = s.clock.read.isOk)
    (x : Session) (c : Session.Call) : (s'.wake x).breaksOff c = (s.wake x).breaksOff c := by
  have h : ((s'.wake x).step c).2 = ((s.wake x).step c).2 :=
    ((wake_inStep timed x).step World.alike_lockstep c).2
  simp only [Session.breaksOff, h]
  rfl

/-- Whether a request leaves a session that cannot be gone on with: the call that it makes breaks
off. -/
def strands (s : Service) (q : Request) : Bool :=
  match s.ask q with
  | some (id, asked) => (s.due id asked).any fun e => (s.wake e.1).breaksOff e.2
  | none => false

/-- Whether any of some requests, one after the other, leaves a session that cannot be gone on
with. -/
def strandsAny : Service → List Request → Bool
  | _, [] => false
  | s, q :: qs => s.strands q || strandsAny (s.handle q).1 qs

omit [Text.Halves] in
theorem close_service : ∀ a : Answer, (close a).1 = a.1
  | (_, .ok _) | (_, .error _) => rfl

/-- A session that is called waits to be gone on with, or is new. -/
theorem due_ready {s : Service} {q : Request} (waiting : s.AreWaiting) (tabled : s.AreTabled)
    {id : String} {asked : Ask} {x : Session} {c : Session.Call}
    (asks : s.ask q = some (id, asked)) (due : s.due id asked = some (x, c)) :
    x.store.context.root.ref?.isSome = true ∧
      (x.phase = .presenting ∨ ∃ node, c = .enter node) := by
  cases asked with
  | start y node =>
    obtain ⟨rfl, rfl⟩ := Prod.mk.inj (Option.some.inj due)
    obtain ⟨-, body, opened⟩ := ask_start asks
    exact ⟨opened_tabled opened, .inr ⟨node, rfl⟩⟩
  | choose | advance =>
    obtain ⟨y, hy, he⟩ := Option.map_eq_some_iff.1 due
    obtain ⟨rfl, -⟩ := Prod.mk.inj he
    exact ⟨tabled _ (mem_sessions hy), .inl (waiting _ (mem_sessions hy))⟩
  | state => cases due

/-- After a request, all that is kept waits to be gone on with just if the request strands no
session. -/
theorem handle_waiting {s : Service} {q : Request} (waiting : s.AreWaiting)
    (tabled : s.AreTabled) : (s.handle q).1.AreWaiting ↔ s.strands q = false := by
  have hh := s.handle_cases q
  generalize s.handle q = a at hh ⊢
  cases hh with
  | @calls id asked x c js o asks due steps =>
    obtain ⟨hx, ready⟩ := due_ready waiting tabled asks due
    have hb : s.strands q = (s.wake x).breaksOff c := by
      simp only [strands, asks, due, Option.any_some]
    have waiting' : (s.turn js asked).AreWaiting := waiting
    have hr := Session.step_rests (s := (s.turn js asked).wake x) hx ready
    have timed : (s.turn js asked).clock.read.isOk = s.clock.read.isOk := rfl
    rw [close_service, leave_waiting waiting', ← steps, hr, hb, breaksOff_wake timed]
  | looks js asks due =>
    rw [close_service]
    exact iff_of_true waiting (by simp only [strands, asks, due, Option.any_none])
  | aside js r asks => exact iff_of_true waiting (by simp only [strands, asks])

theorem handle_tabled {s : Service} {q : Request} (waiting : s.AreWaiting)
    (tabled : s.AreTabled) : (s.handle q).1.AreTabled := by
  have hh := s.handle_cases q
  generalize s.handle q = a at hh ⊢
  cases hh with
  | @calls id asked x c js o asks due steps =>
    obtain ⟨hx, -⟩ := due_ready waiting tabled asks due
    rw [close_service]
    intro e he
    rcases mem_leave he with hm | ⟨rfl, -⟩
    · exact tabled e hm
    · rw [← steps]
      exact Session.tabled_upheld.step _ c hx
  | looks =>
    rw [close_service]
    exact tabled
  | aside => exact tabled

/-- A call that a session waits for is not refused: it is answered by its step or by the chain that
is too long, unless it cannot be answered. -/
theorem report_status {s : Service} {id : String} {x : Session} (open_ : x.phase = .presenting)
    {c : Session.Call} (awaited : c = .advance ∨
      ∃ index, c = .choose index ∧ (x.offeredAt? index).isSome = true)
    (refuse : Fault → Option Response) (dialogue : ∀ f r, refuse f = some r → f.isDialogue = true) :
    (close (s, report id refuse (x.step c))).2.status ∈ [200, 422, 500] := by
  rcases ho : x.step c with ⟨y, f | r⟩
  · cases hf : f.isDialogue with
    | true =>
      obtain ⟨chain, budget, rfl⟩ := Session.awaited_fails open_ awaited (congrArg Prod.snd ho) hf
      simp [report, close, Response.overrun]
    | false =>
      have hr : refuse f = none := by
        rcases hr : refuse f with _ | r
        · rfl
        · exact absurd (dialogue f r hr) (by simp [hf])
      have he : report id refuse (y, .error f) = .error f := by
        cases f <;> first | (simp only [report, hr]; done) | cases hf
      rw [he]
      simp [close]
  · simp only [report]
    rcases y.store.snapshot with f | kept
    · simp [close, bind, Except.bind]
    · simp only [bind, Except.bind, Response.send]
      split_ifs
      · simp [close]
      · simp [close]

theorem refuse_dialogue {asked : Ask} {f : Fault} {r : Response} (h : asked.refuse f = some r) :
    f.isDialogue = true := by
  cases asked with
  | start | state => cases h
  | choose =>
    cases f with
    | invalidChoice => rfl
    | _ => cases h
  | advance =>
    rw [Ask.refuse, refuseAdvance] at h
    split_ifs at h with hd
    exact hd

/-- A request that a kept session waits for: to go on, or to take a choice on offer. -/
def Awaits (s : Service) (q : Request) : Prop :=
  ∃ id x, s.sessions.lookup id = some x ∧ (s.ask q = some (id, .advance) ∨
    ∃ index, s.ask q = some (id, .choose index) ∧ (x.offeredAt? index).isSome = true)

theorem awaited_status {s : Service} (waiting : s.AreWaiting) {q : Request} (h : s.Awaits q) :
    (s.handle q).2.status ∈ [200, 422, 500] := by
  obtain ⟨id, x, kept, hq⟩ := h
  have open_ : x.phase = .presenting := waiting (id, x) (mem_sessions kept)
  obtain ⟨asked, c, asks, due, awaited⟩ : ∃ asked c, s.ask q = some (id, asked) ∧
      s.due id asked = some (x, c) ∧ (c = .advance ∨
        ∃ index, c = .choose index ∧ (x.offeredAt? index).isSome = true) := by
    rcases hq with asks | ⟨index, asks, hi⟩
    · exact ⟨.advance, .advance, asks, by rw [Service.due, kept]; rfl, .inl rfl⟩
    · exact ⟨.choose index, .choose index, asks, by rw [Service.due, kept]; rfl,
        .inr ⟨index, rfl, hi⟩⟩
  have hh := s.handle_cases q
  generalize s.handle q = a at hh ⊢
  cases hh with
  | @calls id' asked' y d js o asks' due' steps =>
    obtain ⟨rfl, rfl⟩ := Prod.mk.inj (Option.some.inj (asks.symm.trans asks'))
    obtain ⟨rfl, rfl⟩ := Prod.mk.inj (Option.some.inj (due.symm.trans due'))
    rw [← steps]
    have hx : ((s.turn js asked).wake x).phase = .presenting := open_
    exact report_status hx awaited _ fun f r => refuse_dialogue
  | looks js asks' due' =>
    obtain ⟨rfl, rfl⟩ := Prod.mk.inj (Option.some.inj (asks.symm.trans asks'))
    exact absurd (due.symm.trans due') (Option.some_ne_none _)
  | aside js r asks' => exact absurd (asks.symm.trans asks') (Option.some_ne_none _)

theorem handleAll_cons (s : Service) (q : Request) (qs : List Request) :
    s.handleAll (q :: qs) = (((s.handle q).1.handleAll qs).1,
      (s.handle q).2 :: ((s.handle q).1.handleAll qs).2) := rfl

theorem handleAll_waiting : ∀ {qs : List Request} {s : Service}, s.AreWaiting → s.AreTabled →
    ((∀ before, before <+: qs → (s.handleAll before).1.AreWaiting) ↔ s.strandsAny qs = false)
  | [], s, waiting, _ => by
    refine iff_of_true (fun before hb => ?_) rfl
    rw [List.prefix_nil.1 hb]
    exact waiting
  | q :: qs, s, waiting, tabled => by
    have hw := handle_waiting (q := q) waiting tabled
    rw [strandsAny, Bool.or_eq_false_iff]
    constructor
    · intro h
      have waiting' : (s.handle q).1.AreWaiting := h [q] (List.prefix_append [q] qs)
      refine ⟨hw.1 waiting', (handleAll_waiting waiting' (handle_tabled waiting tabled)).1 ?_⟩
      intro before hb
      exact h (q :: before) (List.cons_prefix_cons.2 ⟨rfl, hb⟩)
    · rintro ⟨hq, hqs⟩ before hb
      have waiting' := hw.2 hq
      rcases before with _ | ⟨p, before⟩
      · exact waiting
      · obtain ⟨rfl, hb'⟩ := List.cons_prefix_cons.1 hb
        exact (handleAll_waiting waiting' (handle_tabled waiting tabled)).2 hqs before hb'

/-- In a service that starts with no sessions, each session that is kept after any requests waits
for a choice or to be gone on with, just if none of the requests strands a session. No request that
a session waits for is refused then. -/
theorem kept_presenting {s : Service} (fresh : s.sessions = []) (qs : List Request) :
    ((∀ before, before <+: qs → ∀ e ∈ (s.handleAll before).1.sessions,
        e.2.phase = .presenting) ↔ s.strandsAny qs = false) ∧
      (s.strandsAny qs = false → ∀ before, before <+: qs → ∀ q,
        (s.handleAll before).1.Awaits q →
          ((s.handleAll before).1.handle q).2.status ∈ [200, 422, 500]) := by
  have waiting : s.AreWaiting := by simp [AreWaiting, fresh]
  have tabled : s.AreTabled := by simp [AreTabled, fresh]
  have h : (∀ before, before <+: qs → (s.handleAll before).1.AreWaiting) ↔
    s.strandsAny qs = false := handleAll_waiting waiting tabled
  exact ⟨h, fun hn before hb q hq => awaited_status (h.2 hn before hb) hq⟩

end Service

end service

namespace Service

attribute [local instance] Text.noHalves

/-- A request that sends a value to a resource. -/
def sending (path : String) (body : Table Datum) : Request where
  method := "POST"
  target := { path, host := "localhost".toList }
  body := .ok (.map body)

/-- Starts a session at a tollgate, with half a coin. -/
def startAtTollgate (price : ℤ) : Request :=
  sending "/api/play/start"
    [(.text "tree", Session.tollgate price), (.text "state", Session.halfCoin)]

/-- Pays at the tollgate. -/
def pay : Request :=
  sending "/api/play/choose" [(.text "sessionId", .text "s1"), (.text "index", .int 0)]

/-- A service without files. -/
def bare : Service := { shelf := default }

/-- A session that pays two coins over and over is kept, waiting for the next choice. -/
theorem kept_presenting_bare :
    let qs := [startAtTollgate 2, pay, pay, startAtTollgate 3]
    (∀ before, before <+: qs → ∀ e ∈ (bare.handleAll before).1.sessions,
      e.2.phase = .presenting) ∧ (bare.handleAll qs).1.sessions.map (·.1) = ["s1", "s2"] ∧
      ∀ before, before <+: qs → ∀ q, (bare.handleAll before).1.Awaits q →
        ((bare.handleAll before).1.handle q).2.status ∈ [200, 422, 500] := by
  intro qs
  have sure : bare.strandsAny qs = false := by decide +kernel
  obtain ⟨h, hs⟩ := kept_presenting (s := bare) rfl qs
  exact ⟨h.2 sure, by decide +kernel, hs sure⟩

/-- Where the price is beyond the range of floating point numbers, the session that pays is kept
resolving, though it can neither choose nor go on. -/
theorem stranded_atTollgate :
    let qs := [startAtTollgate (.ofNat (Nat.pow 10 400)), pay]
    bare.sessions = [] ∧ (bare.handleAll qs).2.map (·.status) = [200, 500] ∧
      (bare.handleAll qs).1.sessions.map (fun e => (e.1, e.2.phase)) = [("s1", .resolving)] ∧
      bare.strandsAny qs = true := by
  decide +kernel

end Service

end Colloquy
