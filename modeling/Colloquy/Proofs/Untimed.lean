import Colloquy.Proofs.Answered
import Colloquy.Proofs.Lockstep
import Colloquy.Proofs.Refs

/-!
# What does not depend on the time

The clock stamps the transitions of quests, and nothing else. Conditions read the status of a quest
but no time of it, so two worlds that are the same but for these times, the clock and what has been
reported (`World.Alike`) stay so in lockstep (`World.alike_lockstep`). A session therefore does the
same on any clock, as long as it can be read.
-/

namespace Colloquy

/-- A record without the times of its transitions. -/
def Quest.untimed (q : Quest) : Quest := { status := q.status }

/-- A store without the times of its quests. -/
def Store.untimed (s : Store) : Store :=
  { s with quests := s.quests.map fun (k, q) => (k, q.untimed) }

/-- Two worlds that are the same but for the times of quests, the clock and what has been reported,
with clocks that can both be read or neither. -/
structure World.Alike (w w' : World) : Prop where
  store : w'.store.untimed = w.store.untimed
  payload : w'.payload = w.payload
  isHeard : w'.isHeard = w.isHeard
  timed : w'.clock.read.isOk = w.clock.read.isOk

namespace Store

section untimed

variable {s s' : Store} (H : s'.untimed = s.untimed)
include H

theorem flags_of_untimed : s'.flags = s.flags := (Store.mk.inj H).1

theorem context_of_untimed : s'.context = s.context := (Store.mk.inj H).2.1

theorem status_of_untimed (key : Scalar) :
    (s'.quest? key).map (·.status) = (s.quest? key).map (·.status) := by
  have hs : ∀ s : Store, (s.quest? key).map (·.status) =
      (Table.get? s.untimed.quests key).map (·.status) := by
    intro s
    rw [untimed, Table.get?_map, Option.map_map]
    rfl
  rw [hs, hs, H]

theorem flag_of_untimed (key : Scalar) : s'.flag key = s.flag key := by
  rw [flag, flag, flag?, flag?, flags_of_untimed H]

theorem get?_of_untimed (path : String) : s'.get? path = s.get? path := by
  rw [get?, get?, context_of_untimed H]

end untimed

/-- Moving a quest comes to the same but for the time. -/
theorem untimed_moveQuest (s : Store) (key : Scalar) (status : Quest.Status) (time : Datum) :
    (s.moveQuest key status time).1.untimed =
      { s with quests := Table.put s.untimed.quests key { status } } := by
  have hq : (Quest.move (s.quest? key) status time).untimed = { status } := by
    cases status <;> rfl
  unfold moveQuest untimed
  simp only
  rw [← Table.put_map Quest.untimed, hq]

/-- Restoring comes to the same but for the times of quests. -/
theorem untimed_restore {s s' old old' : Store} (H : s'.untimed = s.untimed)
    (O : old'.untimed = old.untimed) :
    (s'.restore old').1.untimed = (s.restore old).1.untimed ∧
      (s'.restore old').2 = (s.restore old).2 := by
  unfold restore
  rw [context_of_untimed H, context_of_untimed O]
  rcases s.context.load old.context with ⟨c, _ | f⟩
  · simp only [untimed, flags_of_untimed O, (Store.mk.inj O).2.2, and_self]
  · simp only [untimed, flags_of_untimed O, (Store.mk.inj H).2.2, and_self]

end Store

namespace Condition

variable [Text.Halves]

omit [Text.Halves] in
theorem resolve_of_untimed {s s' : Store} (H : s'.untimed = s.untimed) (o : Operand) :
    o.resolve s' = o.resolve s := by
  cases o with
  | flag key => simp only [Operand.resolve, Store.flag_of_untimed H]
  | context path => exact Store.get?_of_untimed H path
  | quest key =>
    have hs := congrArg (Option.map fun st : Quest.Status => Value.text st.name)
      (Store.status_of_untimed H (.text key))
    rw [Option.map_map, Option.map_map] at hs
    exact hs
  | literal value => rfl

/-- A condition comes out alike whatever the times of quests are. -/
theorem holds_of_untimed {s s' : Store} (H : s'.untimed = s.untimed) (c : Condition) :
    c.holds s' = c.holds s := by
  have hc := Store.context_of_untimed H
  cases c with
  | literal | malformed => rfl
  | flag key => simp only [holds, Store.flag_of_untimed H]
  | context path => simp only [holds, Store.get?_of_untimed H, hc]
  | quest key =>
    have hs := congrArg Option.isSome (Store.status_of_untimed H (.text key))
    rw [Option.isSome_map, Option.isSome_map] at hs
    simp only [holds, hs]
  | comparison left sign right => simp only [holds, resolve_of_untimed H, hc]
  | check space key test value =>
    have ha : actual s' space key = actual s space key := by
      cases space with
      | flag => simp only [actual, Store.flag?, Store.flags_of_untimed H, hc]
      | context => simp only [actual, Store.get?_of_untimed H, hc]
      | quest =>
        have hs := congrArg (Option.map fun st : Quest.Status =>
          (s.context.heap, Value.text st.name)) (Store.status_of_untimed H (.text key))
        rw [Option.map_map, Option.map_map] at hs
        simp only [actual, hc]
        exact hs
    simp only [holds, ha]

end Condition

namespace World.Alike

variable {w w' : World}

theorem inStore (H : w.Alike w') {s s' : Store} (Hs : s'.untimed = s.untimed) :
    World.Alike { w with store := s } { w' with store := s' } :=
  ⟨Hs, H.payload, H.isHeard, H.timed⟩

/-- What is written into the context is written alike. -/
theorem writeValue (H : w.Alike w') (path : String) (op : Operation) (v : Value) :
    (Effect.writeValue w path op v).1.Alike (Effect.writeValue w' path op v).1 ∧
      (Effect.writeValue w' path op v).2 = (Effect.writeValue w path op v).2 := by
  have hc := Store.context_of_untimed H.store
  unfold Effect.writeValue World.set Store.set
  rw [hc]
  rcases w.store.context.set (Path.split path) v with f | ⟨c, replaced⟩
  · exact ⟨H, rfl⟩
  have Hw : World.Alike { w with store := { w.store with context := c } }
      { w' with store := { w'.store with context := c } } := by
    refine H.inStore ?_
    simp only [Store.untimed, Store.flags_of_untimed H.store, (Store.mk.inj H.store).2.2]
  simp only [Except.map, World.noteAll, H.isHeard]
  split_ifs
  · exact ⟨⟨Hw.store, Hw.payload, rfl, Hw.timed⟩, rfl⟩
  · exact ⟨⟨Hw.store, Hw.payload, rfl, Hw.timed⟩, rfl⟩

theorem distinguish (H : w.Alike w') (n : Number) :
    (w.distinguish n).1.Alike (w'.distinguish n).1 ∧ (w'.distinguish n).2 = (w.distinguish n).2 := by
  cases n with
  | int => exact ⟨H, rfl⟩
  | float x =>
    cases x with
    | nan =>
      exact ⟨⟨H.store, congrArg (· + 1) H.payload, H.isHeard, H.timed⟩,
        congrArg (fun p => Number.float (.nan p)) H.payload⟩
    | infinite | finite => exact ⟨H, rfl⟩

theorem applyWrite (H : w.Alike w') (path : String) (op : Operation) (source : Source) :
    (Effect.applyWrite w path op source).1.Alike (Effect.applyWrite w' path op source).1 ∧
      (Effect.applyWrite w' path op source).2 = (Effect.applyWrite w path op source).2 := by
  have hs : source.resolve w'.store = source.resolve w.store := by
    cases source with
    | flag key => simp only [Source.resolve, Store.flag_of_untimed H.store]
    | context p => exact Store.get?_of_untimed H.store p
    | value v => rfl
  unfold Effect.applyWrite
  simp only [hs, Store.get?_of_untimed H.store]
  cases op with
  | set =>
    rcases source.resolve w.store with _ | v
    · exact ⟨⟨H.store, H.payload, H.isHeard, H.timed⟩, rfl⟩
    · exact H.writeValue path .set v
  | add | subtract =>
    simp only
    rcases Effect.combine? _ _ _ with _ | n
    · exact ⟨H, rfl⟩
    · obtain ⟨Hd, hn⟩ := H.distinguish n
      simp only [hn]
      exact Hd.writeValue path _ _

/-- Quests are moved alike, each at its own time, if both clocks can be read or neither. -/
theorem moveQuest (H : w.Alike w') (key : String) (status : Quest.Status) :
    ((∃ q q', (w.moveQuest (.text key) status).2 = .ok q ∧
        (w'.moveQuest (.text key) status).2 = .ok q') ∨
      ∃ f, (w.moveQuest (.text key) status).2 = .error f ∧
        (w'.moveQuest (.text key) status).2 = .error f) ∧
    (w.moveQuest (.text key) status).1.Alike (w'.moveQuest (.text key) status).1 := by
  have ht := H.timed
  unfold World.moveQuest
  rcases hc : w.clock.read with f | ⟨time, clock⟩
  all_goals rcases hc' : w'.clock.read with f' | ⟨time', clock'⟩
  all_goals rw [hc, hc'] at ht
  · have hf : ∀ {c : Clock} {f}, c.read = .error f → f = .beyondRange := by
      intro c f h
      unfold Clock.read at h
      split at h
      · cases h
      · exact (Except.error.inj h).symm
    rw [hf hc, hf hc']
    exact ⟨.inr ⟨_, rfl, rfl⟩, H⟩
  · cases ht
  · cases ht
  · refine ⟨.inl ⟨_, _, rfl, rfl⟩, ?_, H.payload, H.isHeard, ?_⟩
    · have hm : ∀ (s : Store) (time : Datum), (s.moveQuest (.text key) status time).1.untimed = _ :=
        fun s time => s.untimed_moveQuest (.text key) status time
      simp only [Datum.key, hm, H.store, Store.flags_of_untimed H.store,
        Store.context_of_untimed H.store]
    · exact (Clock.read_again hc').trans (Clock.read_again hc).symm

theorem setFlag (H : w.Alike w') (key : Scalar) (value : Bool) :
    (w'.store.setFlag key value).untimed = (w.store.setFlag key value).untimed := by
  simp only [Store.setFlag, Store.untimed, Store.flags_of_untimed H.store,
    Store.context_of_untimed H.store, (Store.mk.inj H.store).2.2]

end World.Alike

/-- Worlds that are the same but for times stay so in lockstep. -/
theorem World.alike_lockstep [Text.Halves] : World.Lockstep World.Alike fun _ => True where
  note H _ := ⟨H.store, H.payload, H.isHeard, H.timed⟩
  holds H c := Condition.holds_of_untimed H.store c
  apply {w w'} H e _ := by
    cases e with
    | setFlag key value =>
      exact ⟨⟨H.setFlag _ _, H.payload, H.isHeard, H.timed⟩, rfl⟩
    | toggleFlag key =>
      refine ⟨⟨?_, H.payload, H.isHeard, H.timed⟩, rfl⟩
      simp only [Effect.apply, Store.toggleFlag, Store.flag_of_untimed H.store]
      exact H.setFlag _ _
    | write path op source => exact H.applyWrite path op source
    | moveQuest key t =>
      obtain ⟨ho, Hm⟩ := H.moveQuest key t.status
      simp only [Effect.apply]
      rcases hm : w.moveQuest (.text key) t.status with ⟨w₁, o⟩
      rcases hm' : w'.moveQuest (.text key) t.status with ⟨w₁', o'⟩
      rw [hm, hm'] at ho Hm
      rcases ho with ⟨q, q', rfl, rfl⟩ | ⟨f, rfl, rfl⟩
      · exact ⟨⟨Hm.store, Hm.payload, Hm.isHeard, Hm.timed⟩, rfl⟩
      · exact ⟨Hm, rfl⟩
    | malformed => exact ⟨⟨H.store, H.payload, H.isHeard, H.timed⟩, rfl⟩
  copyable H := by rw [Store.context_of_untimed H.store]
  restore H B :=
    have hr := Store.untimed_restore H.store B.store
    ⟨H.inStore hr.1, hr.2⟩

/-! ## Clocks that can be read -/

/-- Whether the clock of a world can be read. -/
def World.isTimed (w : World) : Bool := w.clock.read.isOk

variable [Text.Halves]

namespace Effect

omit [Text.Halves] in
theorem writeValue_timed (w : World) (path : String) (op : Operation) (v : Value) :
    (writeValue w path op v).1.isTimed = w.isTimed := by
  unfold writeValue World.set
  rcases w.store.set path v with f | ⟨store, replaced⟩
  · rfl
  · simp only [Except.map]
    split_ifs
    · rfl
    · rfl

omit [Text.Halves] in
theorem applyWrite_timed (w : World) (path : String) (op : Operation) (source : Source) :
    (applyWrite w path op source).1.isTimed = w.isTimed := by
  have distinguish : ∀ n, (w.distinguish n).1.isTimed = w.isTimed := by
    intro n
    unfold World.distinguish
    split
    · rfl
    · rfl
  unfold applyWrite
  split
  · split
    · exact writeValue_timed _ _ _ _
    · rfl
  · split
    · exact (writeValue_timed _ _ _ _).trans (distinguish _)
    · rfl

omit [Text.Halves] in
/-- A clock that can be read can be read again, whatever is done. -/
theorem apply_timed (w : World) (e : Effect) : (e.apply w).1.isTimed = w.isTimed := by
  cases e with
  | setFlag | toggleFlag | malformed => rfl
  | write path op source => exact applyWrite_timed w path op source
  | moveQuest key t =>
    simp only [apply, World.moveQuest]
    rcases hc : w.clock.read with f | ⟨time, clock⟩
    · simp only [World.isTimed, hc]
    · have again : clock.read.isOk = w.clock.read.isOk := by
        rw [hc]
        exact Clock.read_again hc
      exact again

omit [Text.Halves] in
theorem applyAll_timed : ∀ (es : List Effect) (w : World),
    (applyAll w es).1.isTimed = w.isTimed
  | [], _ => rfl
  | e :: es, w => by
    have he := apply_timed w e
    unfold applyAll
    rcases ha : e.apply w with ⟨w', _ | f⟩
    all_goals rw [ha] at he
    · exact (applyAll_timed es w').trans he
    · exact he

end Effect

theorem Tree.visit_timed (t : Tree) (w : World) (target : Datum) :
    (t.visit w target).1.isTimed = w.isTimed := by
  unfold visit
  split
  · rfl
  · rfl
  · rename_i n _
    split
    · rfl
    · have he := Effect.applyAll_timed n.effects w
      split <;> rename_i ha <;> rwa [ha] at he
    · rfl

/-- The clock of a session can be read after a call just if it could be before. -/
theorem Session.timed_upheld :
    Session.Upheld fun s s' : Session => s'.world.isTimed = s.world.isTimed where
  refl _ := rfl
  trans h h' := h'.trans h
  arrive s target := by
    have hv := s.tree.visit_timed s.world target
    have hc := arrive_cases s target
    generalize s.arrive target = o at hc ⊢
    cases hc with
    | failed he | nowhere he | unclear he | shown he => rwa [he] at hv
  finish _ := rfl
  settle _ _ _ _ := rfl
  overrun _ _ := rfl
  resolve s index c _ := by
    have he := Effect.applyAll_timed c.1.effects s.world
    unfold resolve
    rcases ha : Effect.applyAll s.world c.1.effects with ⟨w, _ | f⟩
    all_goals rwa [ha] at he
  undo {s before} h := by
    unfold undo
    split
    · exact h
    · exact h

end Colloquy
