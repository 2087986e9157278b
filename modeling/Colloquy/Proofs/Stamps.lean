import Colloquy.Proofs.Forest
import Colloquy.Proofs.Serial
import Colloquy.Proofs.Walk
import Colloquy.Script.Given

/-!
# The times in quest records

A record keeps the time of the latest transition to each status, and its status is that of the
latest of these times, if the clock goes on between any two readings: starting a quest begins a new
record, and completing or failing it stamps the record with a time that is later than all the times
it has (`Quest.Stamped.move`). So it stays when a store is kept and restored, or written as data and
read again, since the records that come back have been there before (`Ledger.turns_tell`).
-/

namespace Colloquy

theorem Number.lt_int {m n : ℤ} (h : m < n) : (Number.int m).lt (.int n) = true := by
  have one : (0 : ℤ) < Binary64.one := by decide +kernel
  have scaled := Int.mul_lt_mul_of_pos_right h one
  simp only [lt, rank?, Rank.lt, scaled, decide_true, beq_self_eq_true, Bool.and_self, Bool.or_true]

/-- The readings of a clock, each of them later than those before it. -/
structure Timer where
  reading : ℕ → Number
  increases : ∀ m n, m < n → (reading m).lt (reading n) = true

/-- A reading as it is put into a record. -/
def Timer.stamp (clock : Timer) (n : ℕ) : Datum := .scalar (.ofNumber (clock.reading n))

theorem Timer.stamp_ne_null (clock : Timer) (n : ℕ) : clock.stamp n ≠ .null := by
  unfold stamp
  cases clock.reading n <;> nofun

/-! ## Records -/

namespace Quest

/-- That a time is later than another one, if there is another one. -/
def Later (a b : Datum) : Prop :=
  b ≠ .null → ∃ x y : Number, a = .scalar (.ofNumber x) ∧ b = .scalar (.ofNumber y) ∧ y.lt x = true

/-- That the status of a record is the one of the latest time in it. -/
structure TellsLast (q : Quest) : Prop where
  active_iff : q.status = .active ↔ q.completed = .null ∧ q.failed = .null
  active : q.status = .active → q.started ≠ .null
  completed : q.status = .completed →
    q.completed ≠ .null ∧ Later q.completed q.started ∧ Later q.completed q.failed
  failed : q.status = .failed →
    q.failed ≠ .null ∧ Later q.failed q.started ∧ Later q.failed q.completed

variable (clock : Timer)

/-- That a time is one of the first readings of a clock, if there is a time. -/
def IsPast (n : ℕ) (d : Datum) : Prop :=
  d = .null ∨ ∃ m < n, d = clock.stamp m

/-- A record that tells its last transition, with times of the first readings of a clock only. -/
structure Stamped (n : ℕ) (q : Quest) : Prop extends TellsLast q where
  started_past : IsPast clock n q.started
  completed_past : IsPast clock n q.completed
  failed_past : IsPast clock n q.failed

variable {clock} {n : ℕ} {d : Datum}

theorem IsPast.mono {n' : ℕ} (h : IsPast clock n d) (hn : n ≤ n') : IsPast clock n' d :=
  h.imp_right fun ⟨m, hm, hd⟩ => ⟨m, hm.trans_le hn, hd⟩

theorem IsPast.succ (n : ℕ) : IsPast clock (n + 1) (clock.stamp n) :=
  .inr ⟨n, Nat.lt_succ_self n, rfl⟩

theorem IsPast.later (h : IsPast clock n d) : Later (clock.stamp n) d := by
  intro there
  obtain ⟨m, hm, rfl⟩ := h.resolve_left there
  exact ⟨_, _, rfl, rfl, clock.increases m n hm⟩

theorem Stamped.mono {q : Quest} {n' : ℕ} (kept : q.Stamped clock n) (hn : n ≤ n') :
    q.Stamped clock n' where
  toTellsLast := kept.toTellsLast
  started_past := kept.started_past.mono hn
  completed_past := kept.completed_past.mono hn
  failed_past := kept.failed_past.mono hn

/-- A transition at the next reading is the last one that the record then tells. -/
theorem Stamped.move {old : Option Quest} (kept : ∀ q ∈ old, q.Stamped clock n) (status : Status) :
    (Quest.move old status (clock.stamp n)).Stamped clock (n + 1) := by
  have null : ∀ n, IsPast clock n .null := fun _ => .inl rfl
  -- a record that is not there has no times
  have past : ∀ status, IsPast clock n (old.getD { status }).started ∧
      IsPast clock n (old.getD { status }).completed ∧
      IsPast clock n (old.getD { status }).failed := by
    intro status
    cases old with
    | none => exact ⟨null n, null n, null n⟩
    | some q =>
      obtain ⟨-, hs, hc, hf⟩ := kept q rfl
      exact ⟨hs, hc, hf⟩
  have grow : ∀ {d}, IsPast clock n d → IsPast clock (n + 1) d := fun h => h.mono n.le_succ
  cases status with
  | active =>
    exact {
      active_iff := ⟨fun _ => ⟨rfl, rfl⟩, fun _ => rfl⟩
      active := fun _ => clock.stamp_ne_null n
      completed := nofun
      failed := nofun
      started_past := .succ n
      completed_past := null _
      failed_past := null _ }
  | completed =>
    obtain ⟨hs, hc, hf⟩ := past .completed
    exact {
      active_iff := ⟨nofun, fun h => absurd h.1 (clock.stamp_ne_null n)⟩
      active := nofun
      completed := fun _ => ⟨clock.stamp_ne_null n, hs.later, hf.later⟩
      failed := nofun
      started_past := grow hs
      completed_past := .succ n
      failed_past := grow hf }
  | failed =>
    obtain ⟨hs, hc, hf⟩ := past .failed
    exact {
      active_iff := ⟨nofun, fun h => absurd h.2 (clock.stamp_ne_null n)⟩
      active := nofun
      completed := nofun
      failed := fun _ => ⟨clock.stamp_ne_null n, hs.later, hc.later⟩
      started_past := grow hs
      completed_past := grow hc
      failed_past := .succ n }

/-- A record that is written as data is read again as it was. -/
theorem ofDatum_toDatum (q : Quest) : ofDatum q.toDatum = .ok q := by
  obtain ⟨status, started, completed, failed⟩ := q
  cases status <;> rfl

end Quest

/-! ## Stores -/

/-- That a clock shows a time, whenever it is read. -/
def Clock.Shows (c : Clock) (x : Number) : Prop := c = { now := x, step := .int 0 }

theorem Clock.Shows.read {c : Clock} {x : Number} (shows : c.Shows x) :
    ∃ c', c.read = .ok (.scalar (.ofNumber x), c') := by
  rw [shows]
  cases x with
  | int n => exact ⟨_, rfl⟩
  | float x =>
    have zero : (Binary64.ofInt? 0).isSome := by decide +kernel
    obtain ⟨z, hz⟩ := Option.isSome_iff_exists.1 zero
    refine ⟨{ now := .float (x.add z), step := .int 0 }, ?_⟩
    simp only [Clock.read, Number.add?, Number.toBinary64?, hz]
    rfl

variable {clock : Timer} {n : ℕ}

namespace Store

/-- A store whose records tell their last transitions. -/
def Stamped (clock : Timer) (n : ℕ) (s : Store) : Prop :=
  ∀ e ∈ s.quests, e.2.Stamped clock n

theorem Stamped.mono {s : Store} {n' : ℕ} (kept : s.Stamped clock n) (hn : n ≤ n') :
    s.Stamped clock n' :=
  fun e he => (kept e he).mono hn

theorem Stamped.moveQuest {s : Store} (kept : s.Stamped clock n) (key : Scalar)
    (status : Quest.Status) :
    (s.moveQuest key status (clock.stamp n)).1.Stamped clock (n + 1) := by
  intro e he
  rcases Table.mem_put he with he | he
  · exact (kept e he).mono n.le_succ
  · rw [he]
    refine Quest.Stamped.move (fun q hq => ?_) status
    obtain ⟨k, hk⟩ := Table.mem_of_get? hq
    exact kept (k, q) hk

theorem Stamped.restore {s old : Store} (kept : s.Stamped clock n) (kept' : old.Stamped clock n) :
    (s.restore old).1.Stamped clock n := by
  unfold Store.restore
  split
  · exact kept'
  · exact kept

theorem questsOf_toDatum (t : Table Quest) :
    questsOf (t.map fun (k, q) => (k, q.toDatum)) = .ok t := by
  induction t with
  | nil => rfl
  | cons e t ih => rw [List.map_cons, questsOf, Quest.ofDatum_toDatum, ih]

theorem quests_ofDatum_toDatum {h : Heap} {s s' : Store} (read : ofDatum h s.toDatum = .ok s') :
    s'.quests = s.quests := by
  obtain ⟨es, hes, hq, -⟩ := ofDatum_parts read
  cases hes
  exact Except.ok.inj (hq.symm.trans (questsOf_toDatum s.quests))

end Store

theorem World.moveQuest_stamped {w : World} (kept : w.store.Stamped clock n)
    (shows : w.clock.Shows (clock.reading n)) (key : Datum) (status : Quest.Status) :
    (w.moveQuest key status).1.store.Stamped clock (n + 1) := by
  obtain ⟨c, hc⟩ := shows.read
  rw [moveQuest, hc]
  dsimp only
  split
  · exact kept.mono n.le_succ
  · exact kept.moveQuest _ status

namespace Effect

/-- How many times an effect reads the clock. -/
def readings : Effect → ℕ
  | .moveQuest _ _ => 1
  | _ => 0

/-- An effect that does not read the clock leaves it as it is. -/
theorem clock_apply [Text.Halves] {w : World} {e : Effect} (unread : e.readings = 0) :
    (e.apply w).1.clock = w.clock := by
  have written : ∀ (w : World) path op v, (writeValue w path op v).1.clock = w.clock := by
    intro w path op v
    unfold writeValue World.set
    rcases w.store.set path v with f | ⟨s, replaced⟩
    · rfl
    · simp only [Except.map]
      split_ifs <;> rfl
  cases e with
  | setFlag | toggleFlag | malformed => rfl
  | write path op source =>
    rw [apply]
    unfold applyWrite
    split
    · split
      · exact written _ _ _ _
      · rfl
    · split
      · rename_i n _
        have still : (w.distinguish n).1.clock = w.clock := by
          unfold World.distinguish
          split <;> rfl
        exact (written _ _ _ _).trans still
      · rfl
  | moveQuest => cases unread

theorem apply_stamped [Text.Halves] {w : World} (kept : w.store.Stamped clock n)
    (shows : w.clock.Shows (clock.reading n)) (e : Effect) :
    (e.apply w).1.store.Stamped clock (n + e.readings) := by
  cases e with
  | setFlag | toggleFlag | malformed => exact kept
  | write path op source =>
    have same := (applyWrite_rest w path op source).2
    intro e he
    rw [apply, same] at he
    exact kept e he
  | moveQuest key t =>
    have moved := World.moveQuest_stamped kept shows (.text key) t.status
    rw [apply]
    rcases hm : w.moveQuest (.text key) t.status with ⟨w', f | q⟩ <;> rw [hm] at moved <;>
      exact moved

end Effect

theorem World.apply_stamped [Text.Halves] {w : World} (kept : w.store.Stamped clock n)
    (shows : w.clock.Shows (clock.reading n)) (d : Datum) :
    (w.apply d).1.store.Stamped clock (n + (Effect.ofDatum w.store.context.heap d).2.readings) := by
  let read := Effect.ofDatum w.store.context.heap d
  let context := { w.store.context with heap := read.1 }
  exact Effect.apply_stamped
    (w := { w with store := { w.store with context } }.noteAll read.2.readNotices)
    kept shows read.2

/-! ## Runs -/

/-- A world with the snapshots of its store, and how many times its clock has been read. -/
structure Ledger where
  world : World
  kept : List Snapshot := []
  reads : ℕ := 0

namespace Ledger

/-- What is done to a store: effects are applied, quests moved, and the store is kept, restored or
read again from what was written of a kept one. -/
inductive Turn where
  | apply (e : Effect)
  | script (d : Datum)
  | moveQuest (key : Datum) (status : Quest.Status)
  | keep
  | restore (i : ℕ)
  | read (i : ℕ)

section turns
variable [Text.Halves] (clock)

/-- The world with its clock at the next reading. -/
def due (l : Ledger) : World :=
  { l.world with clock := { now := clock.reading l.reads, step := .int 0 } }

/-- A turn. A snapshot and what is written of a store are the same; what cannot be kept or read
leaves the store as it was. -/
def turn (l : Ledger) : Turn → Ledger
  | .apply e => { l with world := (e.apply (l.due clock)).1, reads := l.reads + e.readings }
  | .script d =>
    let e := (Effect.ofDatum l.world.store.context.heap d).2
    { l with world := ((l.due clock).apply d).1, reads := l.reads + e.readings }
  | .moveQuest key status =>
    { l with world := ((l.due clock).moveQuest key status).1, reads := l.reads + 1 }
  | .keep =>
    match l.world.store.snapshot with
    | .ok old => { l with kept := l.kept ++ [old] }
    | .error _ => l
  | .restore i =>
    match l.kept[i]? with
    | some old => { l with world.store := (l.world.store.restore old).1 }
    | none => l
  | .read i =>
    match l.kept[i]?.map fun old => Store.ofDatum l.world.store.context.heap old.toDatum with
    | some (.ok store) => { l with world.store := store }
    | _ => l

def turns (l : Ledger) (ts : List Turn) : Ledger :=
  ts.foldl (turn clock) l

/-- All records, also those that may come back, tell their last transitions. -/
structure Stamped (l : Ledger) : Prop where
  store : l.world.store.Stamped clock l.reads
  kept : ∀ old ∈ l.kept, old.Stamped clock l.reads

variable {clock}

theorem Stamped.turn {l : Ledger} (H : l.Stamped clock) (t : Turn) :
    (l.turn clock t).Stamped clock := by
  cases t with
  | apply e =>
    exact ⟨Effect.apply_stamped (w := l.due clock) H.store rfl e,
      fun old h => (H.kept old h).mono (Nat.le_add_right _ _)⟩
  | script d =>
    exact ⟨World.apply_stamped (w := l.due clock) H.store rfl d,
      fun old h => (H.kept old h).mono (Nat.le_add_right _ _)⟩
  | moveQuest key status =>
    exact ⟨World.moveQuest_stamped (w := l.due clock) H.store rfl key status,
      fun old h => (H.kept old h).mono (Nat.le_succ _)⟩
  | keep =>
    rw [Ledger.turn]
    split
    · rename_i old hs
      obtain rfl := Session.snapshot_eq hs
      refine ⟨H.store, fun old h => ?_⟩
      rcases List.mem_append.1 h with h | h
      · exact H.kept old h
      · rw [List.mem_singleton.1 h]
        exact H.store
    · exact H
  | restore i =>
    rw [Ledger.turn]
    split
    · rename_i old ho
      exact ⟨H.store.restore (H.kept old (List.mem_of_getElem? ho)), H.kept⟩
    · exact H
  | read i =>
    rw [Ledger.turn]
    split
    · rename_i s hs
      obtain ⟨old, ho, hs⟩ := Option.map_eq_some_iff.1 hs
      refine ⟨?_, H.kept⟩
      intro e he
      rw [Store.quests_ofDatum_toDatum hs] at he
      exact H.kept old (List.mem_of_getElem? ho) e he
    · exact H

theorem Stamped.turns {l : Ledger} (H : l.Stamped clock) (ts : List Turn) :
    (l.turns clock ts).Stamped clock := by
  induction ts generalizing l with
  | nil => exact H
  | cons t ts ih => exact ih (H.turn t)

/-- Whatever is done to a store that began without quests, each of its records tells its last
transition. -/
theorem turns_tell (clock : Timer) {w : World} (new : w.store.quests = []) (ts : List Turn) :
    ∀ e ∈ (turns clock { world := w } ts).world.store.quests, e.2.TellsLast := by
  have store : w.store.Stamped clock 0 := by
    rw [Store.Stamped, new]
    exact List.forall_mem_nil _
  have start : Ledger.Stamped clock { world := w } := ⟨store, List.forall_mem_nil _⟩
  exact fun e he => ((start.turns ts).store e he).toTellsLast

end turns

section run

attribute [local instance] Text.noHalves

/-- A clock that counts its readings. -/
def counting : Timer where
  reading n := .int n
  increases _ _ h := Number.lt_int (Int.ofNat_lt.2 h)

/-- An errand fails, but it is the one that was kept before it was done, and then it is done. -/
theorem turns_tell_errand :
    let l := turns counting { world := { store := .empty #[] } }
      [.script (.text "start_quest.errand"), .keep, .moveQuest (.text "errand") .completed,
        .restore 0, .apply (.moveQuest "errand" .fail), .keep, .read 1,
        .script (.text "complete_quest. errand")]
    l.world.store.quests = [(.text "errand",
      { status := .completed, started := .int 0, completed := .int 3, failed := .int 2 })] ∧
      ∀ e ∈ l.world.store.quests, e.2.TellsLast := by
  exact ⟨by decide +kernel, turns_tell counting rfl _⟩

end run

end Ledger

end Colloquy
