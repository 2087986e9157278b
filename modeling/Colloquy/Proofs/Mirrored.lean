import Colloquy.Proofs.Lockstep
import Colloquy.Proofs.Mirror

/-!
# Sessions that mirror each other

Where the context of a store mirrors that of another one and all else is the same, every condition
comes out alike (`Store.Mirrors.holds_eq`) and every effect does the same on both sides
(`Effect.apply_mirrors`), as long as the values that effects write have the same names there
(`Effect.Kept`). So worlds that mirror each other go on doing so in lockstep
(`World.mirrors_lockstep`), and sessions with them, with the same outcomes
(`Session.Mirrors.step`).
-/

namespace Colloquy

variable {f : Ref → Ref} {S : Ref → Prop}

/-! ## Conditions -/

/-- A store repeats another one: its context does, and all else is the same. -/
structure Store.Repeats (f : Ref → Ref) (S : Ref → Prop) (s s' : Store) : Prop where
  context : s.context.Repeats f S s'.context
  flags : s'.flags = s.flags
  quests : s'.quests = s.quests

theorem Store.Repeats.toDatum_eq {s s' : Store} (R : s.Repeats f S s') :
    s'.toDatum = s.toDatum := by
  rw [toDatum, toDatum, R.flags, R.quests, R.context.view_eq]

/-- A store mirrors another one: its context does, and all else is the same. -/
structure Store.Mirrors (f : Ref → Ref) (S : Ref → Prop) (s s' : Store) : Prop where
  context : s.context.Mirrors f S s'.context
  flags : s'.flags = s.flags
  quests : s'.quests = s.quests

namespace Value

theorem compare_rename [Text.Halves] {h h' : Heap} (H : Heap.Repeats h h' f S) {a b : Value}
    (ha : a.In S) (hb : b.In S) (r : Relation) :
    compare h' (a.rename f) r (b.rename f) = compare h a r b := by
  have hn : ∀ v : Value, (v.rename f).number? = v.number? := by
    intro v
    cases v <;> rfl
  have ht : ∀ v : Value, (v.rename f).isText = v.isText := by
    intro v
    cases v <;> rfl
  have hs : looselySame h' (a.rename f) (b.rename f) = looselySame h a b := by
    unfold looselySame numerallySame Heap.equal?
    rw [H.equalWithin_eq _ ha hb, hn, hn, ht, ht]
  have ho : ∀ numbers texts, ordered numbers texts (a.rename f) (b.rename f) =
      ordered numbers texts a b := by
    intro numbers texts
    cases b with
    | scalar | list => cases a <;> rfl
    | map =>
      cases a with
      | scalar s => cases s <;> rfl
      | list | map => rfl
  cases r with
  | equals => exact hs
  | notEquals => exact congrArg (·.map (!·)) hs
  | greater | less | greaterEquals | lessEquals => exact congrArg Except.ok (ho _ _)

end Value

namespace Store.Mirrors

variable {s s' : Store}

theorem flag_eq (H : s.Mirrors f S s') (key : Scalar) : s'.flag key = s.flag key := by
  rw [flag, flag, flag?, flag?, H.flags]

theorem get?_eq (H : s.Mirrors f S s') (path : String) :
    s'.get? path = (s.get? path).map (·.rename f) ∧ ∀ v, s.get? path = some v → v.In S :=
  H.context.get?_eq _

theorem repeats (H : s.Mirrors f S s') : s.Repeats f S s' :=
  ⟨H.context.repeats, H.flags, H.quests⟩

theorem toDatum_eq (H : s.Mirrors f S s') : s'.toDatum = s.toDatum := H.repeats.toDatum_eq

section scripts
variable [Text.Halves]

omit [Text.Halves] in
theorem resolve_eq (H : s.Mirrors f S s') (o : Operand) :
    o.resolve s' = (o.resolve s).map (·.rename f) ∧ ∀ v, o.resolve s = some v → v.In S := by
  cases o with
  | flag key =>
    simp only [Operand.resolve, H.flag_eq]
    exact ⟨rfl, fun v hv => Option.some.inj hv ▸ Value.in_scalar _⟩
  | context path => exact H.get?_eq path
  | quest key =>
    simp only [Operand.resolve, quest?, H.quests]
    rcases Table.get? s.quests (.text key) with _ | q
    · exact ⟨rfl, fun v hv => (Option.some_ne_none v hv.symm).elim⟩
    · exact ⟨rfl, fun v hv => Option.some.inj hv ▸ Value.in_scalar _⟩
  | literal value => exact ⟨rfl, fun v hv => Option.some.inj hv ▸ Value.in_scalar _⟩

theorem passes_eq {h h' : Heap} (H : Heap.Mirrors f S h h') {v : Value} (hv : v.In S) (test : Test)
    (d : Datum) : Condition.passes h' (v.rename f) test d = Condition.passes h v test d := by
  cases test with
  | relation r =>
    obtain ⟨H₁, hd, hs⟩ := Heap.hold_mirrors d H
    simp only [Condition.passes, hd]
    exact Value.compare_rename H₁.repeats hv hs r
  | has => cases v <;> rfl

theorem check_eq (H : s.Mirrors f S s') (space : Space) (key : String) (test : Test) (d : Datum) :
    (Condition.check space key test d).holds s' = (Condition.check space key test d).holds s := by
  cases space with
  | flag =>
    simp only [Condition.holds, Condition.actual, flag?, H.flags]
    rcases Table.get? s.flags (.text key) with _ | x
    · rfl
    · obtain ⟨H₁, hx, hs⟩ := Heap.hold_mirrors x H.context.heap
      simp only [Option.map_some, hx]
      exact passes_eq H₁ hs test d
  | context =>
    obtain ⟨he, hs⟩ := H.get?_eq key
    simp only [Condition.holds, Condition.actual, he]
    rcases hv : s.get? key with _ | v
    · rfl
    · exact passes_eq H.context.heap (hs v hv) test d
  | quest =>
    simp only [Condition.holds, Condition.actual, quest?, H.quests]
    rcases Table.get? s.quests (.text key) with _ | q
    · rfl
    · exact passes_eq H.context.heap (Value.in_scalar (.text q.status.name)) test d

theorem holds_eq (H : s.Mirrors f S s') (c : Condition) : c.holds s' = c.holds s := by
  cases c with
  | literal | malformed => rfl
  | flag key => exact congrArg Except.ok (H.flag_eq _)
  | context path =>
    obtain ⟨he, hs⟩ := H.get?_eq path
    simp only [Condition.holds, he]
    rcases hv : s.get? path with _ | v
    · rfl
    · simp only [Option.map_some, H.context.heap.repeats.view_eq (hs v hv)]
  | quest key => simp only [Condition.holds, quest?, H.quests]
  | check space key test d => exact H.check_eq space key test d
  | comparison left sign right =>
    obtain ⟨hl, hls⟩ := H.resolve_eq left
    obtain ⟨hr, hrs⟩ := H.resolve_eq right
    simp only [Condition.holds, hl, hr]
    rcases ha : left.resolve s with _ | a
    · rfl
    · rcases hb : right.resolve s with _ | b
      · rfl
      · exact Value.compare_rename H.context.heap.repeats (hls a ha) (hrs b hb) _

end scripts

theorem restore {g : Ref → Ref} {T : Ref → Prop} (H : s.Mirrors f S s') {old old' : Store}
    (R : old.Repeats g T old') :
    (s.restore old).1.Mirrors f S (s'.restore old').1 ∧
      (s'.restore old').2 = (s.restore old).2 := by
  obtain ⟨h₁, h₂⟩ := H.context.load_mirrors R.context
  unfold Store.restore
  rcases hl : s.context.load old.context with ⟨c, o⟩
  rcases hl' : s'.context.load old'.context with ⟨c', o'⟩
  rw [hl, hl'] at h₁ h₂
  obtain rfl : o' = o := h₂
  cases o' with
  | none => exact ⟨⟨h₁, R.flags, R.quests⟩, rfl⟩
  | some fault => exact ⟨⟨h₁, R.flags, H.quests⟩, rfl⟩

end Store.Mirrors

/-! ## Effects -/

/-- A world mirrors another one: its store does, and all else is the same. -/
structure World.Mirrors (f : Ref → Ref) (S : Ref → Prop) (w w' : World) : Prop where
  store : w.store.Mirrors f S w'.store
  rest : w' = { w with store := w'.store }

/-- The source with the reference in it renamed. -/
def Source.rename (f : Ref → Ref) : Source → Source
  | .value v => .value (v.rename f)
  | source => source

/-- The effect with the reference in it renamed. -/
def Effect.rename (f : Ref → Ref) : Effect → Effect
  | .write path op source => .write path op (source.rename f)
  | e => e

/-- The reference in an effect is among some. -/
def Effect.In (S : Ref → Prop) (e : Effect) : Prop := ∀ r, e.ref? = some r → S r

/-- The value that an effect writes keeps its name. -/
def Effect.Kept (f : Ref → Ref) (S : Ref → Prop) (e : Effect) : Prop :=
  ∀ r, e.ref? = some r → S r ∧ f r = r

namespace World.Mirrors

variable {w w' : World}

theorem note (H : w.Mirrors f S w') (n : Notice) : (w.note n).Mirrors f S (w'.note n) where
  store := H.store
  rest := by
    rw [H.rest]
    rfl

theorem noteAll (H : w.Mirrors f S w') (ns : List Notice) :
    (w.noteAll ns).Mirrors f S (w'.noteAll ns) where
  store := H.store
  rest := by
    rw [H.rest]
    rfl

theorem inStore (H : w.Mirrors f S w') {s s' : Store} (Hs : s.Mirrors f S s') :
    World.Mirrors f S { w with store := s } { w' with store := s' } where
  store := Hs
  rest := by rw [H.rest]

theorem isHeard_eq (H : w.Mirrors f S w') : w'.isHeard = w.isHeard := by rw [H.rest]

theorem set_mirrors (H : w.Mirrors f S w') (path : String) {v : Value} (hv : v.In S) :
    (∃ fault, w.set path v = .error fault ∧ w'.set path (v.rename f) = .error fault) ∨
      ∃ w₁ w₁', w.set path v = .ok w₁ ∧ w'.set path (v.rename f) = .ok w₁' ∧
        w₁.Mirrors f S w₁' := by
  unfold World.set Store.set
  rcases H.store.context.set_mirrors (Path.split path) hv with
    ⟨fault, he, he'⟩ | ⟨c, c', replaced, he, he', hc⟩
  · left
    rw [he, he']
    exact ⟨fault, rfl, rfl⟩
  · right
    rw [he, he']
    have Hs : Store.Mirrors f S { w.store with context := c } { w'.store with context := c' } :=
      ⟨hc, H.store.flags, H.store.quests⟩
    exact ⟨_, _, rfl, rfl, (H.inStore Hs).noteAll _⟩

theorem distinguish_mirrors (H : w.Mirrors f S w') (n : Number) :
    (w.distinguish n).1.Mirrors f S (w'.distinguish n).1 ∧
      (w'.distinguish n).2 = (w.distinguish n).2 := by
  obtain ⟨s', rfl⟩ : ∃ s', w' = { w with store := s' } := ⟨_, H.rest⟩
  cases n with
  | int => exact ⟨H, rfl⟩
  | float x =>
    cases x with
    | nan => exact ⟨⟨H.store, rfl⟩, rfl⟩
    | infinite | finite => exact ⟨H, rfl⟩

end World.Mirrors

/-- What comes of two worlds that mirror each other: the same, and worlds that do so. -/
def World.MirrorsOutcome {α : Type} (f : Ref → Ref) (S : Ref → Prop) (o o' : World × α) : Prop :=
  o.1.Mirrors f S o'.1 ∧ o'.2 = o.2

namespace Effect

open World (MirrorsOutcome)

theorem writeValue_mirrors {w w' : World} (H : w.Mirrors f S w') (path : String) (op : Operation)
    {v : Value} (hv : v.In S) :
    MirrorsOutcome f S (writeValue w path op v) (writeValue w' path op (v.rename f)) := by
  unfold writeValue
  rcases H.set_mirrors path hv with ⟨fault, he, he'⟩ | ⟨w₁, w₁', he, he', H₁⟩
  · rw [he, he']
    exact ⟨H, rfl⟩
  · rw [he, he']
    simp only [H₁.store.context.heap.repeats.view_eq hv, H₁.isHeard_eq]
    split_ifs
    · exact ⟨H₁, rfl⟩
    · exact ⟨H₁.note _, rfl⟩

theorem source_eq {s s' : Store} (H : s.Mirrors f S s') {path : String} {op : Operation}
    {source : Source} (hin : (Effect.write path op source).In S) :
    (source.rename f).resolve s' = (source.resolve s).map (·.rename f) ∧
      ∀ v, source.resolve s = some v → v.In S := by
  cases source with
  | flag key =>
    simp only [Source.rename, Source.resolve, H.flag_eq]
    exact ⟨rfl, fun v hv => Option.some.inj hv ▸ Value.in_scalar _⟩
  | context path => exact H.get?_eq path
  | value v =>
    refine ⟨rfl, fun w hw => ?_⟩
    cases hw
    exact hin

theorem amount_rename (v : Option Value) : amount (v.map (·.rename f)) = amount v := by
  rcases v with _ | _ | _ | _
  · rfl
  · rfl
  · rfl
  · rfl

theorem applyWrite_mirrors {w w' : World} (H : w.Mirrors f S w') {path : String} {op : Operation}
    {source : Source} (hin : (Effect.write path op source).In S) :
    MirrorsOutcome f S (applyWrite w path op source) (applyWrite w' path op (source.rename f)) := by
  obtain ⟨hs, hS⟩ := source_eq H.store hin
  have hp := (H.store.get?_eq path).1
  cases op with
  | set =>
    simp only [applyWrite, hs]
    rcases hv : source.resolve w.store with _ | v
    · exact ⟨H.note _, rfl⟩
    · exact writeValue_mirrors H path .set (hS v hv)
  | add | subtract =>
    simp only [applyWrite, hs, hp, amount_rename]
    rcases combine? _ _ _ with _ | n
    · exact ⟨H, rfl⟩
    · obtain ⟨Hd, hn⟩ := H.distinguish_mirrors n
      simp only [hn]
      exact writeValue_mirrors Hd path _ (Value.in_scalar _)

theorem moveQuest_mirrors {w w' : World} (H : w.Mirrors f S w') (key : Datum)
    (status : Quest.Status) :
    MirrorsOutcome f S (w.moveQuest key status) (w'.moveQuest key status) := by
  obtain ⟨s', rfl⟩ : ∃ s', w' = { w with store := s' } := ⟨_, H.rest⟩
  have hq : s'.quests = w.store.quests := H.store.quests
  unfold World.moveQuest
  rcases w.clock.read with fault | ⟨time, clock⟩
  · exact ⟨H, rfl⟩
  · rcases key.key with fault | k
    · exact ⟨⟨H.store, rfl⟩, rfl⟩
    · simp only [Store.moveQuest, Store.quest?, hq]
      exact ⟨⟨⟨H.store.context, H.store.flags, rfl⟩, rfl⟩, rfl⟩

/-- An effect does the same in worlds that mirror each other, with the value that it writes under
its name there. -/
theorem apply_rename {w w' : World} (H : w.Mirrors f S w') {e : Effect} (hin : e.In S) :
    MirrorsOutcome f S (e.apply w) ((e.rename f).apply w') := by
  have hf := H.store.flags
  have Hf (key : Scalar) (value : Bool) :
      Store.Mirrors f S (w.store.setFlag key value) (w'.store.setFlag key value) :=
    ⟨H.store.context, congrArg (fun t => Table.put t key (Datum.bool value)) hf, H.store.quests⟩
  cases e with
  | setFlag key value => exact ⟨(H.inStore (Hf _ _)).note _, rfl⟩
  | toggleFlag key =>
    simp only [rename, apply, Store.toggleFlag, H.store.flag_eq]
    exact ⟨(H.inStore (Hf _ _)).note _, rfl⟩
  | write path op source => exact applyWrite_mirrors H hin
  | moveQuest key t =>
    obtain ⟨h₁, h₂⟩ := moveQuest_mirrors H (.text key) t.status
    simp only [rename, apply]
    rcases hm : w.moveQuest (.text key) t.status with ⟨w₁, o⟩
    rcases hm' : w'.moveQuest (.text key) t.status with ⟨w₁', o'⟩
    rw [hm, hm'] at h₁ h₂
    obtain rfl : o' = o := h₂
    cases o' with
    | ok => exact ⟨h₁.note _, rfl⟩
    | error => exact ⟨h₁, rfl⟩
  | malformed source reason => exact ⟨H.note _, rfl⟩

theorem rename_of_kept {e : Effect} (kept : e.Kept f S) : e.rename f = e := by
  rcases e with _ | _ | ⟨path, op, _ | _ | v⟩
  case write.value =>
    cases v with
    | scalar | list => rfl
    | map r => exact congrArg (fun q => write path op (.value (.map q))) (kept r rfl).2
  all_goals rfl

/-- An effect that writes a value which keeps its name does the same in worlds that mirror each
other. -/
theorem apply_mirrors {w w' : World} (H : w.Mirrors f S w') {e : Effect} (kept : e.Kept f S) :
    MirrorsOutcome f S (e.apply w) (e.apply w') := by
  have he := apply_rename H fun r hr => (kept r hr).1
  rwa [rename_of_kept kept] at he

end Effect

/-! ## Sessions -/

section session
variable [Text.Halves]

/-- Worlds that mirror each other go on doing so, if the values that effects write keep their
names. -/
theorem World.mirrors_lockstep (f : Ref → Ref) (S : Ref → Prop) :
    World.Lockstep (World.Mirrors f S) (Effect.Kept f S) where
  note H n := H.note n
  holds H c := H.store.holds_eq c
  apply H _ kept := Effect.apply_mirrors H kept
  copyable H := H.store.context.isCopyable_eq
  restore H B :=
    have hr := H.store.restore B.store.repeats
    ⟨H.inStore hr.1, hr.2⟩

namespace Session

/-- A session mirrors another one: its world does, all else is the same, and the values that the
effects of its tree and of its offers write keep their names. -/
structure Mirrors (f : Ref → Ref) (S : Ref → Prop) (s s' : Session) : Prop where
  world : s.world.Mirrors f S s'.world
  rest : s' = { s with world := s'.world }
  tree : ∀ e ∈ s.tree.effects, e.Kept f S
  offered : ∀ c ∈ s.offered, ∀ e ∈ c.1.effects, e.Kept f S

/-- What comes of two sessions that mirror each other: the same, and sessions that do so. -/
def MirrorsOutcome {α : Type} (f : Ref → Ref) (S : Ref → Prop) (o o' : Session × α) : Prop :=
  o.1.Mirrors f S o'.1 ∧ o'.2 = o.2

/-- A call on sessions that mirror each other comes to the same, and they still do. -/
theorem Mirrors.step {s s' : Session} (H : s.Mirrors f S s') (c : Call) :
    MirrorsOutcome f S (s.step c) (s'.step c) := by
  obtain ⟨h, ho⟩ := InStep.step (World.mirrors_lockstep f S)
    ⟨H.world, H.rest, H.tree, H.offered⟩ c
  exact ⟨⟨h.world, h.rest, h.tree, h.offered⟩, ho⟩

end Session

end session

end Colloquy
