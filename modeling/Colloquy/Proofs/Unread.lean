import Colloquy.Proofs.Lockstep
import Colloquy.Proofs.Played
import Colloquy.Validation

/-!
# Flags that are not read

The report on a tree lists each flag that a condition of the tree reads (`Tree.validate_flagsRead`).
In worlds that are the same but for one flag (`World.SameBut`) a condition that does not read the
flag comes out alike (`World.SameBut.holds`), and an effect does the same, except one that copies
the flag into the context (`World.SameBut.apply`): what it copies may be read there. So a flag that
is not listed, and that no effect copies, makes no difference to any conversation
(`Session.unread_flag`), whereas one that is copied can (`Session.unread_flag_copied`).
-/

namespace Colloquy

section session
variable [Text.Halves]

/-! ## What the report lists -/

namespace Validation

omit [Text.Halves] in
theorem exists_mem_foldl {key : String} : ∀ {es seen : List (String × String)},
    (∃ e ∈ seen ++ es, e.1 = key) → ∃ e ∈ es.foldl
      (fun seen e => if seen.any (·.1 == e.1) then seen else seen ++ [e]) seen, e.1 = key
  | [], seen, h => by simpa using h
  | e :: es, seen, h => by
    rw [List.foldl_cons]
    apply exists_mem_foldl
    split_ifs with hs
    · obtain ⟨d, hd, rfl⟩ := h
      rcases List.mem_append.1 hd with hd | hd
      · exact ⟨d, List.mem_append_left _ hd, rfl⟩
      · rcases List.mem_cons.1 hd with rfl | hd
        · obtain ⟨c, hc, he⟩ := List.any_eq_true.1 hs
          exact ⟨c, List.mem_append_left _ hc, by simpa using he⟩
        · exact ⟨d, List.mem_append_right _ hd, rfl⟩
    · simpa using h

theorem exists_flagsRead {t : Tree} {c : Condition} {f : String} (hc : c ∈ t.conditions)
    (hf : f ∈ c.flagsRead) : ∃ e ∈ flagsRead t.nodes, e.1 = f := by
  obtain ⟨n, hn, hc⟩ := List.mem_flatMap.1 hc
  refine exists_mem_foldl ⟨(f, n.name), ?_, rfl⟩
  have here : f ∈ flagsReadIn n := List.mem_flatMap.2 ⟨c, hc, hf⟩
  simpa using ⟨n, hn, here, rfl⟩

end Validation

/-- A flag that a condition of a tree reads is in the report. -/
theorem Tree.validate_flagsRead {t : Tree} {report : Report} (valid : t.validate = .ok report)
    {c : Condition} {f : String} (hc : c ∈ t.conditions) (hf : f ∈ c.flagsRead) :
    ∃ e ∈ report.flagsRead, e.1 = f := by
  have hr : report.flagsRead = Validation.flagsRead t.nodes := by
    unfold validate at valid
    rcases hs : Validation.startErrors t with g | start
    · rw [hs] at valid
      cases valid
    rcases hr : Validation.referenceWarnings t t.nodes with g | references
    · rw [hs, hr] at valid
      cases valid
    rcases hy : Validation.cycleErrors t [] t.nodes with g | cycles
    · rw [hs, hr, hy] at valid
      cases valid
    rcases hu : Validation.unreachableWarnings t with g | unreachable
    · rw [hs, hr, hy, hu] at valid
      cases valid
    · rw [hs, hr, hy, hu] at valid
      obtain rfl := Except.ok.inj valid
      rfl
  rw [hr]
  exact Validation.exists_flagsRead hc hf

/-! ## Worlds that are the same but for a flag -/

/-- Two worlds that are the same but for one flag and what has been reported. -/
structure World.SameBut (f : String) (w w' : World) : Prop where
  flags (key : String) (ne : f ≠ key) :
    w'.store.flag? (.text key) = w.store.flag? (.text key)
  rest : w' = { w with store.flags := w'.store.flags, journal := w'.journal }

/-- An effect that copies a flag into the context. -/
def Effect.Copies (f : String) (e : Effect) : Prop := ∃ path op, e = .write path op (.flag f)

namespace World.SameBut

variable {f : String} {w w' : World}

omit [Text.Halves] in
theorem exists_flags (H : w.SameBut f w') :
    ∃ flags js, w' = { w with store.flags := flags, journal := js } := ⟨_, _, H.rest⟩

omit [Text.Halves] in
theorem of_setFlag (w : World) (f : String) (value : Bool) :
    w.SameBut f { w with store := w.store.setFlag (.text f) value } :=
  ⟨fun _ ne => Table.get?_put_of_ne ne, rfl⟩

omit [Text.Halves] in
theorem flag_eq (H : w.SameBut f w') {key : String} (ne : f ≠ key) :
    w'.store.flag (.text key) = w.store.flag (.text key) := by
  rw [Store.flag, Store.flag, H.flags key ne]

omit [Text.Halves] in
theorem context_eq (H : w.SameBut f w') : w'.store.context = w.store.context := by rw [H.rest]

omit [Text.Halves] in
theorem get?_eq (H : w.SameBut f w') (path : String) :
    w'.store.get? path = w.store.get? path := by rw [Store.get?, Store.get?, H.context_eq]

omit [Text.Halves] in
theorem quest?_eq (H : w.SameBut f w') (key : Scalar) :
    w'.store.quest? key = w.store.quest? key := by rw [H.rest, Store.quest?, Store.quest?]

omit [Text.Halves] in
theorem operand_eq (H : w.SameBut f w') {o : Operand} (ho : o ≠ .flag f) :
    o.resolve w'.store = o.resolve w.store := by
  cases o with
  | flag key =>
    have ne : f ≠ key := fun h => ho (by rw [h])
    simp only [Operand.resolve, H.flag_eq ne]
  | context path => exact H.get?_eq path
  | quest key => simp only [Operand.resolve, H.quest?_eq]
  | literal => rfl

omit [Text.Halves] in
theorem actual_eq (H : w.SameBut f w') {space : Space} {key : String}
    (hs : space = .flag → f ≠ key) :
    Condition.actual w'.store space key = Condition.actual w.store space key := by
  cases space with
  | flag => simp only [Condition.actual, H.flags key (hs rfl), H.context_eq]
  | context => simp only [Condition.actual, H.get?_eq, H.context_eq]
  | quest => simp only [Condition.actual, H.quest?_eq, H.context_eq]

theorem holds (H : w.SameBut f w') {c : Condition} (hc : f ∉ c.flagsRead) :
    c.holds w'.store = c.holds w.store := by
  cases c with
  | literal | malformed => rfl
  | flag key =>
    have ne : f ≠ key := by simpa [Condition.flagsRead] using hc
    simp only [Condition.holds, H.flag_eq ne]
  | context path => simp only [Condition.holds, H.get?_eq, H.context_eq]
  | quest key => simp only [Condition.holds, H.quest?_eq]
  | comparison left sign right =>
    have hl : left ≠ .flag f := by
      rintro rfl
      exact hc (by simp [Condition.flagsRead])
    have hr : right ≠ .flag f := by
      rintro rfl
      exact hc (by simp [Condition.flagsRead])
    simp only [Condition.holds, H.operand_eq hl, H.operand_eq hr, H.context_eq]
  | check space key test value =>
    have hs : space = .flag → f ≠ key := by
      rintro rfl
      simpa [Condition.flagsRead] using hc
    simp only [Condition.holds, H.actual_eq hs]

omit [Text.Halves] in
theorem note (H : w.SameBut f w') (n m : Notice) : (w.note n).SameBut f (w'.note m) := by
  obtain ⟨flags, js, rfl⟩ := H.exists_flags
  exact ⟨H.flags, rfl⟩

omit [Text.Halves] in
/-- Whatever becomes of the flag itself, the others are set alike. -/
theorem setFlag (H : w.SameBut f w') {key : String} {a b : Bool} (hab : f ≠ key → a = b) :
    World.SameBut f { w with store := w.store.setFlag (.text key) a }
      { w' with store := w'.store.setFlag (.text key) b } := by
  obtain ⟨flags, js, rfl⟩ := H.exists_flags
  refine ⟨fun k ne => ?_, rfl⟩
  simp only [Store.setFlag, Store.flag?]
  by_cases hk : key = k
  · subst hk
    rw [Table.get?_put_self, Table.get?_put_self, hab ne]
  · rw [Table.get?_put_of_ne hk, Table.get?_put_of_ne hk]
    exact H.flags k ne

omit [Text.Halves] in
theorem writeValue (H : w.SameBut f w') (path : String) (op : Operation) (v : Value) :
    (Effect.writeValue w path op v).1.SameBut f (Effect.writeValue w' path op v).1 ∧
      (Effect.writeValue w' path op v).2 = (Effect.writeValue w path op v).2 := by
  obtain ⟨flags, js, rfl⟩ := H.exists_flags
  unfold Effect.writeValue World.set Store.set
  simp only
  rcases w.store.context.set (Path.split path) v with fault | ⟨c, replaced⟩
  · exact ⟨H, rfl⟩
  · simp only [Except.map, World.noteAll]
    split_ifs
    · exact ⟨⟨H.flags, rfl⟩, rfl⟩
    · exact ⟨⟨H.flags, rfl⟩, rfl⟩

omit [Text.Halves] in
/-- A sum that is no number gets the same payload on both sides. -/
theorem distinguish (H : w.SameBut f w') (n : Number) :
    (w.distinguish n).1.SameBut f (w'.distinguish n).1 ∧
      (w'.distinguish n).2 = (w.distinguish n).2 := by
  obtain ⟨flags, js, rfl⟩ := H.exists_flags
  unfold World.distinguish
  split
  · exact ⟨⟨H.flags, rfl⟩, rfl⟩
  · exact ⟨H, rfl⟩

omit [Text.Halves] in
theorem source_eq (H : w.SameBut f w') {source : Source} (hs : source ≠ .flag f) :
    source.resolve w'.store = source.resolve w.store := by
  cases source with
  | flag key =>
    have ne : f ≠ key := fun h => hs (by rw [h])
    simp only [Source.resolve, H.flag_eq ne]
  | context path => exact H.get?_eq path
  | value => rfl

omit [Text.Halves] in
theorem applyWrite (H : w.SameBut f w') (path : String) (op : Operation) {source : Source}
    (hs : source ≠ .flag f) :
    (Effect.applyWrite w path op source).1.SameBut f (Effect.applyWrite w' path op source).1 ∧
      (Effect.applyWrite w' path op source).2 = (Effect.applyWrite w path op source).2 := by
  unfold Effect.applyWrite
  simp only [H.source_eq hs, H.get?_eq]
  cases op with
  | set =>
    simp only
    rcases source.resolve w.store with _ | v
    · exact ⟨H.note _ _, rfl⟩
    · exact H.writeValue path .set v
  | add | subtract =>
    simp only
    rcases Effect.combine? _ _ _ with _ | n
    · exact ⟨H, rfl⟩
    · obtain ⟨hd, hn⟩ := H.distinguish n
      simp only [hn]
      exact hd.writeValue path _ _

omit [Text.Halves] in
theorem apply (H : w.SameBut f w') {e : Effect} (he : ¬ e.Copies f) :
    (e.apply w).1.SameBut f (e.apply w').1 ∧ (e.apply w').2 = (e.apply w).2 := by
  cases e with
  | setFlag key value => exact ⟨(H.setFlag fun _ => rfl).note _ _, rfl⟩
  | toggleFlag key =>
    refine ⟨World.SameBut.note ?_ _ _, rfl⟩
    exact H.setFlag fun ne => by rw [H.flag_eq ne]
  | write path op source =>
    have hs : source ≠ .flag f := by
      rintro rfl
      exact he ⟨path, op, rfl⟩
    exact H.applyWrite path op hs
  | moveQuest key transition =>
    obtain ⟨flags, js, rfl⟩ := H.exists_flags
    simp only [Effect.apply, World.moveQuest, Store.moveQuest, Store.quest?]
    rcases w.clock.read with fault | ⟨time, clock⟩
    · exact ⟨H, rfl⟩
    · exact ⟨⟨H.flags, rfl⟩, rfl⟩
  | malformed => exact ⟨H.note _ _, rfl⟩

omit [Text.Halves] in
theorem restore {v v' : World} (H : w.SameBut f w') (B : v.SameBut f v') :
    World.SameBut f { w with store := (w.store.restore v.store).1 }
        { w' with store := (w'.store.restore v'.store).1 } ∧
      (w'.store.restore v'.store).2 = (w.store.restore v.store).2 := by
  obtain ⟨flags, js, rfl⟩ := H.exists_flags
  obtain ⟨flags', js', rfl⟩ := B.exists_flags
  unfold Store.restore
  simp only
  rcases w.store.context.load v.store.context with ⟨c, _ | fault⟩
  · exact ⟨⟨B.flags, rfl⟩, rfl⟩
  · exact ⟨⟨B.flags, rfl⟩, rfl⟩

end World.SameBut

/-- Worlds that are the same but for a flag stay so in lockstep, where it is neither read nor
copied. -/
theorem World.sameBut_lockstep (f : String) :
    World.LockstepOn (World.SameBut f) (f ∉ ·.flagsRead) (¬ ·.Copies f) where
  note H n := H.note n n
  holds H _ hc := H.holds hc
  apply H _ he := H.apply he
  copyable H := by rw [H.context_eq]
  restore H B := H.restore B

namespace Session

/-- A flag that the report on a tree does not list as read, and that no effect of the tree copies
into the context, makes no difference: sessions on the tree in two worlds that are the same but for
the flag have the same outcomes, call by call, and are the same afterwards but for the flag. -/
theorem unread_flag {s : Session} {report : Report} {f : String}
    (valid : s.tree.validate = .ok report) (unread : ∀ e ∈ report.flagsRead, e.1 ≠ f)
    (uncopied : ∀ e ∈ s.tree.effects, ¬ e.Copies f) (new : s.offered = []) {w : World}
    (same : s.world.SameBut f w) (calls : List Call) :
    { s with world := w }.outcomes calls = s.outcomes calls ∧
      ∃ w', { s with world := w }.steps calls = { s.steps calls with world := w' } ∧
        (s.steps calls).world.SameBut f w' := by
  have H : s.InStep (World.SameBut f) (¬ ·.Copies f) { s with world := w } :=
    ⟨same, rfl, uncopied, by rw [new]; exact nofun⟩
  have hC : ∀ c ∈ s.tree.conditions, f ∉ c.flagsRead := by
    intro c hc hf
    obtain ⟨e, he, hk⟩ := s.tree.validate_flagsRead valid hc hf
    exact unread e he hk
  obtain ⟨ho, hs⟩ := InStep.steps_on (World.sameBut_lockstep f) calls H hC
  exact ⟨ho, _, hs.rest, hs.world⟩

end Session

end session

namespace Session

attribute [local instance] Text.noHalves

/-- The session at the door, where entering any node turns a lamp on or off. -/
def byLamplight : Session :=
  { atTheDoor with
    tree := { atTheDoor.tree with
      nodes := atTheDoor.tree.nodes.map fun n =>
        { n with deeds := ⟨.null, .toggleFlag "lit"⟩ :: n.deeds } } }

theorem unread_flag_byLamplight :
    let w : World :=
      { byLamplight.world with store := byLamplight.store.setFlag (.text "lit") true }
    let calls : List Call := [.start, .choose (.int 0)]
    byLamplight.tree.validate.map (·.flagsRead) =
        .ok [("knocked", "hall"), ("invited", "room")] ∧
      byLamplight.world.SameBut "lit" w ∧
      ((byLamplight.outcomes calls).map (·.isOk) = [true, true]) ∧
      { byLamplight with world := w }.outcomes calls = byLamplight.outcomes calls ∧
      ({ byLamplight with world := w }.steps calls).store.flag (.text "lit") = true ∧
      (byLamplight.steps calls).store.flag (.text "lit") = false := by
  intro w calls
  obtain ⟨report, valid⟩ := ok_of_isOk (o := byLamplight.tree.validate) (by decide +kernel)
  have read : byLamplight.tree.validate.map (·.flagsRead) =
      .ok [("knocked", "hall"), ("invited", "room")] := by decide +kernel
  have unread : ∀ e ∈ report.flagsRead, e.1 ≠ "lit" := by
    have hr : report.flagsRead = [("knocked", "hall"), ("invited", "room")] := by
      rw [valid] at read
      exact Except.ok.inj read
    rw [hr]
    decide
  have uncopied : ∀ e ∈ byLamplight.tree.effects, ¬ e.Copies "lit" := by
    simp [byLamplight, atTheDoor, Tree.effects, Node.allEffects, Node.effects, Choice.effects,
      Effect.Copies]
  have same : byLamplight.world.SameBut "lit" w := .of_setFlag _ _ _
  refine ⟨read, same, by decide +kernel, ?_, by decide +kernel, by decide +kernel⟩
  exact (unread_flag valid unread uncopied rfl same calls).1

/-- A session at a crossing with one way to go, which is open to those who carry a lamp. Whether
they do is copied from a flag when they get there. -/
def atTheCrossing : Session :=
  let go : Choice := { text := .null, goto := .null, guards := [⟨.null, .context "lamp"⟩]
                       deeds := [], priority := .null, once := false, requirements := [] }
  let crossing : Node := { id := .text "start", text := .null, speaker := .null, portrait := .null
                           choices := [go], autoAdvance := .null, next := .null
                           voiceLine := .null, guards := [], tags := [], priority := .null
                           deeds := [⟨.null, .write "lamp" .set (.flag "lit")⟩] }
  { tree := { id := .text "crossing", nodes := [crossing] }, world := { store := .empty #[] } }

/-- The report lists no flag as read, but the flag that is copied decides what is on offer. -/
theorem unread_flag_copied :
    let w : World :=
      { atTheCrossing.world with store := atTheCrossing.store.setFlag (.text "lit") true }
    atTheCrossing.tree.validate.map (·.flagsRead) = .ok [] ∧
      atTheCrossing.world.SameBut "lit" w ∧
      atTheCrossing.start.2.map (·.choices) = .ok [] ∧
      (start { atTheCrossing with world := w }).2.map (·.choices.length) = .ok 1 := by
  intro w
  exact ⟨by decide +kernel, .of_setFlag _ _ _, by decide +kernel, by decide +kernel⟩

end Session

end Colloquy
