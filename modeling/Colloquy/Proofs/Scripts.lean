import Colloquy.Tree

/-!
# What scripts do

Conditions fail only on values that are nested too deeply (`Condition.holds_error`). No effect
fails with a fault that is about dialogue (`Effect.applyAll_fault`), so whatever stops a visit is
none (`Tree.visit_error`), nor does restoring a store (`Store.restore_fault`). Effects in front of
others are applied before them (`Effect.applyAll_append`), and none looks at what has been reported
so far (`Effect.applyAll_silent`). A node that is found under some name is found under its own id
(`Tree.lookup_id`).
-/

namespace Colloquy

/-! ## Faults -/

theorem pairOf?_error {d : Datum} {f : Fault} (h : pairOf? d = .error f) :
    f.isDialogue = false := by
  unfold pairOf? at h
  split at h
  case h_6 =>
    split at h
    · exact absurd h nofun
    · exact Except.error.inj h ▸ rfl
  case h_1 | h_4 => exact absurd h nofun
  all_goals exact Except.error.inj h ▸ rfl

namespace Table

theorem putPairs_fault {f : Fault} : ∀ {ds : List Datum} {t : Table Datum},
    (t.putPairs ds).2 = some f → f.isDialogue = false
  | [], _, h => absurd h nofun
  | d :: ds, t, h => by
    unfold putPairs at h
    split at h
    · exact putPairs_fault h
    · rename_i hd
      exact Option.some.inj h ▸ pairOf?_error hd

theorem update_fault {t : Table Datum} {d : Datum} {f : Fault} (h : (t.update d).2 = some f) :
    f.isDialogue = false := by
  unfold update at h
  split at h
  · exact absurd h nofun
  · exact putPairs_fault h
  · exact putPairs_fault h
  · exact Option.some.inj h ▸ rfl
  · exact Option.some.inj h ▸ rfl

end Table

/-- No fault of restoring a store is about dialogue. -/
theorem Store.restore_fault {s old : Store} {f : Fault} (h : (s.restore old).2 = some f) :
    f.isDialogue = false := by
  have loadDatum : ∀ {c : Context} {d : Datum}, (c.loadDatum d).2 = some f →
      f.isDialogue = false := by
    intro c d h
    unfold Context.loadDatum at h
    split at h
    · split at h
      · exact Table.update_fault h
      · exact Option.some.inj h ▸ rfl
    · exact Option.some.inj h ▸ rfl
    · exact Option.some.inj h ▸ rfl
  unfold restore at h
  split at h
  · exact absurd h nofun
  · rename_i hl
    obtain rfl := Option.some.inj h
    have hl : (s.context.load old.context).2 = some _ := congrArg Prod.snd hl
    unfold Context.load at hl
    split at hl
    · exact absurd hl nofun
    · exact loadDatum hl

section conditions
variable [Text.Halves]

theorem Value.compare_error {h : Heap} {a b : Value} {r : Relation} {f : Fault}
    (he : a.compare h r b = .error f) : f = .tooDeep := by
  have hl : ∀ {g}, looselySame h a b = .error g → g = .tooDeep := by
    intro g hg
    unfold looselySame at hg
    split at hg
    · exact absurd hg nofun
    · exact (Except.error.inj hg).symm
  cases r with
  | equals => exact hl he
  | notEquals =>
    unfold compare at he
    rcases hs : looselySame h a b with g | same
    · rw [hs] at he
      exact Except.error.inj he ▸ hl hs
    · rw [hs] at he
      exact absurd he nofun
  | greater | less | greaterEquals | lessEquals => simp [compare] at he

namespace Condition

theorem passes_error {h : Heap} {a : Value} {test : Test} {d : Datum} {f : Fault}
    (he : passes h a test d = .error f) : f = .tooDeep := by
  cases test with
  | relation r => exact Value.compare_error he
  | has =>
    simp only [passes] at he
    split at he
    all_goals exact absurd he nofun

/-- Whether a condition holds can only be unknown because of the depth of values. -/
theorem holds_error {s : Store} {c : Condition} {f : Fault} (he : c.holds s = .error f) :
    f = .tooDeep := by
  cases c with
  | comparison left sign right =>
    simp only [holds] at he
    split at he
    · exact Value.compare_error he
    · exact absurd he nofun
  | check space key test value =>
    simp only [holds] at he
    split at he
    · exact passes_error he
    · exact absurd he nofun
  | context path =>
    simp only [holds] at he
    split at he
    all_goals exact absurd he nofun
  | flag | quest | literal | malformed => simp [holds] at he

theorem allHold_error {s : Store} {f : Fault} : ∀ {cs : List Condition},
    allHold s cs = .error f → f = .tooDeep
  | [], he => absurd he nofun
  | c :: cs, he => by
    unfold allHold at he
    split at he
    · exact allHold_error he
    · exact holds_error he

end Condition

end conditions

namespace Effect

theorem writeValue_fault {w : World} {path : String} {op : Operation} {v : Value} {f : Fault}
    (hf : (writeValue w path op v).2 = some f) : f.isDialogue = false := by
  unfold writeValue at hf
  rcases hw : w.set path v with g | w'
  · rw [hw] at hf
    obtain rfl := Option.some.inj hf
    unfold World.set Store.set at hw
    rcases hc : w.store.context.set (Path.split path) v with g' | c
    · rw [hc] at hw
      obtain rfl := Except.error.inj hw
      unfold Context.set at hc
      split at hc
      · exact absurd hc nofun
      · exact Except.error.inj hc ▸ rfl
      · exact Except.error.inj hc ▸ rfl
    · rw [hc] at hw
      exact absurd hw nofun
  · rw [hw] at hf
    simp only at hf
    split at hf
    · exact Option.some.inj hf ▸ rfl
    · exact absurd hf nofun

theorem applyWrite_fault {w : World} {path : String} {op : Operation} {source : Source} {f : Fault}
    (hf : (applyWrite w path op source).2 = some f) : f.isDialogue = false := by
  unfold applyWrite at hf
  split at hf
  · split at hf
    · exact writeValue_fault hf
    · exact absurd hf nofun
  · split at hf
    · exact writeValue_fault hf
    · exact Option.some.inj hf ▸ rfl

theorem apply_fault {w : World} {f : Fault} : ∀ {e : Effect}, (e.apply w).2 = some f →
    f.isDialogue = false
  | .setFlag _ _, hf => absurd hf nofun
  | .toggleFlag _, hf => absurd hf nofun
  | .write _ _ _, hf => applyWrite_fault hf
  | .moveQuest key t, hf => by
    rcases hn : w.clock.now.add? w.clock.step with _ | now
    all_goals simp only [apply, World.moveQuest, Clock.read, hn] at hf
    · exact Option.some.inj hf ▸ rfl
    · exact absurd hf nofun
  | .malformed _ _, hf => absurd hf nofun

/-- No fault of an effect is about dialogue. -/
theorem applyAll_fault {f : Fault} : ∀ {es : List Effect} {w : World},
    (applyAll w es).2 = some f → f.isDialogue = false
  | [], _, hf => absurd hf nofun
  | e :: es, w, hf => by
    unfold applyAll at hf
    split at hf
    · exact applyAll_fault hf
    · exact apply_fault hf

/-! ## Effects in order -/

theorem applyAll_append : ∀ (es fs : List Effect) (w : World), applyAll w (es ++ fs) =
    match applyAll w es with
    | (w, none) => applyAll w fs
    | (w, some f) => (w, some f)
  | [], fs, w => rfl
  | e :: es, fs, w => by
    rw [List.cons_append, applyAll, applyAll]
    rcases e.apply w with ⟨w', _ | f⟩
    · exact applyAll_append es fs w'
    · rfl

end Effect

/-- A world without the notices given so far. -/
def World.silent (w : World) : World := { w with journal := [] }

theorem World.eq_of_silent {w w' : World} (h : w.silent = w'.silent) :
    ∃ js, w' = { w with journal := js } := by
  obtain ⟨store, clock, _, payload, isHeard⟩ := w
  obtain ⟨store', clock', js, payload', isHeard'⟩ := w'
  simp only [silent, World.mk.injEq, true_and] at h
  obtain ⟨rfl, rfl, rfl, rfl⟩ := h
  exact ⟨js, rfl⟩

theorem World.store_eq_of_silent {w w' : World} (h : w.silent = w'.silent) :
    w.store = w'.store := by
  change w.silent.store = w'.silent.store
  rw [h]

namespace Effect

/-- Two outcomes that differ in what is reported at most. -/
def SilentlySame (o o' : World × Option Fault) : Prop := o.1.silent = o'.1.silent ∧ o.2 = o'.2

theorem writeValue_silent (w : World) (js : List Notice) (path : String) (op : Operation)
    (v : Value) :
    SilentlySame (writeValue w path op v) (writeValue { w with journal := js } path op v) := by
  unfold writeValue World.set
  rcases w.store.set path v with f | ⟨store, replaced⟩
  · exact ⟨rfl, rfl⟩
  · simp only [Except.map, World.noteAll]
    split
    · exact ⟨rfl, rfl⟩
    · exact ⟨rfl, rfl⟩

theorem applyWrite_silent (w : World) (js : List Notice) (path : String) (op : Operation)
    (source : Source) : SilentlySame (applyWrite w path op source)
      (applyWrite { w with journal := js } path op source) := by
  unfold applyWrite
  split
  · simp only
    split
    · exact writeValue_silent w js path .set _
    · exact ⟨rfl, rfl⟩
  · simp only
    split
    · rename_i n _
      have hd : ({ w with journal := js }.distinguish n)
          = ({ (w.distinguish n).1 with journal := js }, (w.distinguish n).2) := by
        unfold World.distinguish
        split <;> rfl
      rw [hd]
      exact writeValue_silent _ js path _ _
    · exact ⟨rfl, rfl⟩

theorem apply_silent (w : World) (js : List Notice) : ∀ e : Effect,
    SilentlySame (e.apply w) (e.apply { w with journal := js })
  | .setFlag _ _ => ⟨rfl, rfl⟩
  | .toggleFlag _ => ⟨rfl, rfl⟩
  | .write path op source => applyWrite_silent w js path op source
  | .moveQuest key t => by
    rcases hc : w.clock.read with f | ⟨time, clock⟩
    all_goals simp only [apply, World.moveQuest, hc]
    · exact ⟨rfl, rfl⟩
    · exact ⟨rfl, rfl⟩
  | .malformed _ _ => ⟨rfl, rfl⟩

/-- What effects do does not depend on what was reported before. -/
theorem applyAll_silent : ∀ (es : List Effect) {w w' : World}, w.silent = w'.silent →
    SilentlySame (applyAll w es) (applyAll w' es)
  | [], _, _, h => ⟨h, rfl⟩
  | e :: es, w, w', h => by
    obtain ⟨js, rfl⟩ := World.eq_of_silent h
    obtain ⟨hw, hf⟩ := apply_silent w js e
    unfold applyAll
    rcases h₁ : e.apply w with ⟨w₁, _ | f₁⟩
    all_goals rcases h₂ : e.apply { w with journal := js } with ⟨w₂, _ | f₂⟩
    all_goals rw [h₁, h₂] at hw hf
    · exact applyAll_silent es hw
    · exact absurd hf nofun
    · exact absurd hf nofun
    · exact ⟨hw, hf⟩

theorem applyAll_still {w w₁ w' : World} {es : List Effect} (h : w.silent = w'.silent)
    (ha : applyAll w es = (w₁, none)) :
    ∃ w₂, applyAll w' es = (w₂, none) ∧ w₁.silent = w₂.silent := by
  obtain ⟨hs, hf⟩ := applyAll_silent es h
  rw [ha] at hs hf
  exact ⟨_, Prod.ext rfl hf.symm, hs⟩

end Effect

/-! ## Nodes -/

theorem Number.same_iff {a b : Number} :
    a.same b = true ↔ ∃ x, a.rank? = some x ∧ b.rank? = some x := by
  unfold same
  split
  · rename_i x y hx hy
    rw [hx, hy, beq_iff_eq]
    simp [eq_comm]
  · rename_i hn
    constructor
    · exact nofun
    · rintro ⟨x, hx, hy⟩
      exact (hn x x hx hy).elim

theorem Number.same_trans {a b c : Number} (h : a.same b = true) (h' : b.same c = true) :
    a.same c = true := by
  rw [same_iff] at *
  obtain ⟨x, hx, hy⟩ := h
  obtain ⟨y, hy', hz⟩ := h'
  obtain rfl := Option.some.inj (hy.symm.trans hy')
  exact ⟨x, hx, hz⟩

theorem Scalar.same_iff {a b : Scalar} : a.same b = true ↔ (a = .null ∧ b = .null) ∨
    (∃ s, a = .text s ∧ b = .text s) ∨
      ∃ x y, a.number? = some x ∧ b.number? = some y ∧ x.same y = true := by
  cases a <;> cases b <;> simp [same, number?]
  exact eq_comm

theorem Scalar.same_trans {a b c : Scalar} (h : a.same b = true) (h' : b.same c = true) :
    a.same c = true := by
  rw [same_iff] at *
  rcases h with ⟨rfl, rfl⟩ | ⟨s, rfl, rfl⟩ | ⟨x, y, hx, hy, h⟩
  · exact h'
  · exact h'
  · rcases h' with ⟨rfl, rfl⟩ | ⟨s, rfl, rfl⟩ | ⟨y', z, hy', hz, h'⟩
    · exact absurd hy nofun
    · exact absurd hy nofun
    · obtain rfl := Option.some.inj (hy.symm.trans hy')
      exact .inr (.inr ⟨x, z, hx, hz, Number.same_trans h h'⟩)

theorem Scalar.alike_trans {a b c : Scalar} (h : a.alike b = true) (h' : b.alike c = true) :
    a.alike c = true := by
  simp only [alike, Bool.or_eq_true, decide_eq_true_eq] at *
  rcases h with rfl | h
  · exact h'
  · rcases h' with rfl | h'
    · exact .inr h
    · exact .inr (same_trans h h')

theorem Scalar.alike_null_iff {a : Scalar} : Scalar.null.alike a = true ↔ a = .null := by
  cases a <;> simp [alike, same, number?]

namespace Tree

theorem lookup_error {t : Tree} {d : Datum} {f : Fault} (he : t.lookup d = .error f) :
    f = .wrongKind := by
  unfold lookup at he
  split at he
  · exact absurd he nofun
  · exact absurd he nofun
  · exact (Except.error.inj he).symm

theorem visit_error [Text.Halves] {t : Tree} {w : World} {target : Datum} {f : Fault}
    (he : (t.visit w target).2 = .error f) : f.isDialogue = false := by
  unfold visit at he
  split at he
  · rename_i hl
    obtain rfl := Except.error.inj he
    exact lookup_error hl ▸ rfl
  · exact absurd he nofun
  · rename_i n _
    split at he
    · rename_i ha
      obtain rfl := Except.error.inj he
      exact Condition.allHold_error ha ▸ rfl
    · rcases ha : Effect.applyAll w n.effects with ⟨w', _ | g⟩
      all_goals rw [ha] at he
      · exact absurd he nofun
      · obtain rfl := Except.error.inj he
        exact Effect.applyAll_fault (congrArg Prod.snd ha)
    · exact absurd he nofun

/-- The first of some nodes that has an id like another's is the first that has one like its
own. -/
theorem find?_alike {id : Scalar} {n : Node} : ∀ {ns : List Node},
    ns.find? (·.id.alike id) = some n → ns.find? (·.id.alike n.id) = some n
  | m :: ns, h => by
    rcases hm : m.id.alike id with _ | _
    · simp only [List.find?_cons, hm] at h
      have hn := List.find?_some (p := fun m : Node => m.id.alike id) h
      have hm' : m.id.alike n.id = false := Bool.eq_false_iff.2 fun hc =>
        Bool.eq_false_iff.1 hm (Scalar.alike_trans hc hn)
      simp only [List.find?_cons, hm']
      exact find?_alike h
    · simp only [List.find?_cons, hm] at h
      obtain rfl := Option.some.inj h
      simp only [List.find?_cons, Scalar.alike_self]

/-- A node that is found is found under its own id. -/
theorem find?_id {t : Tree} {id : Scalar} {n : Node} (h : t.find? id = some n) :
    t.find? n.id = some n := find?_alike h

theorem lookup_scalar {t : Tree} {id : Scalar} (h : id ≠ .null) :
    t.lookup (.scalar id) = .ok (t.find? id) := by
  unfold lookup
  split
  · rename_i hd
    exact absurd (Datum.scalar.inj hd) h
  · rename_i hd
    rw [Datum.scalar.inj hd]
  · rename_i hn
    exact (hn id rfl).elim

/-- What is found is found under its own id, which is not null. -/
theorem lookup_id {t : Tree} {d : Datum} {n : Node} (h : t.lookup d = .ok (some n)) :
    t.lookup (.scalar n.id) = .ok (some n) := by
  unfold lookup at h
  split at h
  · exact absurd h nofun
  · rename_i id hn
    have hf : t.find? id = some n := Except.ok.inj h
    have ha : n.id.alike id = true := List.find?_some (p := fun m : Node => m.id.alike id) hf
    have hi : n.id ≠ .null := by
      intro he
      rw [he] at ha
      exact hn (by rw [Scalar.alike_null_iff.1 ha])
    rw [lookup_scalar hi, find?_id hf]
  · exact absurd h nofun

theorem mem_of_lookup {t : Tree} {d : Datum} {n : Node} (h : t.lookup d = .ok (some n)) :
    n ∈ t.nodes := by
  unfold lookup at h
  split at h
  · exact absurd h nofun
  · exact List.mem_of_find?_eq_some (Except.ok.inj h)
  · exact absurd h nofun

end Tree

end Colloquy
