import Colloquy.Proofs.Outcome
import Colloquy.Proofs.Reload

/-!
# A choice is taken once

What is on offer comes from the node that is shown, as long as no call breaks off between two nodes
(`Aligned`, `reaches_aligned`), so a choice that is taken is put among those taken once under the
node that it belongs to (`choose_spares`). There it stays, whatever becomes of later calls and of
the store, and through any number of saves (`reaches_hasTaken`), and no call shows or presents what
was taken there (`step_spares`).
-/

namespace Colloquy

section session
variable [Text.Halves]

/-- What a result shows, in the order in which it was come to. -/
def StepResult.shown (r : StepResult) : List Presentation := r.passed ++ r.presentation.toList

namespace Session

/-! ## Histories of a session -/

/-- What becomes of a session by calls with certain outcomes, by any changes of the store, and when
it is saved and made again. -/
inductive Reaches (P : Except Fault StepResult → Prop) (s : Session) : Session → Prop
  | here : Reaches P s s
  | call {t : Session} (h : Reaches P s t) (c : Call) (outcome : P (t.step c).2) :
      Reaches P s (t.step c).1
  | world {t : Session} (h : Reaches P s t) (w : World) : Reaches P s { t with world := w }
  | reload {t t' : Session} (h : Reaches P s t) {w : World} {budget d : Datum}
      (saved : t.save = .ok d) (read : ofDatum t.tree w budget d = .ok t') : Reaches P s t'

/-! ## What stays taken -/

theorem hasTaken_upheld (k : ChoiceKey) : Upheld fun s s' : Session =>
    s'.tree = s.tree ∧ (s.hasTaken k = true → s'.hasTaken k = true) where
  refl s := ⟨rfl, id⟩
  trans h h' := ⟨h'.1.trans h.1, h'.2 ∘ h.2⟩
  arrive s target := by
    have hk := arrive_kept s target
    refine ⟨hk.tree, fun h => ?_⟩
    rw [hasTaken, hk.onceTaken]
    exact h
  finish s := ⟨rfl, id⟩
  settle s _ _ _ := ⟨rfl, id⟩
  overrun s _ := ⟨rfl, id⟩
  resolve s index c _ := by
    unfold resolve
    rcases Effect.applyAll s.world c.1.effects with ⟨w, _ | f⟩
    · refine ⟨rfl, fun h => ?_⟩
      unfold hasTaken resolved
      simp only
      split
      · exact ChoiceKey.any_addTo h
      · exact h
    · exact ⟨rfl, id⟩
  undo {s before} h := by
    unfold undo
    split
    · exact ⟨h.1, id⟩
    · exact h

theorem reaches_tree {P : Except Fault StepResult → Prop} {s t : Session} (h : Reaches P s t) :
    t.tree = s.tree := by
  induction h with
  | here => rfl
  | @call t _ c _ ih => exact (tree_upheld.step t c).trans ih
  | world _ _ ih => exact ih
  | reload _ _ read ih => exact (ofDatum_new read).1.trans ih

theorem reaches_hasTaken {P : Except Fault StepResult → Prop} {s t : Session} (h : Reaches P s t)
    {name node : String} {place : Int} (hs : s.hasTaken (.of name node place) = true) :
    t.hasTaken (.of name node place) = true := by
  induction h with
  | here => exact hs
  | @call t _ c _ ih => exact ((hasTaken_upheld (.of name node place)).step t c).2 ih
  | world _ _ ih => exact ih
  | reload _ saved read ih => exact hasTaken_ofDatum saved read ih

/-! ## What is shown -/

theorem isOpen_congr {s s' : Session} (ht : s'.tree = s.tree) (ho : s'.onceTaken = s.onceTaken) :
    s'.isOpen = s.isOpen := by
  funext at_ n c
  simp only [isOpen, hasTaken, keyOf, ht, ho]

/-- What a session shows of a node of its tree with the choices that are open to it there. -/
def Shows (s : Session) (p : Presentation) : Prop :=
  ∃ n at_, s.tree.lookup (.scalar n.id) = .ok (some n) ∧ p = shownOf n (s.openIn at_ n)

theorem shows_of_arrive {s s' : Session} {target : Datum} {n : Node} {p : Presentation}
    (h : s.arrive target = (s', .ok (some (n, p)))) : s.Shows p := by
  obtain ⟨w, ha, -, rfl⟩ := arrive_some h
  exact ⟨n, w.store, Tree.lookup_id ha.found, rfl⟩

theorem Shows.of_kept {s s' : Session} {p : Presentation} (h : s'.Shows p) (hk : s.Kept s') :
    s.Shows p := by
  obtain ⟨n, at_, hn, rfl⟩ := h
  refine ⟨n, at_, hk.tree ▸ hn, ?_⟩
  rw [openIn, openIn, isOpen_congr hk.tree hk.onceTaken]

theorem hops_shows {s s' : Session} {target last : Datum} {ps : List (Node × Presentation)}
    (h : Hops s target ps s' last) : ∀ p ∈ ps.map (·.2), s.Shows p := by
  induction h with
  | done => exact fun _ hp => absurd hp List.not_mem_nil
  | @hop s s₁ s₂ target last n p ps here _ _ ih =>
    have hk := arrive_kept s target
    rw [here] at hk
    exact List.forall_mem_cons.2 ⟨shows_of_arrive here, fun q hq => (ih q hq).of_kept hk⟩

theorem run_shows {s : Session} {target : Datum} {r : StepResult}
    (h : (s.run target).2 = .ok r) : ∀ p ∈ r.shown, s.Shows p := by
  obtain ⟨left, ps, s', last, hps, he⟩ := run_cases s target
  generalize s.run target = o at he h
  cases he with
  | broken => exact absurd h nofun
  | absent here =>
    obtain rfl := Except.ok.inj h
    intro p hp
    exact hops_shows hps p (by simpa [StepResult.shown, finish] using hp)
  | unmeasured => exact absurd h nofun
  | overrun => exact absurd h nofun
  | @settled s'' n p here stays =>
    obtain rfl := Except.ok.inj h
    intro q hq
    rcases List.mem_append.1 hq with hq | hq
    · exact hops_shows hps q hq
    · obtain rfl : q = p := by simpa [settle] using hq
      exact (shows_of_arrive here).of_kept (hops_kept hps)

theorem SetsOut.hasTaken {s s₁ : Session} {c : Call} (h : SetsOut s c s₁) {k : ChoiceKey}
    (hk : s.hasTaken k = true) : s₁.hasTaken k = true := by
  cases h with
  | start | enter | advance | end_ => exact hk
  | choose =>
    unfold Session.hasTaken resolved
    simp only
    split
    · exact ChoiceKey.any_addTo hk
    · exact hk

theorem not_open {s : Session} {at_ : Store} {n : Node} {c : Choice} {place : ℕ}
    (hc : n.choices[place]? = some c) (once : c.once = true)
    (hk : s.hasTaken (s.keyOf n.name place) = true) : ∀ e ∈ s.openIn at_ n, e.2 ≠ place := by
  rintro ⟨c', place'⟩ he rfl
  obtain ⟨hm, ho⟩ := List.mem_filter.1 he
  obtain rfl : c' = c := Option.some.inj ((List.mem_zipIdx_iff_getElem?.1 hm).symm.trans hc)
  simp [isOpen, once, hk] at ho

end Session

/-! ## What is withheld -/

/-- What is shown of a node does not offer the choice at a place. -/
def Presentation.Withholds (p : Presentation) (n : Node) (place : ℕ) : Prop :=
  p.node = n.name → ∃ offered : List (Choice × ℕ), p = Session.shownOf n offered ∧
    offered.Sublist n.choices.zipIdx ∧ ∀ e ∈ offered, e.2 ≠ place

/-- A node of a tree whose ids are texts has a once-only choice at a place. -/
structure OnceAt (t : Tree) (n : Node) (place : ℕ) : Prop where
  texts : ∀ m ∈ t.nodes, ∃ id, m.id = .text id
  found : t.lookup (.scalar n.id) = .ok (some n)
  once : ∃ c, n.choices[place]? = some c ∧ c.once = true

/-- Ids that are texts tell nodes apart by their names. -/
theorem Tree.eq_of_name {t : Tree} (texts : ∀ m ∈ t.nodes, ∃ id, m.id = .text id) {m n : Node}
    (hm : t.lookup (.scalar m.id) = .ok (some m)) (hn : t.lookup (.scalar n.id) = .ok (some n))
    (h : m.name = n.name) : m = n := by
  obtain ⟨a, ha⟩ := texts m (mem_of_lookup hm)
  obtain ⟨b, hb⟩ := texts n (mem_of_lookup hn)
  have hab : a = b := calc
    a = m.name := by rw [Node.name, ha]; rfl
    _ = n.name := h
    _ = b := by rw [Node.name, hb]; rfl
  rw [ha, hab, ← hb, hn] at hm
  exact (Option.some.inj (Except.ok.inj hm)).symm

namespace Session

theorem Shows.withholds {s : Session} {p : Presentation} {n : Node} {place : ℕ} (h : s.Shows p)
    (at_ : OnceAt s.tree n place) (hk : s.hasTaken (s.keyOf n.name place) = true) :
    p.Withholds n place := by
  obtain ⟨m, st, hm, rfl⟩ := h
  intro hn
  obtain rfl : m = n := Tree.eq_of_name at_.texts hm at_.found hn
  obtain ⟨c, hc, once⟩ := at_.once
  exact ⟨s.openIn st m, rfl, List.filter_sublist, not_open hc once hk⟩

/-- What a session presents is what it presented before, or withholds the choice at a place. -/
def Covers (n : Node) (place : ℕ) (s s' : Session) : Prop :=
  s'.presentation = s.presentation ∨ ∃ p, s'.presentation = some p ∧ p.Withholds n place

theorem Covers.trans {n : Node} {place : ℕ} {s s₁ s₂ : Session} (h : Covers n place s s₁)
    (h' : Covers n place s₁ s₂) : Covers n place s s₂ := by
  rcases h' with he | hp
  · rcases h with h | ⟨p, h, hp⟩
    · exact .inl (he.trans h)
    · exact .inr ⟨p, he.trans h, hp⟩
  · exact .inr hp

theorem arrive_covers {s : Session} (target : Datum) {n : Node} {place : ℕ}
    (at_ : OnceAt s.tree n place) (hk : s.hasTaken (s.keyOf n.name place) = true) :
    Covers n place s (s.arrive target).1 := by
  have hc := arrive_cases s target
  rcases ho : s.arrive target with ⟨s', o⟩
  rw [ho] at hc
  cases hc with
  | failed | nowhere | unclear => exact .inl rfl
  | shown => exact .inr ⟨_, rfl, (shows_of_arrive ho).withholds at_ hk⟩

/-- A once-only choice that was taken stays taken, and what is presented withholds it. -/
theorem covers_upheld {t : Tree} {n : Node} {place : ℕ} (at_ : OnceAt t n place) :
    Upheld fun s s' : Session =>
      s.tree = t ∧ s.hasTaken (.of t.name n.name place) = true →
        (s'.tree = t ∧ s'.hasTaken (.of t.name n.name place) = true) ∧ Covers n place s s' where
  refl s h := ⟨h, .inl rfl⟩
  trans h h' hs := ⟨(h' (h hs).1).1, (h hs).2.trans (h' (h hs).1).2⟩
  arrive s target := by
    rintro ⟨rfl, hk⟩
    obtain ⟨ht, hk'⟩ := (hasTaken_upheld (.of s.tree.name n.name place)).arrive s target
    exact ⟨⟨ht, hk' hk⟩, arrive_covers target at_ hk⟩
  finish s h := ⟨h, .inl rfl⟩
  settle s _ _ _ h := ⟨h, .inl rfl⟩
  overrun s _ h := ⟨h, .inl rfl⟩
  resolve s index c here := by
    rintro ⟨rfl, hk⟩
    obtain ⟨ht, hk'⟩ := (hasTaken_upheld (.of s.tree.name n.name place)).resolve s index c here
    refine ⟨⟨ht, hk' hk⟩, .inl ?_⟩
    unfold resolve
    rcases Effect.applyAll s.world c.1.effects with ⟨w, _ | f⟩
    · rfl
    · rfl
  undo {s before} h hb := by
    obtain ⟨⟨ht, hk⟩, hc⟩ := h hb
    unfold undo
    split
    · exact ⟨⟨ht, hb.2⟩, hc⟩
    · exact ⟨⟨ht, hk⟩, hc⟩

/-- A call shows and presents nothing that offers the choice at a place of a node. -/
structure Spares (n : Node) (place : ℕ) (s : Session) (o : Session × Except Fault StepResult) :
    Prop where
  shown : ∀ r, o.2 = .ok r → ∀ p ∈ r.shown, p.Withholds n place
  covered : Covers n place s o.1

theorem SetsOut.presentation {s s₁ : Session} {c : Call} (h : SetsOut s c s₁) :
    s₁.presentation = s.presentation := by
  cases h with
  | start | enter | advance | end_ => rfl
  | choose => rfl

/-- A call that returns spares what was taken once where it set out. -/
theorem SetsOut.spares {s s₁ : Session} {c : Call} {n : Node} {place : ℕ} (hs : SetsOut s c s₁)
    (he : s.step c = s₁.run (s.heading c) ∨
      s.heading c = .null ∧ s.step c = (s₁.finish.1, .ok s₁.finish.2))
    (at_ : OnceAt s.tree n place) (hk : s₁.hasTaken (s.keyOf n.name place) = true) :
    Spares n place s (s.step c) := by
  have ht : s₁.tree = s.tree := hs.kept.1
  have hc : Covers n place s s₁ := .inl hs.presentation
  rcases he with he | ⟨-, he⟩
  · rw [he]
    refine ⟨fun r hr p hp => ?_, hc.trans ((covers_upheld at_).run s₁ _ ⟨ht, hk⟩).2⟩
    refine (run_shows hr p hp).withholds (ht ▸ at_) ?_
    rw [keyOf, ht]
    exact hk
  · rw [he]
    refine ⟨fun r hr p hp => ?_, hc⟩
    obtain rfl := Except.ok.inj hr
    exact absurd hp List.not_mem_nil

theorem step_spares {s : Session} (c : Call) {n : Node} {place : ℕ} (at_ : OnceAt s.tree n place)
    (hk : s.hasTaken (s.keyOf n.name place) = true) : Spares n place s (s.step c) := by
  refine ⟨fun r hr => ?_, ((covers_upheld at_).step s c ⟨rfl, hk⟩).2⟩
  obtain ⟨s₁, hs, he⟩ := step_ok hr
  exact (hs.spares he at_ (hs.hasTaken hk)).shown r hr

/-! ## Where an offer comes from -/

/-- What is on offer are choices of the node that is shown, each at its place. -/
def Aligned (s : Session) : Prop :=
  s.offered = [] ∨ ∃ n, s.tree.lookup s.current = .ok (some n) ∧ s.current = .scalar n.id ∧
    ∀ c ∈ s.offered, n.choices[c.2]? = some c.1

omit [Text.Halves] in
theorem aligned_congr {s s' : Session} (ht : s'.tree = s.tree) (hc : s'.current = s.current)
    (ho : s'.offered = s.offered) (h : s.Aligned) : s'.Aligned := by
  unfold Aligned at *
  rwa [ht, hc, ho]

theorem arrive_aligned {s s' : Session} {target : Datum} {n : Node} {p : Presentation}
    (h : s.arrive target = (s', .ok (some (n, p)))) : s'.Aligned := by
  obtain ⟨w, ha, rfl, -⟩ := arrive_some h
  refine .inr ⟨n, Tree.lookup_id ha.found, rfl, ?_⟩
  intro c hc
  exact List.mem_zipIdx_iff_getElem?.1 (List.mem_filter.1 hc).1

theorem hops_aligned {s s' : Session} {target last : Datum} {ps : List (Node × Presentation)}
    (h : Hops s target ps s' last) (hs : s.Aligned) : s'.Aligned := by
  induction h with
  | done => exact hs
  | hop here _ _ ih => exact ih (arrive_aligned here)

theorem run_aligned {s : Session} (target : Datum) (hs : s.Aligned)
    (h : (s.run target).2 ≠ .error .tooDeep) : (s.run target).1.Aligned := by
  obtain ⟨left, ps, s', last, hps, he⟩ := run_cases s target
  have ha := hops_aligned hps hs
  generalize s.run target = o at he h ⊢
  cases he with
  | @broken s'' f here =>
    obtain ⟨w, rfl⟩ := arrive_broken here fun hf => h (by rw [hf])
    exact aligned_congr rfl rfl rfl ha
  | absent => exact .inl rfl
  | unmeasured here => exact arrive_aligned here
  | overrun => exact .inl rfl
  | settled here =>
    have ha := arrive_aligned here
    exact aligned_congr rfl rfl rfl ha

theorem take_aligned {s : Session} (index : ℕ) (c : Choice × ℕ) (hs : s.Aligned)
    (h : (s.take index c).2 ≠ .error .tooDeep) : (s.take index c).1.Aligned := by
  have hc := take_cases s index c
  generalize s.take index c = o at hc h ⊢
  cases hc with
  | broken => exact aligned_congr rfl rfl rfl hs
  | finished => exact .inl rfl
  | @going w _ _ =>
    have hr : (s.resolved index c w).Aligned := aligned_congr rfl rfl rfl hs
    exact run_aligned c.1.goto hr h

omit [Text.Halves] in
theorem guarded_aligned {s : Session} {o : Session × Except Fault StepResult} (hs : s.Aligned)
    (ho : o.2 ≠ .error .tooDeep → o.1.Aligned) (h : (s.guarded o).2 ≠ .error .tooDeep) :
    (s.guarded o).1.Aligned := by
  have hc := guarded_cases s o
  obtain ⟨ht, -, hc', hf⟩ := undo_kept o.1 s
  generalize s.guarded o = o' at hc h ⊢
  cases hc with
  | refused => exact hs
  | kept => exact ho h
  | undone _ hb => exact aligned_congr ht hc' hf (ho (by rw [hb]; exact nofun))
  | stuck _ hb => exact aligned_congr ht hc' hf (ho (by rw [hb]; exact nofun))

theorem step_aligned {s : Session} (c : Call) (hs : s.Aligned)
    (h : (s.step c).2 ≠ .error .tooDeep) : (s.step c).1.Aligned := by
  have hc := step_cases s c
  generalize s.step c = o at hc h ⊢
  cases hc with
  | runs => exact guarded_aligned hs (run_aligned _ hs) h
  | takes => exact guarded_aligned hs (take_aligned _ _ hs) h
  | finishes => exact .inl rfl
  | refused => exact hs

/-- An offer comes from the node that is shown, if no call has broken off between two nodes. -/
theorem reaches_aligned {s t : Session} (hs : s.Aligned)
    (h : Reaches (· ≠ .error .tooDeep) s t) : t.Aligned := by
  induction h with
  | here => exact hs
  | call _ c outcome ih => exact step_aligned c ih outcome
  | world _ _ ih => exact aligned_congr rfl rfl rfl ih
  | reload _ _ read => exact .inl (ofDatum_new read).2

/-! ## Taking a choice -/

theorem choose_ok {s : Session} {index : Datum} {r : StepResult}
    (h : (s.choose index).2 = .ok r) : ∃ (k : ℕ) (c : Choice × ℕ),
      index = .int k ∧ s.offered[k]? = some c := by
  obtain ⟨s₁, hs, -⟩ := step_ok (c := .choose index) h
  cases hs with
  | @choose index i c w _ hi _ => exact ⟨i, c, offeredAt?_some hi⟩

/-- A once-only choice that is taken is withheld at once, and is among those taken. -/
theorem choose_spares {s : Session} {n : Node} {choice : Choice} {place k : ℕ} {r : StepResult}
    (at_ : OnceAt s.tree n place) (hn : s.current = .scalar n.id)
    (hi : s.offered[k]? = some (choice, place)) (once : choice.once = true)
    (h : (s.choose (.int k)).2 = .ok r) :
    (s.choose (.int k)).1.hasTaken (.of s.tree.name n.name place) = true ∧
      Spares n place s (s.choose (.int k)) := by
  have hkey : s.keyOf s.currentId place = .of s.tree.name n.name place := by
    rw [currentId, hn]
    rfl
  have hk : ∀ t : Session, t.onceTaken = ChoiceKey.addTo s.onceTaken (s.keyOf s.currentId place) →
      t.hasTaken (.of s.tree.name n.name place) = true := by
    intro t ht
    rw [hasTaken, ht, hkey]
    exact ChoiceKey.any_addTo_self _ _
  obtain ⟨s₁, hs, he⟩ := step_ok (c := .choose (.int k)) h
  have ho := hs.onceTaken hi
  have ho' := choose_onceTaken hi h
  rw [if_pos once] at ho ho'
  exact ⟨hk _ ho', hs.spares he at_ (hk _ ho)⟩

/-- Unless a call breaks off because of values that are nested too deeply, what is on offer comes
from the node that is shown. While that is so, a call that takes a choice takes one of that node;
and no call shows or presents a once-only choice in its place again, from the one that takes it on,
whatever other calls fail, whatever the store becomes, and through any number of saves. -/
theorem taken_once {s₀ : Session} (texts : ∀ m ∈ s₀.tree.nodes, ∃ id, m.id = .text id)
    (new : s₀.offered = []) :
    (∀ s, Reaches (· ≠ .error .tooDeep) s₀ s → s.Aligned) ∧
    ∀ s, Reaches (fun _ => True) s₀ s → s.Aligned → ∀ index r, (s.choose index).2 = .ok r →
      ∃ (k : ℕ) (choice : Choice) (n : Node) (place : ℕ), index = .int k ∧
        s.offered[k]? = some (choice, place) ∧ s.tree.lookup s.current = .ok (some n) ∧
        n.choices[place]? = some choice ∧
        (choice.once = true → Spares n place s (s.choose index) ∧
          ∀ t, Reaches (fun _ => True) (s.choose index).1 t → ∀ c, Spares n place t (t.step c)) := by
  refine ⟨fun s hs => reaches_aligned (.inl new) hs, fun s hs aligned index r h => ?_⟩
  obtain ⟨k, ⟨choice, place⟩, rfl, hi⟩ := choose_ok h
  rcases aligned with he | ⟨n, hn, hcur, hat⟩
  · rw [he] at hi
    exact absurd hi nofun
  have hc : n.choices[place]? = some choice := hat _ (List.mem_of_getElem? hi)
  refine ⟨k, choice, n, place, rfl, hi, hn, hc, fun once => ?_⟩
  have at_ : OnceAt s.tree n place := ⟨reaches_tree hs ▸ texts, hcur ▸ hn, choice, hc, once⟩
  obtain ⟨hk, hspares⟩ := choose_spares at_ hcur hi once h
  refine ⟨hspares, fun t ht c => ?_⟩
  have htree : t.tree = s.tree :=
    (reaches_tree ht).trans ((hasTaken_upheld (.of "" "" 0)).step s (.choose (.int k))).1
  refine step_spares c (htree ▸ at_) ?_
  rw [keyOf, htree]
  exact reaches_hasTaken ht hk

end Session

end session

namespace Session

attribute [local instance] Text.noHalves

/-- A once-only choice that leads back to the node with the id a. -/
def gift : Choice where
  text := .text "gift"
  goto := .text "a"
  guards := []
  deeds := []
  priority := .null
  once := true
  requirements := []

/-- A session whose store has two tables, each of which holds itself. -/
def twins : Session :=
  let bare : Node := { id := .text "a", text := .null, speaker := .null, portrait := .null
                       choices := [gift], autoAdvance := .null, next := .null, voiceLine := .null
                       guards := [], deeds := [], tags := [], priority := .null }
  let same : Choice := { gift with
    text := .text "same", once := false
    guards := [⟨.null, .comparison (.context "p") .eqEq (.context "q")⟩] }
  let heap : Heap := #[[(.text "p", .map 1), (.text "q", .map 2)], [(.text "x", .map 1)],
    [(.text "x", .map 2)]]
  { tree := { id := .text "t", start := .text "a"
              nodes := [bare, { bare with id := .text "b", choices := [same] }] }
    world := { store := { Store.empty #[] with context := ⟨heap, .map 0⟩ } } }

theorem taken_once_twins :
    twins.offered = [] ∧ (twins.step .start).1.offered = [(gift, 0)] ∧
      ∃ n : Node, n.choices[0]? = some gift ∧ Spares n 0 (twins.step .start).1
        ((twins.step .start).1.choose (.int 0)) := by
  have texts : ∀ m ∈ twins.tree.nodes, ∃ id, m.id = .text id := by
    intro m hm
    rcases List.mem_cons.1 hm with rfl | hm
    · exact ⟨_, rfl⟩
    · obtain rfl := List.mem_singleton.1 hm
      exact ⟨_, rfl⟩
  have hs : (twins.step .start).2 ≠ .error .tooDeep := by decide +kernel
  have ho : (twins.step .start).1.offered = [(gift, 0)] := by decide +kernel
  obtain ⟨r, hr⟩ := ok_of_isOk (o := ((twins.step .start).1.choose (.int 0)).2) (by decide +kernel)
  obtain ⟨aligned, spared⟩ := taken_once texts rfl
  have ha := aligned _ (.call .here .start hs)
  obtain ⟨k, choice, n, place, hk, hi, -, hc, h⟩ :=
    spared _ (.call .here .start trivial) ha _ r hr
  obtain rfl : k = 0 := by simpa using hk.symm
  rw [ho] at hi
  obtain ⟨rfl, rfl⟩ := Prod.mk.inj (Option.some.inj hi)
  exact ⟨rfl, ho, n, hc, (h rfl).1⟩

/-- After a call has broken off at a node with a choice for which two tables would be compared for
ever, a choice of the node before it is taken, and offered again. -/
theorem taken_again :
    twins.offered = [] ∧ (twins.step .start).1.offered = [(gift, 0)] ∧
      ((twins.step .start).1.step (.enter (.text "b"))).2 = .error .tooDeep ∧
      (twins.steps [.start, .enter (.text "b")]).offered = [(gift, 0)] ∧
      ((twins.steps [.start, .enter (.text "b")]).choose (.int 0)).2.map (fun r =>
        r.shown.map fun p => (p.node, p.choices)) = .ok [("a", [gift])] := by
  refine ⟨rfl, ?_, ?_, ?_, ?_⟩
  · decide +kernel
  · decide +kernel
  · decide +kernel
  · decide +kernel

end Session

end Colloquy
