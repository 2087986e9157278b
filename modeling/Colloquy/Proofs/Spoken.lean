import Colloquy.Proofs.Sayable
import Colloquy.Proofs.Talk
import Colloquy.Proofs.Variables

/-!
# The player on plain talk

On plain talk the player ends with a result or for its budget, and with no other fault
(`Player.play_ends`). Acts that say something are taken together (`Player.Utters`): each text that
is said has a form, and can be said (`sayPresentation_utters`, `sayChoices_utters`,
`sayState_ends`). Before each line the conversation is over or waits and talks (`Player.Stands`).
Every line that is heard leaves it so (`hear_ends`), and so does an input, line by line
(`goOn_ends`). Three things are asked for: room for a column of what nobody says
(`proseWidth_pos`), numbers that can be put into words when they are counted from nought
(`Player.IsFair`), and variables that can be put into words.
-/

namespace Colloquy

section player
variable [Text.Halves]

namespace Player
open Text

variable {α β : Type} {p : Play} {stream : Bool}

/-! ## Acts that end well -/

/-- An act returns with something told of what it leaves behind, or a chain is too long. -/
inductive Ends (stream : Bool) (Q : α → Session → Prop) : EStateM.Result Fault Play α → Prop
  | returns {a : α} {p : Play} (left : Q a p.session) (streams : p.isStream = stream) :
      Ends stream Q (.ok a p)
  | spent {chain : List String} {budget : Datum} {p : Play} :
      Ends stream Q (.error (.budgetExceeded chain budget) p)

namespace Ends

variable {Q : α → Session → Prop} {R : β → Session → Prop}

omit [Text.Halves] in
theorem bind {m : Act α} {k : α → Act β} (h : Ends stream Q (m p))
    (hk : ∀ a p', Q a p'.session → p'.isStream = stream → Ends stream R (k a p')) :
    Ends stream R ((m >>= k) p) := by
  generalize hm : m p = x at h
  cases h with
  | @returns a p' left streams =>
    rw [bind_ok hm]
    exact hk a p' left streams
  | spent =>
    rw [bind_error hm]
    exact .spent

omit [Text.Halves] in
theorem discard {m : Act α} (h : Ends stream Q (m p)) :
    Ends stream (fun _ _ => True) (discard m p) := by
  change Ends stream _ (EStateM.map _ m p)
  rw [EStateM.map]
  generalize m p = x at h
  cases h with
  | returns _ streams => exact .returns trivial streams
  | spent => exact .spent

end Ends

/-- An act that says something, to a stream or not, and leaves the session as it is. -/
def Utters (stream : Bool) (m : Act Unit) : Prop :=
  ∀ p, p.isStream = stream → Ends stream (fun _ s => s = p.session) (m p)

namespace Utters

omit [Text.Halves] in
theorem bind {m : Act Unit} {k : Unit → Act α} {Q : α → Session → Prop} (h : Utters stream m)
    (hp : p.isStream = stream) (hk : ∀ p', p'.session = p.session → p'.isStream = stream →
      Ends stream Q (k () p')) : Ends stream Q ((m >>= k) p) :=
  (h p hp).bind fun _ p' left streams => hk p' left streams

omit [Text.Halves] in
theorem seq {m : Act Unit} {k : Unit → Act Unit} (h : Utters stream m)
    (hk : Utters stream (k ())) : Utters stream (m >>= k) :=
  fun _ hp => h.bind hp fun p' hs hp' => hs ▸ hk p' hp'

omit [Text.Halves] in
theorem nothing : Utters stream (pure ()) := fun _ hp => .returns rfl hp

omit [Text.Halves] in
theorem forM {f : α → Act Unit} : ∀ {as : List α}, (∀ a ∈ as, Utters stream (f a)) →
    Utters stream (as.forM f)
  | [], _ => nothing
  | a :: as, h => by
    rw [List.forall_mem_cons] at h
    exact h.1.seq (forM h.2)

end Utters

theorem say_utters {text : String} (h : Sayable stream text.toList) : Utters stream (say text) := by
  intro p hp
  unfold say
  rw [bind_ok (show (get : Act Play) p = .ok p p from rfl)]
  split
  · rename_i halves
    rw [Bool.and_eq_true] at halves
    rw [h.isWhole (hp ▸ halves.1)] at halves
    cases halves.2
  · exact .returns rfl hp

theorem sayAll_utters {lines : List String} (h : ∀ line ∈ lines, Sayable stream line.toList) :
    Utters stream (sayAll lines) :=
  .forM fun line hl => say_utters (h line hl)

/-- An outcome that is a text, and one that can be said. -/
def IsLine (stream : Bool) (outcome : Except Fault String) : Prop :=
  ∃ text, outcome = .ok text ∧ Sayable stream text.toList

theorem sayOrFail_utters {outcome : Except Fault String} (h : IsLine stream outcome) :
    Utters stream (sayOrFail outcome) := by
  obtain ⟨text, rfl, ht⟩ := h
  exact say_utters ht

/-! ## The game state -/

/-- A table whose keys are texts can be put in order. -/
theorem sorted_ok {t : Table α} (keys : ∀ e ∈ t, ∃ k, e.1 = .text k) :
    ∃ es, t.sorted = .ok es ∧ ∀ e ∈ es, e ∈ t := by
  rcases t with _ | ⟨e, _ | ⟨e', es⟩⟩
  · exact ⟨[], rfl, fun _ => id⟩
  · exact ⟨[e], rfl, fun _ => id⟩
  · obtain ⟨k, hk⟩ := keys e List.mem_cons_self
    have comparable : ((e' :: es).all fun x => (e.1.isBefore? x.1).isSome) = true := by
      rw [List.all_eq_true]
      intro x hx
      obtain ⟨l, hl⟩ := keys x (List.mem_cons_of_mem _ hx)
      rw [hk, hl]
      rfl
    exact ⟨_, if_pos comparable, fun x hx => (Sorting.sort_perm _ _).mem_iff.1 hx⟩

theorem sayEntries_utters {t : Table α} {datum : α → Datum} (keys : ∀ e ∈ t, ∃ k, e.1 = .text k)
    (lines : ∀ e ∈ t, IsLine stream (entryLine e.1 (datum e.2))) :
    Utters stream (sayEntries t datum) := by
  unfold sayEntries
  split
  · exact say_utters (sayable_drawn rfl)
  · obtain ⟨es, sorted, members⟩ := sorted_ok keys
    rw [sorted]
    exact .forM fun e he => sayOrFail_utters (lines e (members e he))

end Player

omit [Text.Halves] in
theorem Datum.areEntriesShowable_iff {es : List (Scalar × Datum)} :
    areEntriesShowable es = true ↔ ∀ e ∈ es, e.1.isShowable = true ∧ e.2.isShowable = true := by
  induction es with
  | nil => simp [areEntriesShowable]
  | cons e es ih =>
    rw [areEntriesShowable, Bool.and_eq_true, Bool.and_eq_true, ih, List.forall_mem_cons]

/-- A conversation that can be played without faults: nothing is in the way of its calls, and its
texts and variables can be shown, with room for what nobody says if anything is said so. -/
structure Player.Suits (o : Settings) (stream : Bool) (t : Tree) (st : Store) : Prop where
  easy : t.Talks st
  vars : st.HasVariables t.initial
  keys : ∀ e ∈ t.initial, ∃ k, e.1 = .text k
  showable : (Datum.map t.initial).isShowable = true
  sayable : t.IsSayable stream
  room : 0 < proseWidth o ∨ ∀ n ∈ t.nodes, n.text.isTrue = true → n.speaker.isTrue = true

namespace Player
open Text

variable {p : Play} {o : Settings} {stream : Bool} {t : Tree} {st : Store} {budget : ℤ}

theorem Suits.entryLine (suits : Suits o stream t st) {e : Scalar × Value}
    (he : e ∈ st.context.entries) :
    IsLine stream (entryLine e.1 (st.context.heap.view e.2)) := by
  have there := suits.vars.mem_entries he
  have showable := suits.showable
  rw [Datum.isShowable, Datum.areEntriesShowable_iff] at showable
  obtain ⟨key, value⟩ := suits.sayable.initial _ there
  have near : ¬ Json.depthLimit < (st.context.heap.view e.2).depth := by
    have within := suits.vars.near
    have inside := Datum.depth_le_of_mem there
    rw [Datum.depth] at within
    dsimp only at inside
    rw [Json.depthLimit]
    rw [Context.copyLimit] at within
    omega
  have line : Player.entryLine e.1 (st.context.heap.view e.2) = .ok
      ("  • " ++ (Datum.scalar e.1).plain ++ ": " ++ (st.context.heap.view e.2).plain) := by
    unfold Player.entryLine
    rw [if_neg near, (showable _ there).1, (showable _ there).2]
    rfl
  exact ⟨_, line, .append (.append (.append (sayable_drawn rfl) key) (sayable_drawn rfl)) value⟩

theorem sayState_ends (suits : Suits o stream t st) (hp : p.isStream = stream)
    (talks : p.session.Talks t st budget) :
    Ends stream (fun _ s => s = p.session) (sayState p) := by
  unfold sayState
  rw [bind_ok (show (get : Act Play) p = .ok p p from rfl), talks.store]
  refine (show Utters stream _ from ?_) p hp
  have drawn : ∀ {line : String}, isDrawn line.toList = true → Utters stream (say line) :=
    fun h => say_utters (sayable_drawn h)
  have flags : Utters stream (sayEntries st.flags id) := by
    rw [suits.vars.flags]
    exact drawn rfl
  have quests : Utters stream (sayEntries st.quests fun q => .text q.status.name) := by
    rw [suits.vars.quests]
    exact drawn rfl
  have context : Utters stream (sayEntries st.context.entries st.context.heap.view) :=
    sayEntries_utters (fun e he => suits.keys _ (suits.vars.mem_entries he))
      fun e he => suits.entryLine he
  have current : (p.session.current.orElse (.text "None")).IsSayable stream := by
    have none : Sayable stream "None".toList := sayable_drawn rfl
    unfold Datum.orElse
    split_ifs
    · rcases talks.current with h | ⟨n, hn, h⟩
      · rw [h]
        exact none
      · rw [h]
        exact (suits.sayable.nodes n hn).name
    · exact none
  refine .seq (sayAll_utters ?_) <| .seq (drawn rfl) <| .seq flags <| .seq (drawn rfl) <|
    .seq context <| .seq (drawn rfl) <| .seq quests <| .seq (say_utters ?_) <|
    .seq (say_utters ?_) (say_utters (sayable_rule rfl _))
  · simp only [List.forall_mem_cons]
    exact ⟨.append (sayable_drawn rfl) (Ink.sayable_paint (sayable_rule rfl _)),
      Ink.sayable_paint (sayable_drawn rfl), Ink.sayable_paint (sayable_rule rfl _),
      List.forall_mem_nil _⟩
  · exact .append (sayable_drawn rfl) current
  · exact .append (.append (.append (sayable_drawn rfl) (sayable_ofNat _)) (sayable_drawn rfl))
      (sayable_ofNat _)

/-! ## Nodes and choices -/

omit [Text.Halves] in
/-- There is room for what nobody says just if the width is none at all, or has a column left. -/
theorem proseWidth_pos {o : Settings} : 0 < proseWidth o ↔ o.columns < 1 ∨ 7 ≤ o.columns := by
  unfold proseWidth Box.room
  constructor
  · intro h
    split_ifs at h
    all_goals omega
  · intro h
    split_ifs
    all_goals omega

theorem prose_isLine {o : Settings} (wide : 0 < proseWidth o) {s : String}
    (h : Sayable stream s.toList) : IsLine stream (prose o (.text s)) := by
  have wrapped := h.wrap (show 0 < (proseWidth o).toNat by omega)
  have rows : Sayable stream
      (String.ofList (join ['\n'] (wrap (proseWidth o).toNat s.toList))).toList := by
    rw [String.toList_ofList]
    exact sayable_join (sayable_drawn rfl) fun row hr =>
      wrapped.of_mem fun d hd => .inl (List.mem_flatten_of_mem hr hd)
  exact ⟨_, if_neg (not_le.2 wide),
    .append (sayable_drawn rfl) (Ink.sayable_paint (.append (sayable_drawn rfl) rows))⟩

theorem boxed_isLine {o : Settings} {text name : Datum} (ht : text.IsText) (hn : name.IsText)
    (sayable : text.IsSayable stream) (named : name.IsSayable stream) (color : Ink) :
    IsLine stream (boxed o text name color) := by
  obtain ⟨s, rfl⟩ := ht
  obtain ⟨n, rfl⟩ := hn
  have room := Box.twenty_le_wrapWidth 60 o.columns
  exact ⟨_, rfl, Box.sayable_frame named (Ink.sayable_mark color)
    (Box.sayable_rows (by omega) sayable) n.length⟩

theorem sayPresentation_utters (suits : Suits o stream t st) {shown : Presentation}
    (of : shown.IsOf t) : Utters stream (sayPresentation o shown) := by
  obtain ⟨n, hn, offered, rfl, -⟩ := of
  have talk := suits.easy.talk.nodes n hn
  have sayable := suits.sayable.nodes n hn
  have text : Utters stream (if n.text.isTrue then
      sayOrFail (if n.speaker.isTrue then boxed o n.text n.speaker .brightCyan
        else prose o n.text) else pure ()) := by
    split_ifs with said spoken
    · exact sayOrFail_utters
        (boxed_isLine talk.text talk.speaker sayable.text sayable.speaker .brightCyan)
    · obtain ⟨s, hs⟩ := talk.text
      have wide := suits.room.resolve_right fun all => spoken (all n hn said)
      have ht := sayable.text
      rw [hs] at ht ⊢
      exact sayOrFail_utters (prose_isLine wide ht)
    · exact .nothing
  have id : Utters stream (say ("\n" ++ Ink.paint [.dim] ("[" ++ n.name ++ "]"))) := by
    refine say_utters (.append (sayable_drawn rfl) (Ink.sayable_paint ?_))
    exact .append (.append (sayable_drawn rfl) sayable.name) (sayable_drawn rfl)
  unfold sayPresentation
  dsimp only [Session.shownOf]
  by_cases ids : o.showIds = true
  · rw [if_pos ids]
    exact .seq id text
  · rw [if_neg ids]
    exact text

theorem sayStep_utters (suits : Suits o stream t st) {r : StepResult} (of : r.IsOf t) :
    Utters stream (sayStep o r) := by
  refine .seq (.forM fun shown hs => sayPresentation_utters suits (of.passed shown hs)) ?_
  split
  · rename_i shown hs
    exact sayPresentation_utters suits (of.shown shown hs)
  · exact .nothing

omit [Text.Halves] in
theorem mapM_text : ∀ {ds : List Datum}, (∀ d ∈ ds, d.IsText) →
    ∃ ss, ds.mapM Datum.text? = some ss ∧ ds = ss.map Datum.text
  | [], _ => ⟨[], rfl, rfl⟩
  | d :: ds, h => by
    rw [List.forall_mem_cons] at h
    obtain ⟨⟨s, rfl⟩, h⟩ := h
    obtain ⟨ss, hm, rfl⟩ := mapM_text h
    refine ⟨s :: ss, ?_, rfl⟩
    rw [List.mapM_cons, hm]
    rfl

theorem choiceLine_isLine {c : Choice} (talk : c.IsTalk) (sayable : c.IsSayable stream)
    (number : ℕ) : IsLine stream (choiceLine number c) := by
  obtain ⟨requirement, wanted, said⟩ : ∃ r, c.requirementText = .ok r ∧
      ∀ s, r = some s → Sayable stream s.toList := by
    unfold Choice.requirementText
    split_ifs
    · exact ⟨none, rfl, nofun⟩
    · obtain ⟨ss, hm, hs⟩ := mapM_text talk.requirements
      rw [hm]
      refine ⟨_, rfl, fun s h => ?_⟩
      obtain rfl := Option.some.inj h
      refine sayable_intercalate (sayable_drawn rfl) fun s hs' => ?_
      exact sayable.requirements (.text s) (hs ▸ List.mem_map_of_mem hs')
  unfold choiceLine
  rw [wanted]
  refine ⟨_, rfl, ?_⟩
  refine .append (.append (.append (.append (sayable_drawn rfl) (Ink.sayable_paint ?_))
    (sayable_drawn rfl)) (Ink.sayable_paint sayable.text)) ?_
  · exact .append (.append (sayable_drawn rfl) (sayable_ofNat _)) (sayable_drawn rfl)
  · cases requirement with
    | none => exact sayable_drawn rfl
    | some s =>
      refine .append (sayable_drawn rfl) (Ink.sayable_paint ?_)
      exact .append (.append (sayable_drawn rfl) (said s rfl)) (sayable_drawn rfl)

theorem sayChoices_utters {cs : List Choice} (talk : ∀ c ∈ cs, c.IsTalk)
    (sayable : ∀ c ∈ cs, c.IsSayable stream) : Utters stream (sayChoices cs) := by
  unfold sayChoices
  split
  · exact say_utters (.append (sayable_drawn rfl) (Ink.sayable_paint (sayable_drawn rfl)))
  · refine .seq (say_utters ?_) (.forM fun x hx => ?_)
    · exact .append (sayable_drawn rfl) (Ink.sayable_paint (sayable_rule rfl _))
    · have there := List.fst_mem_of_mem_zipIdx hx
      exact sayOrFail_utters (choiceLine_isLine (talk _ there) (sayable _ there) x.2)

/-! ## Turns -/

/-- A conversation that talks, with the result that a call has left it with. -/
structure IsAt (t : Tree) (st : Store) (budget : ℤ) (r : StepResult) (s : Session) : Prop where
  talks : s.Talks t st budget
  of : r.IsOf t
  leaves : s.Leaves r

/-- What is left before a line: a conversation that is over, or one that waits and talks. -/
inductive Stands (t : Tree) (st : Store) (budget : ℤ) : Turn → Session → Prop
  | ended {r : StepResult} {s : Session} : Stands t st budget (.over r) s
  | waiting {r : StepResult} {s : Session} (here : IsAt t st budget r s)
      (waits : r.isTerminal = false) : Stands t st budget (.waiting r) s

theorem arrive_ends (suits : Suits o stream t st) (hp : p.isStream = stream) {r : StepResult}
    (here : IsAt t st budget r p.session) :
    Ends stream (Stands t st budget) (arrive o r p) := by
  unfold arrive
  refine (sayStep_utters suits here.of).bind hp fun p₁ h₁ hp₁ => ?_
  cases waits : r.isTerminal with
  | true =>
    have ended : Utters stream (sayAll closing) := by
      refine sayAll_utters ?_
      simp only [closing, List.forall_mem_cons]
      exact ⟨.append (sayable_drawn rfl) (Ink.sayable_paint (sayable_rule rfl _)),
        Ink.sayable_paint (sayable_drawn rfl), Ink.sayable_paint (sayable_rule rfl _),
        List.forall_mem_nil _⟩
    refine ended.bind hp₁ fun p₂ h₂ hp₂ => ?_
    have same : p₂.session = p.session := h₂.trans h₁
    exact (sayState_ends suits hp₂ (same ▸ here.talks)).bind fun _ _ _ hp₃ => .returns .ended hp₃
  | false =>
    have there := here.of.choices
    have said : Utters stream (sayChoices r.choices) := by
      refine sayChoices_utters (fun c hc => ?_) fun c hc => ?_
      · obtain ⟨n, hn, hc⟩ := there c hc
        exact (suits.easy.talk.nodes n hn).choices c hc
      · obtain ⟨n, hn, hc⟩ := there c hc
        exact (suits.sayable.nodes n hn).choices c hc
    refine said.bind hp₁ fun p₂ h₂ hp₂ => ?_
    have same : p₂.session = p.session := h₂.trans h₁
    exact .returns (.waiting (same ▸ here) waits) hp₂

/-- The outcome of a call that may be made is a result of the tree, or it is said what chain is too
long. -/
theorem resultOf_ends (suits : Suits o stream t st) (hp : p.isStream = stream)
    {outcome : Except Fault StepResult}
    (converses : Session.Converses t st budget (p.session, outcome))
    (leaves : ∀ r, outcome = .ok r → p.session.Leaves r) {Q : Turn → Session → Prop}
    {k : StepResult → Act Turn} (hk : ∀ r, IsAt t st budget r p.session → Ends stream Q (k r p)) :
    Ends stream Q ((resultOf outcome >>= k) p) := by
  cases converses with
  | @returns _ r talks of => exact hk r ⟨talks, of, leaves r rfl⟩
  | @spent _ chain _ names =>
    have told : Utters stream (sayBroken (.budgetExceeded chain (.int budget))) := by
      have count : Sayable stream (Datum.int budget).plain.toList :=
        fun _ c hc => (lasts_ofInt budget c hc).1
      have path : Sayable stream (" -> ".intercalate chain).toList := by
        refine sayable_intercalate (sayable_drawn rfl) fun name hn => ?_
        obtain ⟨n, there, rfl⟩ := names name hn
        exact (suits.sayable.nodes n there).name
      have message : (Fault.budgetExceeded chain (.int budget)).message =
          "Auto-advance budget of " ++ (Datum.int budget).plain ++ " hops exceeded: "
            ++ " -> ".intercalate chain := rfl
      refine say_utters (.append (sayable_drawn rfl) (Ink.sayable_paint ?_))
      rw [message]
      exact .append (sayable_drawn rfl)
        (.append (.append (.append (sayable_drawn rfl) count) (sayable_drawn rfl)) path)
    have stopped : Ends stream (fun _ _ => False)
        (resultOf (.error (.budgetExceeded chain (.int budget))) p) :=
      told.bind (k := fun _ => throw (.budgetExceeded chain (.int budget))) hp
        fun _ _ _ => .spent
    exact stopped.bind fun _ _ never _ => never.elim

theorem call_ends (suits : Suits o stream t st) (hp : p.isStream = stream)
    (talks : p.session.Talks t st budget) {c : Session.Call} (may : p.session.May c)
    {Q : Turn → Session → Prop} {k : Except Fault StepResult → Act Turn}
    (hk : ∀ outcome p', p'.isStream = stream →
      Session.Converses t st budget (p'.session, outcome) →
      (∀ r, outcome = .ok r → p'.session.Leaves r) → Ends stream Q (k outcome p')) :
    Ends stream Q ((call c >>= k) p) :=
  hk (p.session.step c).2 { p with session := (p.session.step c).1 } hp
    (talks.step suits.easy may) fun _ => Session.step_leaves

theorem call_arrives_ends (suits : Suits o stream t st) (hp : p.isStream = stream)
    (talks : p.session.Talks t st budget) {c : Session.Call} (may : p.session.May c) :
    Ends stream (Stands t st budget)
      ((call c >>= fun outcome => resultOf outcome >>= arrive o) p) :=
  call_ends suits hp talks may fun _ _ hp' converses leaves =>
    resultOf_ends suits hp' converses leaves fun _ here => arrive_ends suits hp' here

theorem leave_ends (r : StepResult) (hp : p.isStream = stream) :
    Ends stream (Stands t st budget) (leave r p) := by
  have said : Utters stream
      (say ("\n" ++ Ink.paint [.brightYellow] "👋 Thanks for playing!")) :=
    say_utters (.append (sayable_drawn rfl) (Ink.sayable_paint (sayable_drawn rfl)))
  exact said.bind hp fun _ _ hp' => .returns .ended hp'

/-- What leaves a waiting session as it is, and asks again, leaves it waiting. -/
theorem again_ends {m : Act Unit} {r : StepResult}
    (said : Ends stream (fun _ s => s = p.session) (m p))
    (stands : Stands t st budget (.waiting r) p.session) :
    Ends stream (Stands t st budget) ((m >>= fun _ => await r) p) :=
  said.bind fun _ _ same hp' => .returns (same ▸ stands) hp'

theorem refuse_ends {r : StepResult} (hp : p.isStream = stream)
    (stands : Stands t st budget (.waiting r) p.session) {why : String}
    (drawn : isDrawn why.toList = true) : Ends stream (Stands t st budget) (refuse r why p) := by
  have said : Utters stream (say (Ink.paint [.red] ("❌ " ++ why))) :=
    say_utters (Ink.sayable_paint (.append (sayable_drawn rfl) (sayable_drawn drawn)))
  exact again_ends (said p hp) stands

/-- A number on the list takes the choice that it is the number of. -/
theorem takeListed_ends (suits : Suits o stream t st) (hp : p.isStream = stream) {r : StepResult}
    (here : IsAt t st budget r p.session) (waits : r.isTerminal = false) {n : ℤ}
    (listed : 1 ≤ n ∧ n ≤ r.choices.length) :
    Ends stream (Stands t st budget) (takeNumber o r n p) := by
  have size := here.leaves.length_offered waits
  have phase := (here.leaves.offers waits).1
  obtain ⟨i, hi⟩ : ∃ i : ℕ, n - 1 = i := Int.eq_ofNat_of_zero_le (by omega)
  have offered := List.getElem?_eq_getElem (show i < p.session.offered.length by omega)
  unfold takeNumber
  rw [hi]
  refine call_ends suits hp here.talks (.inr ⟨phase, .inr ⟨i, _, rfl, offered⟩⟩)
    fun outcome p' hp' converses leaves => ?_
  split
  · cases converses
  · refine resultOf_ends suits hp' converses leaves fun r' here' => ?_
    rcases hc : r.choices[(i : ℤ).toNat]? with _ | c
    · exact arrive_ends suits hp' here'
    obtain ⟨m, there, hc⟩ := here.of.choices c (List.mem_of_getElem? hc)
    dsimp only
    split
    · have you : (Datum.text "You").IsSayable stream :=
        show Sayable stream "You".toList from sayable_drawn rfl
      have said : Utters stream (sayOrFail (boxed o c.text (.text "You") .brightGreen)) :=
        sayOrFail_utters (boxed_isLine ((suits.easy.talk.nodes m there).choices c hc).text
          ⟨"You", rfl⟩ ((suits.sayable.nodes m there).choices c hc).text you .brightGreen)
      exact said.bind hp' fun p₂ same hp₂ => arrive_ends suits hp₂ (same ▸ here')
    · exact arrive_ends suits hp' here'

/-- Any other number is refused, if it can be put into words counted from nought. -/
theorem refuseUnlisted_ends {r : StepResult} (hp : p.isStream = stream)
    (here : IsAt t st budget r p.session) (waits : r.isTerminal = false) {n : ℤ}
    (short : (Datum.int (n - 1)).isShowable = true)
    (unlisted : ¬ (1 ≤ n ∧ n ≤ r.choices.length)) :
    Ends stream (Stands t st budget) (takeNumber o r n p) := by
  have size := here.leaves.length_offered waits
  have beyond : ¬ (0 ≤ n - 1 ∧ n - 1 < p.session.offered.length) := by omega
  obtain ⟨m, stays⟩ := Session.choose_beyond beyond
  have current : p.session.current.isShowable = true := by
    rcases here.talks.current with h | ⟨n, -, h⟩
    · rw [h]
      rfl
    · rw [h]
      rfl
  have refused : p.session.step (.choose (.int (n - 1))) =
      (p.session, .error (.invalidChoice (.int (n - 1)) m p.session.current)) := by
    rw [Session.badIndex, short, current] at stays
    exact stays
  have called : call (.choose (.int (n - 1))) p =
      .ok (p.session.step (.choose (.int (n - 1)))).2
        { p with session := (p.session.step (.choose (.int (n - 1)))).1 } := rfl
  rw [refused] at called
  unfold takeNumber
  rw [bind_ok called]
  exact refuse_ends hp (.waiting here waits) rfl

/-- Whether a line of input can be acted on: it is no number that has no words when it is counted
from nought. -/
def IsFair (line : String) : Prop :=
  Number.Numeral.int? (wordOf line) ≠ some (1 - (integerBound : ℤ))

omit [Text.Halves] in
theorem IsFair.isShowable {line : String} (fair : IsFair line) {n : ℤ}
    (read : Number.Numeral.int? (wordOf line) = some n) :
    (Datum.int (n - 1)).isShowable = true := by
  have short : n.natAbs < integerBound := by
    unfold integerBound
    exact Number.Numeral.int?_lt read
  have least : n ≠ 1 - (integerBound : ℤ) := fun he => fair (he ▸ read)
  have less : (n - 1).natAbs < integerBound := by
    generalize integerBound = bound at short least ⊢
    omega
  rw [Datum.isShowable, Scalar.isShowable, decide_eq_true less]

theorem hear_ends (suits : Suits o stream t st) (hp : p.isStream = stream) {r : StepResult}
    (here : IsAt t st budget r p.session) (waits : r.isTerminal = false) {line : String}
    (fair : IsFair line) : Ends stream (Stands t st budget) (hear o r (some line) p) := by
  have stands : Stands t st budget (.waiting r) p.session := .waiting here waits
  unfold hear
  dsimp only
  split_ifs with leaving state bare
  · exact leave_ends r hp
  · exact again_ends (sayState_ends suits hp here.talks) stands
  · exact call_arrives_ends suits hp here.talks (.inr ⟨(here.leaves.offers waits).1, .inl rfl⟩)
  · rcases read : Number.Numeral.int? (wordOf line) with _ | n
    · exact refuse_ends hp stands rfl
    · by_cases listed : 1 ≤ n ∧ n ≤ r.choices.length
      · exact takeListed_ends suits hp here waits listed
      · exact refuseUnlisted_ends hp here waits (fair.isShowable read) listed

theorem goOn_ends (suits : Suits o stream t st) : ∀ (lines : List String) {p : Play} {turn : Turn},
    p.isStream = stream → Stands t st budget turn p.session → (∀ line ∈ lines, IsFair line) →
      Ends stream (fun _ _ => True) (goOn o turn lines p) := by
  intro lines
  induction lines with
  | nil =>
    intro p turn hp stands _
    cases stands with
    | ended => exact .returns trivial hp
    | @waiting r =>
      have left : Ends stream (Stands t st budget) (hear o r none p) := leave_ends r hp
      exact left.discard.bind fun _ _ _ hp' => .returns trivial hp'
  | cons line lines ih =>
    intro p turn hp stands fair
    rw [List.forall_mem_cons] at fair
    cases stands with
    | ended => exact .returns trivial hp
    | waiting here waits =>
      exact (hear_ends suits hp here waits fair.1).bind fun _ _ stands' hp' => ih hp' stands' fair.2

theorem start_ends (suits : Suits o stream t st) (hp : p.isStream = stream)
    (talks : p.session.Talks t st budget) : Ends stream (Stands t st budget) (start o p) := by
  have opened : Utters stream (sayAll (opening t)) := by
    refine sayAll_utters ?_
    simp only [opening, List.forall_mem_cons]
    refine ⟨.append (sayable_drawn rfl) (Ink.sayable_paint (sayable_rule rfl _)),
      Ink.sayable_paint (.append (sayable_drawn rfl) suits.sayable.title),
      Ink.sayable_paint (sayable_rule rfl _), ?_, List.forall_mem_nil _⟩
    have word : ∀ {text : String}, isDrawn text.toList = true →
        Sayable stream (Ink.paint [.yellow] text).toList :=
      fun drawn => Ink.sayable_paint (sayable_drawn drawn)
    exact .append (.append (.append (.append (sayable_drawn rfl) (word rfl)) (sayable_drawn rfl))
      (word rfl)) (sayable_drawn rfl)
  unfold start
  rw [bind_ok (show (get : Act Play) p = .ok p p from rfl), talks.tree]
  refine opened.bind hp fun p₁ same hp₁ => ?_
  exact call_arrives_ends suits hp₁ (same ▸ talks) (.inl rfl)

/-- On a tree that only talks, with variables that can be put into words and room for what nobody
says, the player ends with a result or for its budget, on all input that is fair: with what the
calls come to that the lines ask for. -/
theorem play_ends {h h' : Heap} {es : Table Datum} {t : Tree} (json : (Datum.map es).IsJson)
    (loaded : Tree.ofDatum h (.map es) = .ok (t, h')) (talk : t.IsTalk)
    (object : (Table.field es "variables").IsObject)
    (showable : (Datum.map t.initial).isShowable = true) {w : World}
    (made : Store.make h' [] (.map t.initial) [] = .ok w.store) {o : Settings}
    (room : 7 ≤ o.columns ∨ ∀ n ∈ t.nodes, n.text.isTrue = true → n.speaker.isTrue = true)
    {input : List String} (fair : ∀ line ∈ input, IsFair line) {stream : Bool}
    (whole : stream = true → (t.toDatum h').HoldsOnly Scalar.IsPlain) (budget : ℤ) :
    let p : Play :=
      { session := { tree := t, world := w, budget := .int budget }, isStream := stream }
    ∃ p', (∃ r, play o input p = .ok r p' ∧ lead p.session input = (p'.session, .ok r)) ∨
      ∃ chain budget, play o input p = .error (.budgetExceeded chain budget) p' ∧
        lead p.session input = (p'.session, .error (.budgetExceeded chain budget)) := by
  intro p
  have initial := Tree.ofDatum_initial json object loaded
  have vars := Store.make_variables initial made
  have named : t.Named := Tree.ofDatum_named json loaded talk.start
    (fun n hn => (talk.nodes n hn).next) fun n hn c hc => ((talk.nodes n hn).choices c hc).goto
  have sayable : t.IsSayable stream := by
    cases stream with
    | false => exact t.isSayable_false
    | true => exact Tree.isSayable (whole rfl)
  rw [Datum.IsJson] at initial
  have suits : Suits o stream t w.store :=
    { easy :=
        { named, talk, decided := vars.isDecided, copyable := vars.isCopyable
          table := vars.isTable }
      vars, showable, sayable
      keys := initial.1
      room := room.imp_left fun wide => proseWidth_pos.2 (.inr wide) }
  have talks : p.session.Talks t w.store budget := ⟨rfl, rfl, rfl, .inl rfl, List.forall_mem_nil _⟩
  have ends : Ends stream (fun _ _ => True) (play o input p) :=
    (start_ends suits rfl talks).bind fun _ _ stands hp' =>
      goOn_ends suits input hp' stands fair
  have drives := play_drives o input p
  generalize lead p.session input = led at drives ⊢
  generalize play o input p = x at ends drives ⊢
  cases ends with
  | @returns r p' =>
    cases drives with
    | returns session => exact ⟨p', .inl ⟨r, rfl, by rw [session]⟩⟩
  | @spent chain budget p' =>
    cases drives with
    | stops session => exact ⟨p', .inr ⟨chain, budget, rfl, by rw [session]⟩⟩
    | fails within => exact absurd rfl (within chain budget)

end Player

end player

namespace Player

attribute [local instance] Text.noHalves

/-- A file with a talk at an inn, which nobody begins, and some gold. -/
def innFile : Datum := .object [("id", .text "inn"), ("variables", .object [("gold", .int 3)]),
  ("nodes", .object [
    ("start", .object [("text", .text "It rains."), ("choices", .list [.object [
      ("text", .text "Go in"), ("goto", .text "bar"), ("requirements", .list [.text "gold"]),
      ("conditions", .list [.text "context.gold"])]])]),
    ("bar", .object [("text", .text "Ale?"), ("speaker", .text "Bo")])])]

/-- What is in that file. -/
def inn : Tree :=
  let enter : Choice :=
    { text := .text "Go in", goto := .text "bar"
      guards := [⟨.text "context.gold", .context "gold"⟩], priority := .int 0, deeds := []
      once := false, requirements := [.text "gold"] }
  let start : Node :=
    { id := .text "start", text := .text "It rains.", speaker := .text "", portrait := .null
      choices := [enter], autoAdvance := .bool false, next := .null, voiceLine := .null
      guards := [], deeds := [], tags := [], priority := .int 0 }
  let bar : Node :=
    { start with id := .text "bar", text := .text "Ale?", speaker := .text "Bo", choices := [] }
  { id := .text "inn", nodes := [start, bar], initial := [(.text "gold", .int 3)] }

theorem innFile_loaded : Tree.ofDatum #[] innFile = .ok (inn, #[]) := by decide +kernel

theorem inn_isTalk : inn.IsTalk := by
  refine ⟨⟨_, rfl⟩, .inr ⟨_, rfl⟩, List.forall_mem_cons.2 ⟨?_, List.forall_mem_singleton.2 ?_⟩⟩
  · refine ⟨⟨_, rfl⟩, ⟨_, rfl⟩, .inl rfl, rfl, List.forall_mem_singleton.2 ?_⟩
    exact ⟨⟨_, rfl⟩, List.forall_mem_singleton.2 ⟨_, rfl⟩, .inr ⟨_, rfl⟩, rfl⟩
  · exact ⟨⟨_, rfl⟩, ⟨_, rfl⟩, .inl rfl, rfl, nofun⟩

theorem innFile_isPlain : innFile.IsPlain := by
  have gold : (Datum.object [("gold", .int 3)]).IsPlain :=
    Datum.isPlain_object ["gold"] (by decide) rfl
      (Datum.isPlain_scalar.2 (by decide +kernel : (3 : ℤ).natAbs < integerBound))
  have enter : (Datum.object [("text", .text "Go in"), ("goto", .text "bar"),
      ("requirements", .list [.text "gold"]),
      ("conditions", .list [.text "context.gold"])]).IsPlain :=
    Datum.isPlain_object ["text", "goto", "requirements", "conditions"] (by decide) rfl
      ⟨Datum.isPlain_ascii rfl, Datum.isPlain_ascii rfl,
        Datum.isPlain_list.2 (List.forall_mem_singleton.2 (Datum.isPlain_ascii rfl)),
        Datum.isPlain_list.2 (List.forall_mem_singleton.2 (Datum.isPlain_ascii rfl))⟩
  refine Datum.isPlain_object ["id", "variables", "nodes"] (by decide) rfl
    ⟨Datum.isPlain_ascii rfl, gold, Datum.isPlain_object ["start", "bar"] (by decide) rfl ⟨?_, ?_⟩⟩
  · exact Datum.isPlain_object ["text", "choices"] (by decide) rfl
      ⟨Datum.isPlain_ascii rfl, Datum.isPlain_list.2 (List.forall_mem_singleton.2 enter)⟩
  · exact Datum.isPlain_object ["text", "speaker"] (by decide) rfl
      ⟨Datum.isPlain_ascii rfl, Datum.isPlain_ascii rfl⟩

/-- The play of that talk on its variables. -/
def atTheInn (store : Store) : Play :=
  { session := { tree := inn, world := { store }, budget := .int 32 }, isStream := true }

/-- In seven columns the talk ends, on a stream as well, with a look at the state, a word and a
number that are no choice on the way in. -/
theorem play_ends_inn : ∃ store, Store.make #[] [] (.map inn.initial) [] = .ok store ∧
    let input := ["state", "x", "2", "1"]
    ∃ p' r, play { columns := 7 } input (atTheInn store) = .ok r p' ∧
      lead (atTheInn store).session input = (p'.session, .ok r) ∧ r.phase = .terminal := by
  obtain ⟨store, made⟩ := Session.ok_of_isOk
    (o := Store.make #[] [] (.map inn.initial) []) (by decide +kernel)
  have fair : ∀ line ∈ ["state", "x", "2", "1"], IsFair line := by
    unfold IsFair
    decide +kernel
  have written : (inn.toDatum #[]).HoldsOnly Scalar.IsPlain := by
    obtain ⟨r, read, heap⟩ := Tree.exists_of_ofDatum innFile_loaded
    have tables : innFile.HasTables := by
      rintro es ⟨⟩
      exact ⟨.inr ⟨_, rfl⟩, .inl rfl⟩
    exact heap ▸ (Reading.tree_plain innFile_isPlain tables read).scalars
  have ended : (lead (atTheInn store).session ["state", "x", "2", "1"]).2.toOption.map (·.phase) =
      some .terminal := by
    have made_ended : (Store.make #[] [] (.map inn.initial) []).map (fun store =>
        (lead (atTheInn store).session ["state", "x", "2", "1"]).2.toOption.map (·.phase)) =
          .ok (some .terminal) := by decide +kernel
    rw [made] at made_ended
    exact Except.ok.inj made_ended
  obtain ⟨p', ⟨r, played, led⟩ | ⟨chain, budget, -, led⟩⟩ :=
    play_ends innFile_isPlain.json innFile_loaded inn_isTalk (.inr ⟨_, rfl⟩) (by decide +kernel)
      (w := { store }) made (o := { columns := 7 }) (.inl le_rfl) fair (fun _ => written) 32
  · change lead (atTheInn store).session _ = _ at led
    rw [led] at ended
    exact ⟨store, made, p', r, played, led, Option.some.inj ended⟩
  · change lead (atTheInn store).session _ = _ at led
    rw [led] at ended
    cases ended

/-- In six columns there is no room for what nobody says, and the talk stops at once. -/
theorem play_fails_inn : innFile.IsJson ∧ Tree.ofDatum #[] innFile = .ok (inn, #[]) ∧
    inn.IsTalk ∧ (Datum.map inn.initial).isShowable = true ∧
    ∃ store, Store.make #[] [] (.map inn.initial) [] = .ok store ∧
      ∃ p', play { columns := 6 } [] (atTheInn store) = .error .wrongValue p' := by
  obtain ⟨store, made⟩ := Session.ok_of_isOk
    (o := Store.make #[] [] (.map inn.initial) []) (by decide +kernel)
  refine ⟨innFile_isPlain.json, innFile_loaded, inn_isTalk, by decide +kernel, store, made, ?_⟩
  have stops : (Store.make #[] [] (.map inn.initial) []).map (fun store =>
      match play { columns := 6 } [] (atTheInn store) with
      | .error .wrongValue _ => true
      | _ => false) = .ok true := by decide +kernel
  rw [made] at stops
  have stopped := Except.ok.inj stops
  dsimp only at stopped
  split at stopped
  · rename_i p' played
    exact ⟨p', played⟩
  · cases stopped

end Player

end Colloquy
