import Colloquy.Player
import Colloquy.Proofs.Phases
import Mathlib.Data.List.Basic

/-!
# What the player does to a session

Whatever is typed, the player makes the calls that the lines ask for and no others (`Player.wish`,
`follow`, `lead`). What it says does not touch the session (`Speaks`), and every act on a line comes
to what its wish does to the session, with one prompt at most (`Drives`, `hear_drives`). A number
that is not on the list is refused by the session as well, which it leaves as it is. So playing is
leading the session by the lines, prompt by prompt (`play_follows`). Lines count in small letters,
and their numbers do not (`Number.Numeral.int?_toLower`).
-/

namespace Colloquy

/-! ## Small letters -/

namespace Text

/-- A class that does not tell characters from their images is trimmed before or after. -/
theorem trim_map {p : Char → Bool} {f : Char → Char} (h : ∀ c, p (f c) = p c) (cs : List Char) :
    trim p (cs.map f) = (trim p cs).map f := by
  have hd : ∀ cs : List Char, dropEnd p (cs.map f) = (dropEnd p cs).map f := by
    intro cs
    induction cs with
    | nil => rfl
    | cons c r ih =>
      rw [List.map_cons, dropEnd, dropEnd, ih, h]
      rcases dropEnd p r with _ | ⟨d, kept⟩
      · simp only [List.map_nil]
        split <;> rfl
      · rfl
  have hp : p ∘ f = p := funext h
  rw [trim, List.dropWhile_map, hp, hd, trim]

def bigLetters : List Char := "ABCDEFGHIJKLMNOPQRSTUVWXYZ".toList

theorem mem_bigLetters {c : Char} (h : 65 ≤ c.toNat ∧ c.toNat ≤ 90) : c ∈ bigLetters := by
  have all : ∀ k < 26, Char.ofNat (65 + k) ∈ bigLetters := by decide
  have hc := all (c.toNat - 65) (by omega)
  rwa [Nat.add_sub_cancel' h.1, Char.ofNat_toNat] at hc

/-- What does not tell the big letters from the small ones tells no character from its small
form. -/
theorem toLower_eq {α : Type} (f : Char → α)
    (h : bigLetters.map (fun c => f c.toLower) = bigLetters.map f) (c : Char) :
    f c.toLower = f c := by
  by_cases hc : 65 ≤ c.toNat ∧ c.toNat ≤ 90
  · exact List.map_inj_left.1 h c (mem_bigLetters hc)
  · have hc' : c.toLower = c := dif_neg hc
    rw [hc']

theorem eq_of_toLower_eq {d : Char}
    (h : bigLetters.map (fun c => c.toLower == d) = bigLetters.map (· == d))
    (c : Char) (hc : c.toLower = d) : c = d :=
  eq_of_beq ((toLower_eq (· == d) h c).symm.trans (beq_iff_eq.2 hc))

end Text

namespace Number.Numeral
open Text

theorem plain_toLower (cs : List Char) :
    plain (cs.map Char.toLower) = (plain cs).map Char.toLower := by
  rw [plain, plain, trim_map (toLower_eq isNumeralBlank (by decide +kernel)), List.map_map,
    List.map_map]
  refine List.map_congr_left fun c _ => ?_
  have hv := toLower_eq Digit.value? (by decide +kernel) c
  simp only [Function.comp_apply, hv]
  rcases hd : Digit.value? c with _ | d
  · rfl
  · have small : ∀ d < 10, (Digit.ofNat d).toLower = Digit.ofNat d := by decide
    exact (small d (Digit.value?_lt hd)).symm

theorem ascii?_toLower (c : Char) : Digit.ascii? c.toLower = Digit.ascii? c :=
  toLower_eq Digit.ascii? (by decide +kernel) c

theorem moreDigits_toLower (cs : List Char) : moreDigits (cs.map Char.toLower) =
    ((moreDigits cs).1, (moreDigits cs).2.map Char.toLower) := by
  have under : '_'.toLower = '_' := by decide
  have other : ∀ {c : Char} {r : List Char}, (∀ d s, c = '_' → r = d :: s → False) →
      ∀ d s, c.toLower = '_' → r.map Char.toLower = d :: s → False := by
    intro c r ne d s hc hr
    obtain ⟨e, t, rfl, -⟩ := List.map_eq_cons_iff.1 hr
    exact ne e t (eq_of_toLower_eq (by decide +kernel) c hc) rfl
  fun_induction moreDigits cs with
  | case1 => rfl
  | case2 c r d hd ds rest he ih =>
    rw [List.map_cons, List.map_cons, under, moreDigits, ascii?_toLower, hd, ih, he]
  | case3 c r hd =>
    rw [List.map_cons, List.map_cons, under, moreDigits, ascii?_toLower, hd]
  | case4 c r ne d hd ds rest he ih =>
    rw [List.map_cons, moreDigits.eq_3 _ _ (other ne), ascii?_toLower, hd, ih, he]
  | case5 c r ne hd =>
    rw [List.map_cons, moreDigits.eq_3 _ _ (other ne), ascii?_toLower, hd]

theorem sign_toLower (cs : List Char) :
    sign (cs.map Char.toLower) = ((sign cs).1, (sign cs).2.map Char.toLower) := by
  have minus := eq_of_toLower_eq (d := '-') (by decide +kernel)
  have plus := eq_of_toLower_eq (d := '+') (by decide +kernel)
  fun_cases sign cs with
  | case1 => rfl
  | case2 => rfl
  | case3 _ noMinus noPlus =>
    refine sign.eq_3 _ (fun r hr => ?_) (fun r hr => ?_)
    · obtain ⟨c, s, rfl, hc, -⟩ := List.map_eq_cons_iff.1 hr
      exact noMinus s (minus c hc ▸ rfl)
    · obtain ⟨c, s, rfl, hc, -⟩ := List.map_eq_cons_iff.1 hr
      exact noPlus s (plus c hc ▸ rfl)

/-- An integer is read the same in small letters. -/
theorem int?_toLower (cs : List Char) : int? (cs.map Char.toLower) = int? cs := by
  rw [int?, int?, plain_toLower, sign_toLower]
  rcases sign (plain cs) with ⟨negative, _ | ⟨c, r⟩⟩
  · rfl
  · simp only [digits?, List.map_cons, ascii?_toLower, moreDigits_toLower]
    rcases Digit.ascii? c with _ | d
    · rfl
    · rcases (moreDigits r).2 with _ | ⟨e, s⟩
      · rfl
      · rfl

end Number.Numeral

section player
variable [Text.Halves]

namespace Session

/-! ## Choosing by index -/

omit [Text.Halves] in
/-- A session that is not over waits with what its last result shows. -/
theorem Leaves.offers {s : Session} {r : StepResult} (leaves : s.Leaves r)
    (waits : r.isTerminal = false) : s.phase = .presenting ∧ s.offered.map (·.1) = r.choices := by
  cases leaves with
  | ended _ told =>
    rw [StepResult.isTerminal, told] at waits
    cases waits
  | waiting phase told waits =>
    refine ⟨phase, ?_⟩
    rw [waits.offered, StepResult.choices, waits.shown]

omit [Text.Halves] in
theorem Leaves.length_offered {s : Session} {r : StepResult} (leaves : s.Leaves r)
    (waits : r.isTerminal = false) : s.offered.length = r.choices.length := by
  rw [← (leaves.offers waits).2, List.length_map]

theorem choose_offered {s : Session} {index : ℕ} {c : Choice × ℕ} (phase : s.phase = .presenting)
    (h : s.offered[index]? = some c) : s.choose (.int index) = s.guarded (s.take index c) := by
  have some_offered : s.offered ≠ [] := by
    intro he
    rw [he] at h
    cases h
  rw [choose, if_neg (by simp [phase, some_offered]), offeredAt?_eq h]

/-- An index that nothing on offer has is refused, and the session stays as it is. -/
theorem choose_beyond {s : Session} {index : ℤ} (h : ¬ (0 ≤ index ∧ index < s.offered.length)) :
    ∃ n, s.choose (.int index) = (s, .error (s.badIndex (.int index) n)) := by
  have unfound : s.offeredAt? (.int index) = none := by
    rcases index with i | i
    · have hi : s.offered[i]? = none := by
        rw [List.getElem?_eq_none_iff]
        rw [Int.ofNat_eq_natCast] at h
        omega
      change (s.offered[i]?).map _ = none
      rw [hi]
      rfl
    · rfl
  unfold choose
  split
  · exact ⟨0, rfl⟩
  · rw [unfound]
    exact ⟨_, rfl⟩

/-- The faults of a choice on offer do not say that it is none. -/
theorem choose_answers {s : Session} {index : ℕ} {c : Choice × ℕ} (phase : s.phase = .presenting)
    (h : s.offered[index]? = some c) (given : Datum) (available : ℕ) (node : Datum) :
    (s.choose (.int index)).2 ≠ .error (.invalidChoice given available node) := by
  intro he
  rw [choose_offered phase h] at he
  obtain ⟨⟨_, _, hb⟩, -⟩ := guarded_fails (fun _ => take_fails) he rfl
  cases hb

end Session

namespace Player

/-! ## Acts on a play -/

def isPrompt : Utterance → Bool
  | .say _ => false
  | .ask _ => true

/-- The prompts made so far. -/
def Play.prompts (p : Play) : ℕ := (p.said.filter isPrompt).length

variable {α β : Type} {p p' : Play} {n l : ℕ} {s : Session}

/-- How an act ends that is to leave a session with an outcome: with both, and some prompts more at
most, unless it fails for another reason than a chain that is too long. -/
inductive Drives (p : Play) (n : ℕ) :
    Session × Except Fault α → EStateM.Result Fault Play α → Prop
  | returns {s : Session} {a : α} {p' : Play} (session : p'.session = s)
      (prompts : p'.prompts ≤ p.prompts + n) : Drives p n (s, .ok a) (.ok a p')
  | stops {s : Session} {f : Fault} {p' : Play} (session : p'.session = s)
      (prompts : p'.prompts ≤ p.prompts + n) : Drives p n (s, .error f) (.error f p')
  | fails {o : Session × Except Fault α} {f : Fault} {p' : Play}
      (within : ∀ chain budget, f ≠ .budgetExceeded chain budget) : Drives p n o (.error f p')

omit [Text.Halves] in
theorem bind_ok {m : Act α} {k : α → Act β} {a : α} (h : m p = .ok a p') :
    (m >>= k) p = k a p' := by
  change EStateM.bind m k p = _
  rw [EStateM.bind, h]

omit [Text.Halves] in
theorem bind_error {m : Act α} {k : α → Act β} {f : Fault} (h : m p = .error f p') :
    (m >>= k) p = .error f p' := by
  change EStateM.bind m k p = _
  rw [EStateM.bind, h]

namespace Drives

omit [Text.Halves] in
theorem after {x : EStateM.Result Fault Play α} {o : Session × Except Fault α}
    (hp : p'.prompts ≤ p.prompts + n) (h : Drives p' l o x) : Drives p (n + l) o x := by
  cases h with
  | returns session prompts => exact .returns session (by omega)
  | stops session prompts => exact .stops session (by omega)
  | fails within => exact .fails within

omit [Text.Halves] in
theorem bind {m : Act α} {k : α → Act β} {a : α} {o : Session × Except Fault β}
    (h : Drives p n (s, .ok a) (m p)) (hk : ∀ p', p'.session = s → Drives p' l o (k a p')) :
    Drives p (n + l) o ((m >>= k) p) := by
  generalize hm : m p = x at h
  cases h with
  | returns session prompts =>
    rw [bind_ok hm]
    exact (hk _ session).after prompts
  | fails within =>
    rw [bind_error hm]
    exact .fails within

omit [Text.Halves] in
theorem stop {m : Act α} {k : α → Act β} {f : Fault} (h : Drives p n (s, .error f) (m p))
    (hl : n ≤ l) : Drives p l (s, .error f) ((m >>= k) p) := by
  generalize hm : m p = x at h
  cases h with
  | stops session prompts =>
    rw [bind_error hm]
    exact .stops session (by omega)
  | fails within =>
    rw [bind_error hm]
    exact .fails within

omit [Text.Halves] in
theorem discard {m : Act α} {a : α} (h : Drives p n (s, .ok a) (m p)) :
    Drives p n (s, .ok ()) (discard m p) := by
  change Drives p n _ (EStateM.map _ m p)
  rw [EStateM.map]
  generalize m p = x at h
  cases h with
  | returns session prompts => exact .returns session prompts
  | fails within => exact .fails within

end Drives

/-- An act that leaves the session as it is and does not prompt. -/
def Speaks (m : Act Unit) : Prop := ∀ p, Drives p 0 (p.session, .ok ()) (m p)

namespace Speaks

omit [Text.Halves] in
theorem bind {m : Act Unit} {k : Unit → Act α} {o : Session × Except Fault α} (h : Speaks m)
    (hk : ∀ p', p'.session = p.session → Drives p' n o (k () p')) :
    Drives p n o ((m >>= k) p) := by
  have hb := (h p).bind (k := k) hk
  rwa [Nat.zero_add] at hb

omit [Text.Halves] in
theorem seq {m : Act Unit} {k : Unit → Act Unit} (h : Speaks m) (hk : Speaks (k ())) :
    Speaks (m >>= k) := fun _ => h.bind fun p' hp => hp ▸ hk p'

omit [Text.Halves] in
theorem nothing : Speaks (pure ()) := fun _ => .returns rfl le_rfl

omit [Text.Halves] in
theorem throw {f : Fault} (hf : f.isDialogue = false) : Speaks (throw f) :=
  fun _ => .fails (Fault.ne_budgetExceeded hf)

omit [Text.Halves] in
theorem forM {f : α → Act Unit} : ∀ {as : List α}, (∀ a ∈ as, Speaks (f a)) → Speaks (as.forM f)
  | [], _ => nothing
  | a :: as, h => by
    rw [List.forall_mem_cons] at h
    exact h.1.seq (forM h.2)

end Speaks

/-! ## What is said -/

theorem say_speaks (text : String) : Speaks (say text) := by
  intro p
  unfold say
  rw [bind_ok (show (get : Act Play) p = .ok p p from rfl)]
  split
  · exact .fails nofun
  · exact .returns rfl le_rfl

theorem sayAll_speaks (lines : List String) : Speaks (sayAll lines) :=
  .forM fun line _ => say_speaks line

theorem sayOrFail_speaks {outcome : Except Fault String}
    (h : ∀ f, outcome = .error f → f.isDialogue = false) : Speaks (sayOrFail outcome) := by
  rcases outcome with f | text
  · exact .throw (h f rfl)
  · exact say_speaks text

theorem sayEntries_speaks {t : Table α} {datum : α → Datum} : Speaks (sayEntries t datum) := by
  unfold sayEntries
  split
  · exact say_speaks _
  · split
    · refine .forM fun (k, a) _ => sayOrFail_speaks fun f hf => ?_
      unfold entryLine at hf
      split_ifs at hf <;> cases hf <;> rfl
    · rename_i f hf
      refine .throw ?_
      unfold Table.sorted at hf
      split at hf
      · cases hf
      · cases hf
      · split_ifs at hf
        cases hf
        rfl

theorem sayState_speaks : Speaks sayState := by
  intro p
  unfold sayState
  rw [bind_ok (show (get : Act Play) p = .ok p p from rfl)]
  refine (show Speaks _ from ?_) p
  exact .seq (sayAll_speaks _) <| .seq (say_speaks _) <| .seq sayEntries_speaks <|
    .seq (say_speaks _) <| .seq sayEntries_speaks <| .seq (say_speaks _) <|
    .seq sayEntries_speaks <| .seq (say_speaks _) <| .seq (say_speaks _) (say_speaks _)

omit [Text.Halves] in
theorem renderUnder_fault {nameLength : ℕ} {text name color : String} {limit : Number}
    {columns : ℤ} {f : Fault}
    (h : Box.renderUnder nameLength text name color limit columns = .error f) :
    f.isDialogue = false := by
  unfold Box.renderUnder at h
  split at h
  · cases h
  · split at h
    · cases h
    · dsimp only at h
      split_ifs at h
      cases h
      rfl

theorem boxed_fault {o : Settings} {text speaker : Datum} {color : Ink} {f : Fault}
    (h : boxed o text speaker color = .error f) : f.isDialogue = false := by
  unfold boxed framed at h
  split at h
  · exact renderUnder_fault h
  · cases h
    rfl
  · cases h
    rfl

omit [Text.Halves] in
theorem prose_fault {o : Settings} {text : Datum} {f : Fault} (h : prose o text = .error f) :
    f.isDialogue = false := by
  unfold prose at h
  split at h
  · split_ifs at h
    cases h
    rfl
  · cases h
    rfl

theorem choiceLine_fault {number : ℕ} {c : Choice} {f : Fault}
    (h : choiceLine number c = .error f) : f.isDialogue = false := by
  unfold choiceLine Choice.requirementText at h
  split_ifs at h
  · cases h
  · split at h <;> cases h
    rfl

theorem sayPresentation_speaks (o : Settings) (shown : Presentation) :
    Speaks (sayPresentation o shown) := by
  have text : Speaks (if shown.text.isTrue then
      sayOrFail (if shown.speaker.isTrue then boxed o shown.text shown.speaker .brightCyan
        else prose o shown.text) else pure ()) := by
    split
    · refine sayOrFail_speaks fun f hf => ?_
      split at hf
      · exact boxed_fault hf
      · exact prose_fault hf
    · exact .nothing
  unfold sayPresentation
  dsimp only
  split
  · exact .seq (say_speaks _) text
  · exact text

theorem sayStep_speaks (o : Settings) (r : StepResult) : Speaks (sayStep o r) := by
  refine .seq (.forM fun shown _ => sayPresentation_speaks o shown) ?_
  split
  · exact sayPresentation_speaks o _
  · exact .nothing

theorem sayChoices_speaks (choices : List Choice) : Speaks (sayChoices choices) := by
  unfold sayChoices
  split
  · exact say_speaks _
  · exact .seq (say_speaks _) (.forM fun _ _ => sayOrFail_speaks fun _ => choiceLine_fault)

/-! ## What is done -/

omit [Text.Halves] in
theorem await_drives (shown : StepResult) (p : Play) :
    Drives p 1 (p.session, .ok (.waiting shown)) (await shown p) :=
  .returns rfl (by
    have he : isPrompt (.ask ("\n" ++ Ink.paint [.brightMagenta] ">" ++ " ")) = true := rfl
    simp [Play.prompts, List.filter_cons_of_pos, he])

/-- What comes after a result: nothing, if the conversation is over. -/
def turnAfter (r : StepResult) : Turn := if r.isTerminal then .over r else .waiting r

theorem arrive_drives (o : Settings) (r : StepResult) (p : Play) :
    Drives p 1 (p.session, .ok (turnAfter r)) (arrive o r p) := by
  unfold arrive turnAfter
  refine (sayStep_speaks o r).bind fun p₁ h₁ => ?_
  split
  · refine (sayAll_speaks closing).bind fun p₂ h₂ => ?_
    refine sayState_speaks.bind fun p₃ h₃ => ?_
    exact .returns (h₃.trans (h₂.trans h₁)) (by omega)
  · refine (sayChoices_speaks r.choices).bind fun p₂ h₂ => ?_
    rw [← h₁, ← h₂]
    exact await_drives r p₂

theorem resultOf_stops (f : Fault) (p : Play) :
    Drives p n (p.session, .error f) (resultOf (.error f) p) := by
  cases f with
  | budgetExceeded chain budget =>
    exact (say_speaks _).bind (k := fun _ => throw (.budgetExceeded chain budget))
      fun p' hp => .stops hp (Nat.le_add_right _ _)
  | _ => exact .stops rfl (Nat.le_add_right _ _)

theorem resultOf_drives {x : Except Fault StepResult} {k : StepResult → Act Turn} {p : Play}
    (hk : ∀ r p', x = .ok r → p'.session = p.session →
      Drives p' n (p.session, .ok (turnAfter r)) (k r p')) :
    Drives p n (p.session, x.map turnAfter) ((resultOf x >>= k) p) := by
  rcases x with f | r
  · exact .stop (resultOf_stops f p) le_rfl
  · exact hk r p rfl rfl

theorem call_drives {c : Session.Call} {k : Except Fault StepResult → Act Turn} {p : Play}
    {o : Session × Except Fault Turn} (hk : ∀ p', p'.session = (p.session.step c).1 →
      Drives p' n o (k (p.session.step c).2 p')) :
    Drives p n o ((call c >>= k) p) := by
  have hc : call c p = .ok (p.session.step c).2 { p with session := (p.session.step c).1 } := rfl
  have same : Play.prompts { p with session := (p.session.step c).1 } ≤ p.prompts + 0 := le_rfl
  have h := Drives.after same (hk _ rfl)
  rw [bind_ok hc]
  rwa [Nat.zero_add] at h

theorem call_arrives (o : Settings) (c : Session.Call) (p : Play) :
    Drives p 1 ((p.session.step c).1, (p.session.step c).2.map turnAfter)
      ((call c >>= fun outcome => resultOf outcome >>= arrive o) p) := by
  refine call_drives fun p' hp => ?_
  rw [← hp]
  exact resultOf_drives fun r p'' _ hs => hs ▸ arrive_drives o r p''

/-! ## What a line asks for -/

/-- What a line of input asks for. -/
inductive Wish where
  | leave
  | nothing
  | call (c : Session.Call)

/-- A number asks for the choice that it is the number of, if there are as many. -/
def Wish.number (count : ℕ) (n : ℤ) : Wish :=
  if 1 ≤ n ∧ n ≤ count then .call (.choose (.int (n - 1))) else .nothing

/-- What a line asks for while a result is shown. -/
def wish (shown : StepResult) (line : String) : Wish :=
  let word := Text.strip line.toList
  if String.ofList (word.map Char.toLower) ∈ ["quit", "exit", "q"] then .leave
  else if word.map Char.toLower = "state".toList then .nothing
  else if shown.choices = [] then .call .advance
  else
    match Number.Numeral.int? word with
    | some n => .number shown.choices.length n
    | none => .nothing

/-- What the calls come to that lines ask for one after the other, from a result on and until the
conversation is over. -/
def follow : Session → StepResult → List String → Session × Except Fault StepResult
  | s, r, [] => (s, .ok r)
  | s, r, line :: lines =>
    if r.isTerminal then (s, .ok r)
    else
      match wish r line with
      | .leave => (s, .ok r)
      | .nothing => follow s r lines
      | .call c =>
        match s.step c with
        | (s, .ok r) => follow s r lines
        | (s, .error f) => (s, .error f)

/-- What it comes to if a session is started and then the lines are followed. -/
def lead (s : Session) (lines : List String) : Session × Except Fault StepResult :=
  match s.step .start with
  | (s, .ok r) => follow s r lines
  | (s, .error f) => (s, .error f)

/-- What a wish comes to while a result is shown. -/
def wished (s : Session) (r : StepResult) : Wish → Session × Except Fault Turn
  | .leave => (s, .ok (.over r))
  | .nothing => (s, .ok (.waiting r))
  | .call c => ((s.step c).1, (s.step c).2.map turnAfter)

/-! ## The player and the calls -/

theorem leave_drives (r : StepResult) (p : Play) :
    Drives p 0 (p.session, .ok (.over r)) (leave r p) :=
  (say_speaks _).bind fun _ hp => .returns hp (Nat.le_add_right _ _)

theorem refuse_drives (r : StepResult) (why : String) (p : Play) :
    Drives p 1 (p.session, .ok (.waiting r)) (refuse r why p) :=
  (say_speaks _).bind fun p' hp => hp ▸ await_drives r p'

/-- A number on the list takes the choice that it is the number of. -/
theorem takeNumber_listed (o : Settings) {r : StepResult} {p : Play} (leaves : p.session.Leaves r)
    (waits : r.isTerminal = false) {n : ℤ} (listed : 1 ≤ n ∧ n ≤ r.choices.length) :
    Drives p 1 (wished p.session r (.call (.choose (.int (n - 1))))) (takeNumber o r n p) := by
  have size := leaves.length_offered waits
  obtain ⟨i, hi⟩ : ∃ i : ℕ, n - 1 = i := Int.eq_ofNat_of_zero_le (by omega)
  have answers := Session.choose_answers (leaves.offers waits).1
    (List.getElem?_eq_getElem (show i < p.session.offered.length by omega))
  unfold takeNumber
  rw [hi]
  refine call_drives fun p' hp => ?_
  rw [wished, ← hp]
  change ∀ _ _ _, (p.session.step (.choose (.int i))).2 ≠ _ at answers
  generalize (p.session.step (.choose (.int i))).2 = outcome at answers ⊢
  rcases outcome with f | r'
  · cases f with
    | invalidChoice index available node => exact absurd rfl (answers index available node)
    | _ => exact .stop (resultOf_stops _ p') le_rfl
  · refine resultOf_drives (x := .ok r') fun r'' p'' _ hs => ?_
    rw [← hs]
    rcases r.choices[(i : ℤ).toNat]? with _ | c
    · exact arrive_drives o r'' p''
    · dsimp only
      split
      · refine (sayOrFail_speaks fun f => boxed_fault).bind fun p₃ h₃ => ?_
        exact h₃ ▸ arrive_drives o r'' p₃
      · exact arrive_drives o r'' p''

/-- Any other number is refused, by the session too. -/
theorem takeNumber_unlisted (o : Settings) {r : StepResult} {p : Play} (leaves : p.session.Leaves r)
    (waits : r.isTerminal = false) {n : ℤ} (unlisted : ¬ (1 ≤ n ∧ n ≤ r.choices.length)) :
    Drives p 1 (p.session, .ok (.waiting r)) (takeNumber o r n p) := by
  have size := leaves.length_offered waits
  have beyond : ¬ (0 ≤ n - 1 ∧ n - 1 < p.session.offered.length) := by omega
  obtain ⟨m, hc⟩ := Session.choose_beyond beyond
  have hs : p.session.step (.choose (.int (n - 1))) = _ := hc
  unfold takeNumber
  refine call_drives fun p' hp => ?_
  rw [hs] at hp ⊢
  unfold Session.badIndex
  split
  · rw [← show p'.session = p.session from hp]
    exact refuse_drives _ _ _
  · exact .fails nofun

theorem takeNumber_drives (o : Settings) {r : StepResult} {p : Play} (leaves : p.session.Leaves r)
    (waits : r.isTerminal = false) (n : ℤ) :
    Drives p 1 (wished p.session r (.number r.choices.length n)) (takeNumber o r n p) := by
  unfold Wish.number
  split
  · rename_i listed
    exact takeNumber_listed o leaves waits listed
  · rename_i unlisted
    exact takeNumber_unlisted o leaves waits unlisted

theorem hear_drives (o : Settings) {r : StepResult} {p : Play} (leaves : p.session.Leaves r)
    (waits : r.isTerminal = false) (line : String) :
    Drives p 1 (wished p.session r (wish r line)) (hear o r (some line) p) := by
  by_cases leaving : String.ofList (wordOf line) ∈ leavingWords
  · have hw : wish r line = .leave := if_pos leaving
    have hh : hear o r (some line) = leave r := if_pos leaving
    rw [hw, hh]
    exact (leave_drives r p).after (n := 1) (Nat.le_add_right _ _)
  by_cases state : wordOf line = "state".toList
  · have hw : wish r line = .nothing := (if_neg leaving).trans (if_pos state)
    have hh : hear o r (some line) = sayState >>= fun _ => await r :=
      (if_neg leaving).trans (if_pos state)
    rw [hw, hh]
    exact sayState_speaks.bind fun p' hp => hp ▸ await_drives r p'
  by_cases bare : r.choices = []
  · have hw : wish r line = .call .advance :=
      (if_neg leaving).trans ((if_neg state).trans (if_pos bare))
    have hh : hear o r (some line) =
        call .advance >>= fun outcome => resultOf outcome >>= arrive o :=
      (if_neg leaving).trans ((if_neg state).trans (if_pos (List.isEmpty_iff.2 bare)))
    rw [hw, hh]
    exact call_arrives o .advance p
  have full : r.choices.isEmpty ≠ true := fun he => bare (List.isEmpty_iff.1 he)
  have word : Number.Numeral.int? (wordOf line) = Number.Numeral.int? (Text.strip line.toList) :=
    Number.Numeral.int?_toLower _
  have hw : wish r line = _ := (if_neg leaving).trans ((if_neg state).trans (if_neg bare))
  have hh : hear o r (some line) = _ := (if_neg leaving).trans ((if_neg state).trans (if_neg full))
  rw [hw, hh, word]
  rcases Number.Numeral.int? (Text.strip line.toList) with _ | n
  · exact refuse_drives r _ p
  · exact takeNumber_drives o leaves waits n

theorem goOn_drives (o : Settings) : ∀ (lines : List String) {r : StepResult} {p : Play},
    p.session.Leaves r → Drives p lines.length (follow p.session r lines)
      (goOn o (turnAfter r) lines p) := by
  intro lines
  induction lines with
  | nil =>
    intro r p _
    unfold turnAfter
    split
    · exact .returns rfl le_rfl
    · exact (leave_drives r p).discard.bind (l := 0) fun p' hp => .returns hp le_rfl
  | cons line lines ih =>
    intro r p leaves
    rw [List.length_cons, Nat.add_comm, turnAfter, follow]
    split
    · exact .returns rfl (Nat.le_add_right _ _)
    · rename_i waits
      have hd := hear_drives o leaves (Bool.eq_false_iff.2 waits) line
      change Drives p (1 + lines.length) _
        ((hear o r (some line) >>= fun turn => goOn o turn lines) p)
      generalize wish r line = w at hd ⊢
      cases w with
      | leave =>
        refine hd.bind fun p' hp => ?_
        cases lines <;> exact .returns hp (Nat.le_add_right _ _)
      | nothing =>
        refine hd.bind fun p' hp => ?_
        have hl := ih (hp ▸ leaves)
        rwa [turnAfter, if_neg waits, hp] at hl
      | call c =>
        dsimp only [wished] at hd ⊢
        have left := @Session.step_leaves _ p.session c
        generalize p.session.step c = out at hd left ⊢
        rcases out with ⟨s, f | r'⟩
        · exact hd.stop (Nat.le_add_right _ _)
        · refine hd.bind fun p' hp => ?_
          have hl := ih (p := p') (hp ▸ left rfl)
          rwa [hp] at hl

theorem play_drives (o : Settings) (input : List String) (p : Play) :
    Drives p (1 + input.length) (lead p.session input) (play o input p) := by
  have began : Drives p 1 ((p.session.step .start).1, (p.session.step .start).2.map turnAfter)
      (start o p) := by
    unfold start
    rw [bind_ok (show (get : Act Play) p = .ok p p from rfl)]
    refine (sayAll_speaks (opening p.session.tree)).bind fun p' hp => ?_
    rw [← hp]
    exact call_arrives o .start p'
  unfold lead
  change Drives p _ _ ((start o >>= fun turn => goOn o turn input) p)
  have left := @Session.step_leaves _ p.session .start
  generalize p.session.step .start = out at began left ⊢
  rcases out with ⟨s, f | r⟩
  · exact began.stop (Nat.le_add_right _ _)
  · refine began.bind fun p' hp => ?_
    have hg := goOn_drives o input (p := p') (hp ▸ left rfl)
    rwa [hp] at hg

/-- Whatever lines are typed, in a play that nothing but a chain that is too long can stop, the
player prompts at most once more than there are lines, and leaves the session and the outcome that
starting it and making the calls that the lines ask for does. -/
theorem play_follows {o : Settings} {input : List String} {p : Play}
    (only : ∀ f p', play o input p = .error f p' →
      ∃ chain budget, f = .budgetExceeded chain budget) :
    ∃ p', p'.prompts ≤ p.prompts + (input.length + 1) ∧
      ((∃ r, play o input p = .ok r p' ∧ lead p.session input = (p'.session, .ok r)) ∨
        ∃ f, play o input p = .error f p' ∧ lead p.session input = (p'.session, .error f)) := by
  have hd := play_drives o input p
  generalize lead p.session input = led at hd ⊢
  generalize play o input p = x at hd only ⊢
  cases hd with
  | @returns _ r p' session prompts => exact ⟨p', by omega, .inl ⟨r, rfl, by rw [session]⟩⟩
  | @stops _ f p' session prompts => exact ⟨p', by omega, .inr ⟨f, rfl, by rw [session]⟩⟩
  | fails within =>
    obtain ⟨chain, budget, he⟩ := only _ _ rfl
    exact absurd he (within chain budget)

end Player

end player

namespace Player

attribute [local instance] Text.noHalves

/-- A play that has not begun, at a fork of a road to an inn and one to a bog, which leads nowhere
but around. -/
def atTheFork : Play :=
  let bare : Node := { id := .text "fork", text := .null, speaker := .null, portrait := .null
                       choices := [], autoAdvance := .null, next := .null, voiceLine := .null
                       guards := [], deeds := [], tags := [], priority := .null }
  let way (goto : String) : Choice :=
    { text := .null, goto := .text goto, guards := [], priority := .null, deeds := []
      once := false, requirements := [] }
  let fork := { bare with choices := [way "bog", way "inn"] }
  let bog := { bare with id := .text "bog", autoAdvance := .bool true, next := .text "bog" }
  let inn := { bare with id := .text "inn", next := .text "yard" }
  { session := { tree := { id := .text "road", start := .text "fork", nodes := [fork, bog, inn] }
                 world := { store := .empty #[] } } }

/-- Neither the third choice of two nor a word is taken; the second is, in whatever script, and
then the inn is left. -/
theorem play_follows_atTheFork :
    let input := ["3", "state", "two", " ٢ ", ""]
    ∃ r p', play {} input atTheFork = .ok r p' ∧ p'.prompts ≤ 6 ∧
      lead atTheFork.session input = (p'.session, .ok r) ∧
      p'.session.history = [.text "fork", .text "inn"] ∧ r.phase = .terminal := by
  intro input
  have returns : (match play {} input atTheFork with
      | .ok .. => true
      | .error .. => false) = true := by decide +kernel
  have only : ∀ f p', play {} input atTheFork = .error f p' →
      ∃ chain budget, f = .budgetExceeded chain budget := fun f p' he => by
    rw [he] at returns
    cases returns
  obtain ⟨p', prompts, ⟨r, hp, hl⟩ | ⟨f, hp, -⟩⟩ := play_follows only
  · have history : (lead atTheFork.session input).1.history = [.text "fork", .text "inn"] := by
      decide +kernel
    have ended : (lead atTheFork.session input).2.toOption.map (·.phase) = some .terminal := by
      decide +kernel
    rw [hl] at history ended
    exact ⟨r, p', hp, prompts, hl, history, Option.some.inj ended⟩
  · rw [hp] at returns
    cases returns

end Player

end Colloquy
