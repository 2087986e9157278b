import Colloquy.Proofs.Worded

/-!
# Two ways to give an effect

An effect is given in words or as an object that says what kind of entry it is about, which one and
what is done to it. In words, the kind and what is done are one word, and no such word begins
another one, so whatever the name of the entry is, dots, blanks inside and words for effects
included, the text is cut after the word that it begins with (`Effect.ofText_verb`). A name and a
value are cut at the one sign of equality between them (`Effect.ofText_set`). The object comes to
the same effect, which does the same in every world (`Effect.forms_agree`).
-/

namespace Colloquy

namespace Text

/-- Blanks around a trimmed text are all that trimming it takes away. -/
theorem strip_blanks {w cs w' : List Char} (h : ∀ c ∈ w, isBlank c) (h' : ∀ c ∈ w', isBlank c)
    (hs : strip cs = cs) : strip (w ++ cs ++ w') = cs :=
  (trim_append h h' cs).trans hs

/-- Blanks before a text do not count. -/
theorem strip_blanks_append {w : List Char} (h : ∀ c ∈ w, isBlank c) (cs : List Char) :
    strip (w ++ cs) = strip cs := by
  have around := trim_append h (List.forall_mem_nil _) cs
  rwa [List.append_nil] at around

/-- What comes after a character that is not blank is trimmed at its end only. -/
theorem strip_append_cons {a b : List Char} {d : Char} (ha : ∃ c r, a = c :: r ∧ ¬ isBlank c)
    (hd : ¬ isBlank d) : strip (a ++ d :: b) = a ++ d :: dropEnd isBlank b := by
  obtain ⟨c, r, rfl, hc⟩ := ha
  have ends : dropEnd isBlank (d :: b) = d :: dropEnd isBlank b := dropEnd_cons_of_not hd
  rw [strip, trim, List.cons_append, List.dropWhile_cons_of_neg hc, ← List.cons_append,
    dropEnd_append_of_ne_nil (by rw [ends]; exact List.cons_ne_nil _ _), ends]

end Text

/-- What there are words for to do to a flag or a quest. -/
inductive Verb where
  | set
  | unset
  | toggle
  | start
  | complete
  | fail
deriving DecidableEq, Repr, Inhabited

namespace Verb

/-- The word that the effect begins with. -/
def lead : Verb → String
  | .set => "set_flag."
  | .unset => "unset_flag."
  | .toggle => "toggle_flag."
  | .start => "start_quest."
  | .complete => "complete_quest."
  | .fail => "fail_quest."

/-- What it is done to. -/
def space : Verb → Space
  | .set | .unset | .toggle => .flag
  | .start | .complete | .fail => .quest

/-- What an object calls it. -/
def action : Verb → String
  | .set => "set"
  | .unset => "unset"
  | .toggle => "toggle"
  | .start => "start"
  | .complete => "complete"
  | .fail => "fail"

def effect : Verb → String → Effect
  | .set, key => .setFlag key true
  | .unset, key => .setFlag key false
  | .toggle, key => .toggleFlag key
  | .start, key => .moveQuest key .start
  | .complete, key => .moveQuest key .complete
  | .fail, key => .moveQuest key .fail

theorem mem_leads (v : Verb) : (v.lead, v.space.name, v.effect) ∈ Effect.leads := by
  cases v
  case set => exact .head _
  case unset => exact .tail _ (.head _)
  case toggle => exact .tail _ (.tail _ (.head _))
  case start => exact .tail _ (.tail _ (.tail _ (.head _)))
  case complete => exact .tail _ (.tail _ (.tail _ (.tail _ (.head _))))
  case fail => exact .tail _ (.tail _ (.tail _ (.tail _ (.tail _ (.head _)))))

end Verb

namespace Effect

/-- An object that tells what is done to an entry of a given kind and name. -/
def told (space : Space) (key action : String) (more : List (String × Datum)) : Datum :=
  .object (("type", .text space.name) :: ("key", .text key) :: ("action", .text action) :: more)

/-! ## Words -/

/-- An effect on a flag or a quest in words, with blanks around them and after the first one. -/
theorem ofText_verb (v : Verb) {key : String} (hk : key ≠ "")
    (trimmed : Text.strip key.toList = key.toList) {w₁ w₂ w₃ : List Char}
    (h₁ : ∀ c ∈ w₁, Text.isBlank c) (h₂ : ∀ c ∈ w₂, Text.isBlank c)
    (h₃ : ∀ c ∈ w₃, Text.isBlank c) :
    ofText (String.ofList (w₁ ++ v.lead.toList ++ w₂ ++ key.toList ++ w₃)) = v.effect key := by
  have name : Text.strip (w₂ ++ key.toList ++ w₃) = key.toList := Text.strip_blanks h₂ h₃ trimmed
  have inked : Text.strip (w₂ ++ key.toList ++ w₃) ≠ [] := by
    rw [name]
    exact fun h => hk (String.toList_eq_nil_iff.1 h)
  have outer := Text.strip_blanks_append h₁ (v.lead.toList ++ (w₂ ++ key.toList ++ w₃))
  rw [Text.strip_append (leads_begin v.mem_leads) inked] at outer
  refine (ofText_trimmed v.mem_leads ?_ inked).trans ?_
  · rw [String.toList_ofList, ← outer]
    simp only [List.append_assoc]
  · rw [name, String.ofList_toList]

/-- An assignment in words. The value may be empty. -/
theorem ofText_set {key value : String} (hk : key ≠ "")
    (trimmed : Text.strip key.toList = key.toList) (hke : '=' ∉ key.toList)
    (hve : '=' ∉ value.toList) (hv : Text.strip value.toList = value.toList)
    (context : ¬ Space.context.lead.toList <+: value.toList)
    (flag : ¬ Space.flag.lead.toList <+: value.toList) :
    ofText ("context." ++ key ++ "=" ++ value) =
      .write key .set (.value (.scalar (Operand.numberOrText value.toList))) := by
  have inked : Text.strip key.toList ≠ [] := by
    rw [trimmed]
    exact fun h => hk (String.toList_eq_nil_iff.1 h)
  have text : ("context." ++ key ++ "=" ++ value).toList =
      (Space.context.lead.toList ++ key.toList) ++ '=' :: value.toList := by
    simp only [String.toList_append, List.append_assoc]
    rfl
  have begins : ∃ c r, Space.context.lead.toList ++ key.toList = c :: r ∧ ¬ Text.isBlank c :=
    ⟨'c', _, rfl, by decide⟩
  have whole : Text.strip ("context." ++ key ++ "=" ++ value).toList =
      Space.context.lead.toList ++
        (key.toList ++ '=' :: Text.dropEnd Text.isBlank value.toList) := by
    rw [text, Text.strip_append_cons begins (by decide), List.append_assoc]
  rw [ofText_assigned whole hke inked hve, hv, trimmed, String.ofList_toList,
    Source.ofChars_value context flag]

/-! ## Objects -/

section objects
variable [Text.Halves]

theorem ofDatum_verb (h : Heap) (v : Verb) {key : String} (hk : key ≠ "") :
    ofDatum h (told v.space key v.action []) = (h, v.effect key) := by
  cases v <;> exact if_neg hk

theorem ofDatum_set (h : Heap) {key : String} (hk : key ≠ "") (x : Scalar) :
    ofDatum h (told .context key "set" [("value", .scalar x)]) =
      (h, .write key .set (.value (.scalar x))) :=
  if_neg hk

/-- Words and an object that are both read as an effect, and do the same in every world. -/
structure Given (words object : Datum) (e : Effect) : Prop where
  read_words : ∀ h, ofDatum h words = (h, e)
  read_object : ∀ h, ofDatum h object = (h, e)
  same : ∀ w : World, w.apply words = w.apply object

theorem Given.of_ofDatum {words object : Datum} {e : Effect} (hw : ∀ h, ofDatum h words = (h, e))
    (ho : ∀ h, ofDatum h object = (h, e)) : Given words object e :=
  ⟨hw, ho, fun w => by rw [World.apply, World.apply, hw, ho]⟩

/-- What is done to a flag or a quest, and what a context value is set to, is the same effect in
words and as an object, for every name without blanks around it. -/
theorem forms_agree {key : String} (hk : key ≠ "") (trimmed : Text.strip key.toList = key.toList) :
    (∀ (v : Verb) (w₁ w₂ w₃ : List Char), (∀ c ∈ w₁, Text.isBlank c) → (∀ c ∈ w₂, Text.isBlank c) →
      (∀ c ∈ w₃, Text.isBlank c) →
      Given (.text (String.ofList (w₁ ++ v.lead.toList ++ w₂ ++ key.toList ++ w₃)))
        (told v.space key v.action []) (v.effect key)) ∧
    ∀ value : String, '=' ∉ key.toList → '=' ∉ value.toList →
      Text.strip value.toList = value.toList → ¬ "context.".toList <+: value.toList →
      ¬ "flag.".toList <+: value.toList →
      Given (.text ("context." ++ key ++ "=" ++ value))
        (told .context key "set" [("value", .scalar (Operand.numberOrText value.toList))])
        (.write key .set (.value (.scalar (Operand.numberOrText value.toList)))) := by
  constructor
  · intro v w₁ w₂ w₃ h₁ h₂ h₃
    refine .of_ofDatum (fun h => ?_) fun h => ofDatum_verb h v hk
    exact congrArg (h, ·) (ofText_verb v hk trimmed h₁ h₂ h₃)
  · intro value hke hve hv context flag
    refine .of_ofDatum (fun h => ?_) fun h => ofDatum_set h hk _
    exact congrArg (h, ·) (ofText_set hk trimmed hke hve hv context flag)

end objects

section run

attribute [local instance] Text.noHalves

/-- A name that begins with a word for another effect, and has a sign and a blank in it. -/
theorem forms_agree_gate :
    Given (.text " unset_flag.\tset_flag.gate < 1 ")
      (told .flag "set_flag.gate < 1" "unset" []) (.setFlag "set_flag.gate < 1" false) ∧
    Given (.text "context.set_flag.gate < 1=1_0e1")
      (told .context "set_flag.gate < 1" "set" [("value", .scalar (Operand.numberOrText
        "1_0e1".toList))])
      (.write "set_flag.gate < 1" .set (.value (.scalar (Operand.numberOrText "1_0e1".toList)))) ∧
    (Operand.numberOrText "1_0e1".toList).same (.int 100) = true := by
  obtain ⟨verbs, sets⟩ := @forms_agree _ "set_flag.gate < 1" (by decide)
    (by decide +kernel)
  refine ⟨?_, ?_, by decide +kernel⟩
  · exact verbs .unset [' '] ['\t'] [' '] (List.forall_mem_singleton.mpr rfl)
      (List.forall_mem_singleton.mpr rfl) (List.forall_mem_singleton.mpr rfl)
  · exact sets "1_0e1" (by decide) (by decide) (by decide +kernel) (by decide) (by decide)

end run

end Effect

end Colloquy
