import Colloquy.Proofs.PathLaws
import Colloquy.Proofs.Phrasings
import Colloquy.Script.Given

/-!
# Entries in words

Conditions and effects name an entry of the store in words of their own, each with its own trimming.
A reference and an effect on a flag or a quest take the name without the blanks around it, a
comparison leaves those in front of it (`Condition.ofText_lead`, `Effect.ofText_lead`,
`Condition.ofText_entry`). So all that can be said of a flag in words is about one flag just if the
name does not begin with a blank (`World.flag_named_iff`). Of a path the blanks do not count anyway.
What is assigned in words is read as what it is compared with, the two words for truth values
apart (`Value.compare_denoted`), so in a tree the comparison that repeats an assignment holds after
it (`World.assignment_read`).
-/

namespace Colloquy

/-! ## Texts of conditions and effects -/

/-- A comparison of an entry with a value. Blanks in front of the name of the entry stay in it, those
behind it and around the value do not count. -/
theorem Condition.ofText_entry (space : Space) (sign : Sign) {key value : String}
    (hk : Text.IsPart key.toList) (hv : Text.IsPart value.toList) :
    ofText (space.lead ++ key ++ sign.text ++ value) =
      .comparison (.entry space (String.ofList (Text.dropEnd Text.isBlank key.toList))) sign
        (.ofChars (Text.strip value.toList)) := by
  obtain ⟨w₂, h₂, hkey⟩ := Text.exists_dropEnd Text.isBlank key.toList
  obtain ⟨w₃, w₄, h₃, h₄, hvalue⟩ := Text.exists_trim Text.isBlank value.toList
  have text : space.lead ++ key ++ sign.text ++ value = String.ofList ([] ++
      (space.lead.toList ++ Text.dropEnd Text.isBlank key.toList) ++ w₂ ++ sign.text.toList ++ w₃ ++
        Text.strip value.toList ++ w₄) := by
    rw [← String.toList_inj, String.toList_ofList, String.toList_append, String.toList_append,
      String.toList_append]
    conv_lhs => rw [hkey, hvalue]
    simp only [List.nil_append, List.append_assoc, Text.strip]
  have left := Operand.ofChars_lead space
    (String.ofList (Text.dropEnd Text.isBlank key.toList))
  rw [String.toList_ofList] at left
  rw [text, ofText_sides (space.isSide_lead_append hk) hv.isSide sign (List.forall_mem_nil _) h₂ h₃
    h₄, left]

namespace Effect

theorem keyed_strip (source kind : String) (make : String → Effect) {cs : List Char}
    (h : Text.strip cs ≠ []) : keyed source kind make (Text.dropEnd Text.isBlank cs) =
      make (String.ofList (Text.strip cs)) := by
  rw [keyed, Text.strip, Text.trim_dropEnd, ← Text.strip]
  split
  · exact absurd ‹_› h
  · rfl

theorem leads_begin {lead kind : String} {make : String → Effect}
    (hl : (lead, kind, make) ∈ leads) : ∃ c r, lead.toList = c :: r ∧ ¬ Text.isBlank c := by
  simp only [leads, List.mem_cons, List.not_mem_nil, or_false, Prod.mk.injEq] at hl
  rcases hl with ⟨rfl, -⟩ | ⟨rfl, -⟩ | ⟨rfl, -⟩ | ⟨rfl, -⟩ | ⟨rfl, -⟩ | ⟨rfl, -⟩ <;>
    exact ⟨_, _, rfl, by decide⟩

/-- An effect on a flag or a quest, from a text that is the word for it and a name when the blanks
around the text are gone. -/
theorem ofText_trimmed {lead kind : String} {make : String → Effect}
    (hl : (lead, kind, make) ∈ leads) {source : String} {key : List Char}
    (whole : Text.strip source.toList = lead.toList ++ Text.dropEnd Text.isBlank key)
    (hk : Text.strip key ≠ []) : ofText source = make (String.ofList (Text.strip key)) := by
  rw [ofText, whole]
  simp only [leads, List.mem_cons, List.not_mem_nil, or_false, Prod.mk.injEq] at hl
  -- no word that an effect begins with is the beginning of another one
  rcases hl with ⟨rfl, rfl, rfl⟩ | ⟨rfl, rfl, rfl⟩ | ⟨rfl, rfl, rfl⟩ | ⟨rfl, rfl, rfl⟩ |
    ⟨rfl, rfl, rfl⟩ | ⟨rfl, rfl, rfl⟩ <;>
    exact keyed_strip _ _ _ hk

/-- An effect on a flag or a quest; blanks around the name do not count. -/
theorem ofText_lead {lead kind : String} {make : String → Effect}
    (hl : (lead, kind, make) ∈ leads) {key : String} (hk : Text.strip key.toList ≠ []) :
    ofText (lead ++ key) = make (String.ofList (Text.strip key.toList)) :=
  ofText_trimmed hl (by rw [String.toList_append, Text.strip_append (leads_begin hl) hk]) hk

/-- An assignment, from a text that is one when the blanks around it are gone. -/
theorem ofText_assigned {source : String} {path value : List Char}
    (whole : Text.strip source.toList =
      Space.context.lead.toList ++ (path ++ '=' :: Text.dropEnd Text.isBlank value))
    (hp : '=' ∉ path) (inked : Text.strip path ≠ []) (hv : '=' ∉ value) :
    ofText source =
      .write (String.ofList (Text.strip path)) .set (.ofChars (Text.strip value)) := by
  have kept : '=' ∉ Text.dropEnd Text.isBlank value := fun h =>
    hv ((Text.dropEnd_begins Text.isBlank value).subset h)
  have trimmed : Text.strip (Text.dropEnd Text.isBlank value) = Text.strip value :=
    Text.trim_dropEnd _ _
  have assigns : assignment source (path ++ '=' :: Text.dropEnd Text.isBlank value) =
      .write (String.ofList (Text.strip path)) .set (.ofChars (Text.strip value)) := by
    simp only [assignment, Text.splitAt_append hp, Text.splitAt_of_not_mem kept, trimmed]
  rw [ofText, whole]
  exact assigns

/-- An assignment; blanks around the path and around the value do not count. -/
theorem ofText_assignment {path value : String} (hp : Text.IsPart path.toList)
    (hv : Text.IsPart value.toList) : ofText (Space.context.lead ++ path ++ "=" ++ value) =
      .write (String.ofList (Text.strip path.toList)) .set
        (.ofChars (Text.strip value.toList)) := by
  have unsigned : ∀ {cs : List Char}, (∀ c ∈ cs, c ∉ Sign.marks) → '=' ∉ cs := fun h hc =>
    h '=' hc (by decide)
  refine ofText_assigned ?_ (unsigned hp.unsigned) hp.inked (unsigned hv.unsigned)
  have text : (Space.context.lead ++ path ++ "=" ++ value).toList =
      (Space.context.lead.toList ++ path.toList ++ ['=']) ++ value.toList := by
    simp only [String.toList_append, List.append_assoc]
    rfl
  have begins : ∃ c r, Space.context.lead.toList ++ path.toList ++ ['='] = c :: r ∧
      ¬ Text.isBlank c := ⟨'c', _, rfl, by decide⟩
  rw [text, Text.strip_append begins hv.inked]
  simp only [List.append_assoc, List.cons_append, List.nil_append]

end Effect

/-- A text that does not begin with the word for the context or for flags is a value. -/
theorem Source.ofChars_value {cs : List Char} (hc : ¬ Space.context.lead.toList <+: cs)
    (hf : ¬ Space.flag.lead.toList <+: cs) :
    ofChars cs = .value (.scalar (Operand.numberOrText cs)) := by
  simp only [ofChars, Text.after?_eq_none hc, Text.after?_eq_none hf]

theorem Source.ofChars_literal {cs : List Char} (h : ∀ space : Space, ¬ space.lead.toList <+: cs) :
    ofChars cs = .value (.scalar (Operand.numberOrText cs)) :=
  ofChars_value (h .context) (h .flag)

/-! ## Values -/

namespace Operand

/-- What is read from a text is equal to itself: it is finite if it is a number. -/
theorem same_numberOrText (cs : List Char) : (numberOrText cs).same (numberOrText cs) = true := by
  unfold numberOrText
  split
  · rename_i x hx
    rcases Number.Numeral.read?_cases hx with ⟨n, rfl, -⟩ | ⟨y, rfl, hy⟩
    · exact Number.same_int_iff.2 rfl
    · cases y with
      | finite => exact beq_self_eq_true _
      | infinite | nan => cases hy
  · exact beq_self_eq_true _

theorem isShowable_numberOrText (cs : List Char) : (numberOrText cs).isShowable = true := by
  unfold numberOrText
  split
  · rename_i x hx
    rcases Number.Numeral.read?_cases hx with ⟨n, rfl, hn⟩ | ⟨y, rfl, -⟩
    · have short : n.natAbs < integerBound := by
        unfold integerBound
        exact hn
      simp only [Scalar.ofNumber, Scalar.isShowable, short, decide_true]
    · rfl
  · rfl

end Operand

section values
variable [Text.Halves]

/-- A text as it is assigned and the text as it is compared with are equal, except for the two words
for truth values, which are assigned as texts. -/
theorem Value.compare_denoted (h : Heap) (cs : List Char) :
    (Value.scalar (Operand.numberOrText cs)).compare h .equals (.scalar (Operand.denoted cs)) =
      .ok (decide (cs ∉ ["true".toList, "false".toList])) := by
  have same : ∀ a b : Scalar, (Value.scalar a).compare h .equals (.scalar b) =
      .ok (a.same b || (Value.scalar a).numerallySame (.scalar b)) := fun _ _ => rfl
  rw [same]
  by_cases ht : cs = "true".toList
  · subst ht
    exact congrArg Except.ok (by decide +kernel)
  by_cases hf : cs = "false".toList
  · subst hf
    exact congrArg Except.ok (by decide +kernel)
  have other : cs ∉ ["true".toList, "false".toList] := by
    rw [List.mem_pair]
    exact not_or.2 ⟨ht, hf⟩
  rw [Operand.denoted, if_neg ht, if_neg hf, Operand.same_numberOrText, Bool.true_or,
    decide_eq_true other]

theorem Value.compare_bool (h : Heap) (a b : Bool) :
    (Value.scalar (.bool a)).compare h .equals (.scalar (.bool b)) = .ok (a == b) := by
  cases a <;> cases b <;> exact congrArg Except.ok (by decide +kernel)

end values

theorem Store.flag_setFlag (s : Store) (key : String) (b : Bool) :
    (s.setFlag (.text key) b).flag (.text key) = b := by
  rw [setFlag, flag, flag?, Table.get?_put_self]
  rfl

namespace World

section assignments
variable [Text.Halves]

theorem evaluate_text (w : World) (s : String) :
    (w.evaluate (.text s)).2 = (Condition.ofText s).holds w.store := rfl

/-- An effect that can be read from its text is applied. -/
theorem apply_text {w : World} {s : String} (quiet : (Effect.ofText s).readNotices = []) :
    w.apply (.text s) = (Effect.ofText s).apply w := by
  change (Effect.ofText s).apply (w.noteAll (Effect.ofText s).readNotices) = _
  rw [quiet]
  rfl

/-! ## Assignments -/

/-- In a tree, an assignment in words can be made, and after it the comparison in the same words
holds, unless the value is one of the words for truth values: then it does not. -/
theorem assignment_read {w : World} (whole : w.store.context.Whole)
    (tree : w.store.context.IsTree) {path value : String} (hp : Text.IsPart path.toList)
    (hv : Text.IsPart value.toList)
    (literal : ∀ space : Space, ¬ space.lead.toList <+: Text.strip value.toList) :
    ∃ w', w.apply (.text ("context." ++ path ++ "=" ++ value)) = (w', none) ∧
      (w'.evaluate (.text ("context." ++ path ++ "==" ++ value))).2 =
        .ok (decide (Text.strip value.toList ∉ ["true".toList, "false".toList])) := by
  have lead : Space.context.lead = "context." := rfl
  have mark : Sign.eqEq.text = "==" := rfl
  have read := Effect.ofText_assignment hp hv
  have asked := Condition.ofText_entry .context .eqEq hp hv
  rw [lead, Source.ofChars_literal literal] at read
  rw [lead, mark, Operand.ofChars_literal literal] at asked
  obtain ⟨s, replaced, hs⟩ := Store.exists_set whole (String.ofList (Text.strip path.toList))
    (.scalar (Operand.numberOrText (Text.strip value.toList)))
  have there := Store.get?_set whole tree hs
  obtain ⟨w', hw, rfl, -⟩ := Effect.writeValue_set hs .set
    fun _ => Operand.isShowable_numberOrText _
  refine ⟨w', ?_, ?_⟩
  · rw [apply_text (by rw [read]; rfl)]
    exact (congrArg (·.apply w) read).trans hw
  · -- the path has lost its blanks on both sides in the effect, in the condition at its end only
    have same : w'.store.get? (String.ofList (Text.dropEnd Text.isBlank path.toList)) =
        some (.scalar (Operand.numberOrText (Text.strip value.toList))) := by
      rw [← there, Store.get?, Store.get?, ← Path.split_strip, Text.strip, Text.trim_dropEnd,
        Text.strip]
    rw [evaluate_text, asked]
    simp only [Condition.holds, Operand.entry, Operand.resolve, same]
    exact Value.compare_denoted _ _

end assignments

section run

attribute [local instance] Text.noHalves

/-- Coins where there was gold, with underscores and an exponent in their number. -/
theorem assignment_read_coins : ∃ w',
    World.apply { store := Store.vault } (.text "context. gold .coins= 1_0e1 ") = (w', none) ∧
      (w'.evaluate (.text "context. gold .coins== 1_0e1 ")).2 = .ok true := by
  obtain ⟨w', hw, read⟩ := @assignment_read _ { store := Store.vault } Store.vault_whole
    (Store.ofDatum_isTree Store.vault_made) " gold .coins" " 1_0e1 "
    ⟨by decide +kernel, Text.unsigned_of_all rfl⟩ ⟨by decide +kernel, Text.unsigned_of_all rfl⟩
    (by rintro (_ | _ | _) <;> decide +kernel)
  refine ⟨w', hw, read.trans (congrArg Except.ok ?_)⟩
  decide +kernel

/-- A door is set to a word for a truth value, and is not equal to it. -/
theorem assignment_unread : ((World.apply { store := Store.vault }
    (.text "context.door=true")).1.evaluate (.text "context.door==true")).2 = .ok false := by
  decide +kernel

end run

/-! ## Flags -/

section flags
variable [Text.Halves]

/-- What is said of a flag in words: the reference to it, and its comparisons with both truth
values. -/
structure Tells (w : World) (key : String) (b : Bool) : Prop where
  named : (w.evaluate (.text ("flag." ++ key))).2 = .ok b
  affirmed : (w.evaluate (.text ("flag." ++ key ++ "==" ++ "true"))).2 = .ok b
  denied : (w.evaluate (.text ("flag." ++ key ++ "==" ++ "false"))).2 = .ok (!b)

theorem evaluate_named (w : World) {key : String} (hk : Text.IsPart key.toList) :
    (w.evaluate (.text ("flag." ++ key))).2 =
      .ok (w.store.flag (.text (String.ofList (Text.strip key.toList)))) := by
  have read := Condition.ofText_lead .flag (List.forall_mem_nil _) hk
  rw [List.nil_append, ← String.toList_append, String.ofList_toList] at read
  rw [evaluate_text]
  exact congrArg (·.holds w.store) read

theorem evaluate_compared (w : World) {key : String} (hk : Text.IsPart key.toList) (b : Bool) :
    (w.evaluate (.text ("flag." ++ key ++ "==" ++ if b then "true" else "false"))).2 =
      .ok (w.store.flag (.text (String.ofList (Text.dropEnd Text.isBlank key.toList))) == b) := by
  have word : Text.IsPart (if b then "true" else "false").toList := by
    cases b <;> exact ⟨by decide, Text.unsigned_of_all rfl⟩
  have denoted : Operand.ofChars (Text.strip (if b then "true" else "false").toList) =
      .literal (.bool b) := by
    cases b <;> decide
  have read := Condition.ofText_entry .flag .eqEq hk word
  rw [denoted] at read
  rw [evaluate_text]
  exact (congrArg (·.holds w.store) read).trans (Value.compare_bool w.store.context.heap _ b)

/-- A name that does not begin with a blank is that of one flag wherever it stands. -/
theorem tells_of_begun (w : World) {key : String} (hk : Text.IsPart key.toList)
    (begun : ∀ c ∈ key.toList.head?, ¬ Text.isBlank c) :
    w.Tells key (w.store.flag (.text (String.ofList (Text.strip key.toList)))) := by
  have trimmed : Text.dropEnd Text.isBlank key.toList = Text.strip key.toList := by
    rw [Text.strip, Text.trim]
    cases hc : key.toList with
    | nil => rfl
    | cons c r =>
      rw [hc] at begun
      rw [List.dropWhile_cons_of_neg (begun c rfl)]
  have compared := w.evaluate_compared hk
  rw [trimmed] at compared
  refine ⟨w.evaluate_named hk, (compared true).trans ?_, (compared false).trans ?_⟩
  · rw [beq_true]
  · rw [beq_false]

theorem apply_named (w : World) {key lead : String} {make : String → Effect}
    (hl : (lead, "flag", make) ∈ Effect.leads) (quiet : ∀ s, (make s).readNotices = [])
    (hk : Text.IsPart key.toList) : w.apply (.text (lead ++ key)) =
      (make (String.ofList (Text.strip key.toList))).apply w := by
  have read := Effect.ofText_lead hl hk.inked
  rw [apply_text (by rw [read, quiet]), read]

/-- All that is said of a flag and done with it in words is about one flag in every world just if its
name does not begin with a blank. -/
theorem flag_named_iff {key : String} (hk : Text.IsPart key.toList) :
    (∀ w : World, ∃ b, w.Tells key b ∧
      (∃ w', w.apply (.text ("set_flag." ++ key)) = (w', none) ∧ w'.Tells key true) ∧
      (∃ w', w.apply (.text ("unset_flag." ++ key)) = (w', none) ∧ w'.Tells key false) ∧
      ∃ w', w.apply (.text ("toggle_flag." ++ key)) = (w', none) ∧ w'.Tells key (!b)) ↔
    ∀ c ∈ key.toList.head?, ¬ Text.isBlank c := by
  constructor
  · intro same c hc blank
    -- where the flag of the trimmed name is set, the reference finds it and the comparison does not
    have apart : String.ofList (Text.strip key.toList) ≠
        String.ofList (Text.dropEnd Text.isBlank key.toList) := by
      intro he
      exact Text.dropEnd_ne_strip hk.inked hc blank (String.ofList_injective he).symm
    obtain ⟨b, told, -⟩ := same
      { store := (Store.empty #[]).setFlag (.text (String.ofList (Text.strip key.toList))) true }
    have named := Except.ok.inj (told.named.symm.trans (evaluate_named _ hk))
    have affirmed := Except.ok.inj (told.affirmed.symm.trans (evaluate_compared _ hk true))
    rw [Store.flag_setFlag] at named
    rw [named, Store.flag, Store.flag?, Store.setFlag, Table.get?_put_of_ne apart] at affirmed
    cases affirmed
  · intro begun w
    have tells : ∀ (w' : World) (b : Bool),
        w'.store.flag (.text (String.ofList (Text.strip key.toList))) = b → w'.Tells key b :=
      fun w' b hb => hb ▸ w'.tells_of_begun hk begun
    refine ⟨_, w.tells_of_begun hk begun, ⟨_, w.apply_named (.head _) (fun _ => rfl) hk, ?_⟩,
      ⟨_, w.apply_named (.tail _ (.head _)) (fun _ => rfl) hk, ?_⟩,
      ⟨_, w.apply_named (.tail _ (.tail _ (.head _))) (fun _ => rfl) hk, ?_⟩⟩
    · exact tells _ _ (Store.flag_setFlag _ _ _)
    · exact tells _ _ (Store.flag_setFlag _ _ _)
    · exact tells _ _ (Store.flag_setFlag _ _ _)

end flags

section run

attribute [local instance] Text.noHalves

/-- A name with a dot and with blanks inside and behind it. -/
theorem flag_named_iff_metByNight : ∃ w',
    World.apply { store := .empty #[] } (.text "toggle_flag.met . by night ") = (w', none) ∧
      (w'.evaluate (.text "flag.met . by night ")).2 = .ok true ∧
      (w'.evaluate (.text "flag.met . by night ==false")).2 = .ok false := by
  have begun : ∀ c ∈ "met . by night ".toList.head?, ¬ Text.isBlank c := by
    intro c hc
    obtain rfl : c = 'm' := (Option.some.inj hc).symm
    decide
  have named := (@flag_named_iff _ "met . by night "
    ⟨by decide +kernel, Text.unsigned_of_all rfl⟩).2 begun
  obtain ⟨b, told, -, -, w', hw, tells⟩ := named { store := .empty #[] }
  obtain rfl : b = false := Except.ok.inj (told.named.symm.trans (by decide +kernel))
  exact ⟨w', hw, tells.named, tells.denied⟩

/-- With a blank in front of its name, a flag that is set is found, but is not equal to true. -/
theorem flag_named_apart :
    let w := (World.apply { store := .empty #[] } (.text "set_flag. met")).1
    (w.evaluate (.text "flag. met")).2 = .ok true ∧
      (w.evaluate (.text "flag. met==true")).2 = .ok false := by
  decide +kernel

end run

end World

end Colloquy
