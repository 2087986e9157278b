import Colloquy.Proofs.Phrasings

/-!
# Texts that a sign cuts

A mark that occurs in a text is found, and the text is cut at its first occurrence
(`Text.contains_iff`, `Text.length_le_of_breakAt?`). So of all signs in a text the one that comes
first in the order in which they are looked for cuts it, wherever the others stand (`Sign.Cuts`,
`Condition.exists_cuts`). If there is something on both sides of the cut, the text is the comparison
of the two, and otherwise it is malformed (`Condition.ofText_cuts`).
-/

namespace Colloquy

namespace Text

theorem exists_breakAt? (mark r : List Char) : ∀ l : List Char,
    ∃ before after, breakAt? mark (l ++ mark ++ r) = some (before, after)
  | [] => by
    have hp := isPrefixOf?_append mark r
    rw [List.nil_append]
    cases hc : mark ++ r with
    | nil => exact ⟨[], [], if_pos (List.append_eq_nil_iff.1 hc).1⟩
    | cons c cs =>
      rw [hc] at hp
      exact ⟨[], r, by rw [breakAt?, hp]⟩
  | c :: l => by
    rw [List.cons_append, List.cons_append, breakAt?]
    cases mark.isPrefixOf? (c :: (l ++ mark ++ r)) with
    | some after => exact ⟨[], after, rfl⟩
    | none =>
      obtain ⟨before, after, h⟩ := exists_breakAt? mark r l
      exact ⟨c :: before, after, by rw [h]; rfl⟩

/-- A mark is found in a text if it occurs anywhere. -/
theorem contains_iff {mark cs : List Char} : contains mark cs = true ↔ mark <:+: cs := by
  rw [contains, Option.isSome_iff_exists]
  constructor
  · rintro ⟨⟨before, after⟩, h⟩
    exact ⟨before, after, (eq_of_breakAt? h).symm⟩
  · rintro ⟨l, r, rfl⟩
    obtain ⟨before, after, h⟩ := exists_breakAt? mark r l
    exact ⟨(before, after), h⟩

/-- A text is cut where a mark occurs first. -/
theorem length_le_of_breakAt? {mark : List Char} : ∀ {cs before after l r : List Char},
    breakAt? mark cs = some (before, after) → cs = l ++ mark ++ r → before.length ≤ l.length
  | [], before, after, l, r, h, _ => by
    rw [breakAt?] at h
    split_ifs at h
    cases h
    exact Nat.zero_le _
  | c :: cs, before, after, l, r, h, he => by
    rw [breakAt?] at h
    cases l with
    | nil =>
      rw [he, List.nil_append, isPrefixOf?_append] at h
      cases h
      exact Nat.zero_le _
    | cons d l =>
      obtain ⟨rfl, rfl⟩ := List.cons.inj he
      split at h
      · cases h
        exact Nat.zero_le _
      · obtain ⟨⟨before, after⟩, hb, he⟩ := Option.map_eq_some_iff.1 h
        cases he
        exact Nat.succ_le_succ (length_le_of_breakAt? hb rfl)

end Text

/-- How a sign cuts a text: it is the first, in the order in which signs are looked for, of those
that the text has, and the two sides are what stands before and after its first occurrence. -/
structure Sign.Cuts (sign : Sign) (cs left right : List Char) : Prop where
  first : ∃ earlier later, all = earlier ++ sign :: later ∧ ∀ t ∈ earlier, ¬ t.text.toList <:+: cs
  whole : cs = left ++ sign.text.toList ++ right
  leftmost : ∀ l r, cs = l ++ sign.text.toList ++ r → left.length ≤ l.length

namespace Sign.Cuts

variable {sign : Sign} {cs left right : List Char} (cut : sign.Cuts cs left right)
include cut

theorem isIn : sign.text.toList <:+: cs := ⟨left, right, cut.whole.symm⟩

theorem findSign_eq : Condition.findSign cs = some sign := by
  obtain ⟨earlier, later, ha, hn⟩ := cut.first
  refine List.find?_eq_some_iff_append.2 ⟨Text.contains_iff.2 cut.isIn, earlier, later, ha, ?_⟩
  intro t ht
  rw [Bool.not_eq_true', ← Bool.not_eq_true, Text.contains_iff]
  exact hn t ht

theorem breakAt?_eq : Text.breakAt? sign.text.toList cs = some (left, right) := by
  obtain ⟨before, after, h⟩ := Text.exists_breakAt? sign.text.toList right left
  rw [← cut.whole] at h
  have whole := Text.eq_of_breakAt? h
  -- neither of the two occurrences is before the other
  have length : before.length = left.length :=
    Nat.le_antisymm (Text.length_le_of_breakAt? h cut.whole) (cut.leftmost _ _ whole)
  have same : before ++ (sign.text.toList ++ after) = left ++ (sign.text.toList ++ right) := by
    rw [← List.append_assoc, ← List.append_assoc, ← whole, ← cut.whole]
  obtain ⟨rfl, rest⟩ := List.append_inj same length
  rw [h, (List.append_right_inj _).1 rest]

/-- A text is cut in one way only. -/
theorem eq_of_found {t : Sign} {before after : List Char} (hs : Condition.findSign cs = some t)
    (hb : Text.breakAt? t.text.toList cs = some (before, after)) :
    sign = t ∧ left = before ∧ right = after := by
  obtain rfl := Option.some.inj (cut.findSign_eq.symm.trans hs)
  obtain ⟨rfl, rfl⟩ := Prod.mk.inj (Option.some.inj (cut.breakAt?_eq.symm.trans hb))
  exact ⟨rfl, rfl, rfl⟩

end Sign.Cuts

namespace Condition

/-- A text that has a sign is cut by one. -/
theorem exists_cuts {cs : List Char} (h : ∃ sign : Sign, sign.text.toList <:+: cs) :
    ∃ sign left right, Sign.Cuts sign cs left right := by
  obtain ⟨t, ht⟩ := h
  have found : (findSign cs).isSome := by
    refine List.find?_isSome.2 ⟨t, ?_, Text.contains_iff.2 ht⟩
    cases t <;> decide
  obtain ⟨sign, hs⟩ := Option.isSome_iff_exists.1 found
  obtain ⟨there, earlier, later, ha, hn⟩ := List.find?_eq_some_iff_append.1 hs
  obtain ⟨⟨left, right⟩, hb⟩ := Option.isSome_iff_exists.1 there
  refine ⟨sign, left, right, ⟨earlier, later, ha, fun u hu hc => ?_⟩, Text.eq_of_breakAt? hb,
    fun l r => Text.length_le_of_breakAt? hb⟩
  have absent := hn u hu
  rw [Text.contains_iff.2 hc] at absent
  cases absent

/-- What a text with a sign is read as depends on the two sides of the cut. -/
theorem ofText_cuts {source : String} {sign : Sign} {left right : List Char}
    (cut : sign.Cuts (Text.strip source.toList) left right) :
    ofText source = if Text.strip left = [] ∨ Text.strip right = [] then
      .malformed (.text source) ("missing operand for '" ++ sign.text ++ "'")
    else .comparison (.ofChars (Text.strip left)) sign (.ofChars (Text.strip right)) := by
  have inked : Text.strip source.toList ≠ [] := by
    obtain ⟨c, cs, hc, -⟩ := sign.text_marks
    rw [cut.whole, hc]
    simp
  rw [ofText, if_neg inked, cut.findSign_eq]
  simp only [compared, cut.breakAt?_eq, Option.getD_some]

variable [Text.Halves]

/-- A sign between two sides that have no character of a sign, with any blanks around the parts, is
read as the comparison of the two. Every other text with a sign in it is cut by one: by the first
sign in the order of looking that it has, at its first occurrence. It is the comparison of the two
sides without the blanks around them, unless one of them is blank; then it is malformed. -/
theorem ofText_signed :
    Sign.all.map Sign.text = [">=", "<=", "!=", "==", ">", "<", "="] ∧
    (∀ {l r w₁ w₂ w₃ w₄ : List Char} (sign : Sign), Text.IsSide l → Text.IsSide r →
      (∀ c ∈ w₁, Text.isBlank c) → (∀ c ∈ w₂, Text.isBlank c) → (∀ c ∈ w₃, Text.isBlank c) →
      (∀ c ∈ w₄, Text.isBlank c) →
        ofDatum (.text (String.ofList
            (w₁ ++ l ++ w₂ ++ sign.text.toList ++ w₃ ++ r ++ w₄))) =
          .ok (.comparison (.ofChars l) sign (.ofChars r))) ∧
    ∀ source : String, (∃ sign : Sign, sign.text.toList <:+: Text.strip source.toList) →
      ∃ sign left right, Sign.Cuts sign (Text.strip source.toList) left right ∧
        (Text.strip left ≠ [] ∧ Text.strip right ≠ [] →
          ofDatum (.text source) =
            .ok (.comparison (.ofChars (Text.strip left)) sign (.ofChars (Text.strip right)))) ∧
        (Text.strip left = [] ∨ Text.strip right = [] →
          ofDatum (.text source) =
            .ok (.malformed (.text source) ("missing operand for '" ++ sign.text ++ "'"))) := by
  refine ⟨rfl, fun sign hl hr h₁ h₂ h₃ h₄ => ?_, fun source h => ?_⟩
  · exact congrArg Except.ok (ofText_sides hl hr sign h₁ h₂ h₃ h₄)
  · obtain ⟨sign, left, right, cut⟩ := exists_cuts h
    refine ⟨sign, left, right, cut, fun inked => ?_, fun blank => ?_⟩
    · exact congrArg Except.ok ((ofText_cuts cut).trans (if_neg (not_or.2 inked)))
    · exact congrArg Except.ok ((ofText_cuts cut).trans (if_pos blank))

end Condition

namespace Condition

attribute [local instance] Text.noHalves

/-- Blanks of any kind do not count, `!=` cuts a text though `==` stands before it, and what has
nothing behind its sign is malformed. -/
theorem ofText_signed_level :
    Text.IsSide "context.level".toList ∧ Text.IsSide "5".toList ∧
      ofDatum (.text "\u2003context.level >=\t5") =
        .ok (.comparison (.context "level") .ge (.literal (.int 5))) ∧
      ofDatum (.text "a==b!=c") =
        .ok (.comparison (.literal (.text "a==b")) .ne (.literal (.text "c"))) ∧
      ofDatum (.text "a=>") = .ok (.malformed (.text "a=>") "missing operand for '>'") := by
  obtain ⟨-, sides, cuts⟩ := ofText_signed
  have level : Text.IsSide "context.level".toList :=
    ⟨by decide, by decide, Text.unsigned_of_all rfl⟩
  have five : Text.IsSide "5".toList := ⟨by decide, by decide, Text.unsigned_of_all rfl⟩
  refine ⟨level, five, ?_, ?_, ?_⟩
  · have wide : ∀ c ∈ ['\u2003'], Text.isBlank c := List.forall_mem_singleton.2 rfl
    have space : ∀ c ∈ [' '], Text.isBlank c := List.forall_mem_singleton.2 rfl
    have tab : ∀ c ∈ ['\t'], Text.isBlank c := List.forall_mem_singleton.2 rfl
    have h := sides .ge level five wide space tab (List.forall_mem_nil _)
    have context : Operand.ofChars "context.level".toList = .context "level" := by decide +kernel
    have number : Operand.ofChars "5".toList = .literal (.int 5) := by decide +kernel
    rw [context, number] at h
    exact h
  · obtain ⟨sign, left, right, cut, compared, -⟩ := cuts "a==b!=c" ⟨.ne, by decide +kernel⟩
    have found : findSign (Text.strip "a==b!=c".toList) = some .ne := by decide +kernel
    have split : Text.breakAt? (Sign.text .ne).toList (Text.strip "a==b!=c".toList) =
        some ("a==b".toList, "c".toList) := by decide +kernel
    obtain ⟨rfl, rfl, rfl⟩ := cut.eq_of_found found split
    exact compared (by decide +kernel)
  · obtain ⟨sign, left, right, cut, -, malformed⟩ := cuts "a=>" ⟨.gt, by decide +kernel⟩
    have found : findSign (Text.strip "a=>".toList) = some .gt := by decide +kernel
    have split : Text.breakAt? (Sign.text .gt).toList (Text.strip "a=>".toList) =
        some ("a=".toList, []) := by decide +kernel
    obtain ⟨rfl, rfl, rfl⟩ := cut.eq_of_found found split
    exact malformed (.inr rfl)

end Condition

end Colloquy
