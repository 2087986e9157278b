/-!
# Cutting text

Texts are cut at a character (`splitAt`) or at the first occurrence of a mark (`breakAt?`). Nothing
is lost: the pieces joined by the cut are the text again (`join_splitAt`, `eq_of_breakAt?`).
-/

namespace Colloquy.Text

/-- The pieces between the occurrences of a character. -/
def splitAt (sep : Char) : List Char → List (List Char)
  | [] => [[]]
  | c :: r =>
    if c = sep then [] :: splitAt sep r
    else
      match splitAt sep r with
      | [] => [[c]]
      | piece :: more => (c :: piece) :: more

/-- What stands before and after the first occurrence of a mark. -/
def breakAt? (mark : List Char) : List Char → Option (List Char × List Char)
  | [] => if mark = [] then some ([], []) else none
  | c :: r =>
    match mark.isPrefixOf? (c :: r) with
    | some after => some ([], after)
    | none => (breakAt? mark r).map fun (before, after) => (c :: before, after)

def contains (mark cs : List Char) : Bool :=
  (breakAt? mark cs).isSome

/-- The text after a leading mark, if the text starts with it. -/
def after? (mark : String) (cs : List Char) : Option (List Char) :=
  mark.toList.isPrefixOf? cs

/-- The pieces with a separator between each two neighbours. -/
def join (sep : List Char) : List (List Char) → List Char
  | [] => []
  | [piece] => piece
  | piece :: more => piece ++ sep ++ join sep more

/-- Writes every character of one kind as another text. -/
def replaceChar (c : Char) (by_ : List Char) (cs : List Char) : List Char :=
  cs.flatMap fun d => if d = c then by_ else [d]

/-- The text filled up with blanks at its end to a given width. -/
def padEnd (width : Nat) (cs : List Char) : List Char :=
  cs ++ List.replicate (width - cs.length) ' '

/-- The text filled up at its start to a given width. -/
def padStart (fill : Char) (width : Nat) (cs : List Char) : List Char :=
  List.replicate (width - cs.length) fill ++ cs

/-- A line of one mark. -/
def rule (mark : Char) (n : Nat) : String :=
  String.ofList (List.replicate n mark)

theorem splitAt_ne_nil (sep : Char) : ∀ cs : List Char, splitAt sep cs ≠ []
  | [] => by simp [splitAt]
  | c :: r => by
    by_cases hc : c = sep
    · simp [splitAt, hc]
    · cases h : splitAt sep r <;> simp [splitAt, hc, h]

theorem join_splitAt (sep : Char) : ∀ cs : List Char, join [sep] (splitAt sep cs) = cs
  | [] => rfl
  | c :: r => by
    have ih := join_splitAt sep r
    have hr := splitAt_ne_nil sep r
    cases h : splitAt sep r with
    | nil => exact absurd h hr
    | cons piece more =>
      rw [h] at ih
      by_cases hc : c = sep
      · simp [splitAt, hc, h, join, ih]
      · cases more with
        | nil => simp [splitAt, hc, h, join] at ih ⊢; exact ih
        | cons => simp [splitAt, hc, h, join] at ih ⊢; exact ih

theorem splitAt_of_not_mem {sep : Char} : ∀ {cs : List Char}, sep ∉ cs → splitAt sep cs = [cs]
  | [], _ => rfl
  | c :: r, h => by
    rw [List.mem_cons, not_or] at h
    rw [splitAt, if_neg (Ne.symm h.1), splitAt_of_not_mem h.2]

theorem splitAt_append {sep : Char} {after : List Char} : ∀ {before : List Char},
    sep ∉ before → splitAt sep (before ++ sep :: after) = before :: splitAt sep after
  | [], _ => by rw [List.nil_append, splitAt, if_pos rfl]
  | c :: r, h => by
    rw [List.mem_cons, not_or] at h
    rw [List.cons_append, splitAt, if_neg (Ne.symm h.1), splitAt_append h.2]

theorem eq_of_isPrefixOf? {mark : List Char} :
    ∀ {cs after : List Char}, mark.isPrefixOf? cs = some after → cs = mark ++ after := by
  induction mark with
  | nil =>
    intro cs after h
    change some cs = some after at h
    simpa using h
  | cons m mark ih =>
    intro cs after h
    cases cs with
    | nil =>
      change none = some after at h
      simp at h
    | cons c r =>
      change (if m == c then mark.isPrefixOf? r else none) = some after at h
      split at h
      · next hm => rw [ih h, eq_of_beq hm]; rfl
      · simp at h

theorem eq_of_breakAt? {mark : List Char} :
    ∀ {cs before after : List Char}, breakAt? mark cs = some (before, after) →
      cs = before ++ mark ++ after
  | [], before, after, h => by
    simp only [breakAt?] at h
    split at h
    · next hm => cases h; simp [hm]
    · simp at h
  | c :: r, before, after, h => by
    simp only [breakAt?] at h
    split at h
    · next hp => cases h; simpa using eq_of_isPrefixOf? hp
    · cases hr : breakAt? mark r with
      | none => simp [hr] at h
      | some p =>
        simp only [hr, Option.map_some, Option.some.injEq, Prod.mk.injEq] at h
        obtain ⟨rfl, rfl⟩ := h
        have : r = p.1 ++ mark ++ p.2 := eq_of_breakAt? hr
        simp [this]

theorem isPrefixOf?_append : ∀ mark cs : List Char, mark.isPrefixOf? (mark ++ cs) = some cs
  | [], _ => rfl
  | m :: mark, cs => by
    change (if m == m then mark.isPrefixOf? (mark ++ cs) else none) = some cs
    rw [if_pos (beq_self_eq_true m), isPrefixOf?_append mark cs]

theorem after?_append (mark : String) (cs : List Char) :
    after? mark (mark.toList ++ cs) = some cs :=
  isPrefixOf?_append _ cs

theorem after?_eq_none {mark : String} {cs : List Char} (h : ¬ mark.toList <+: cs) :
    after? mark cs = none := by
  cases ha : after? mark cs with
  | none => rfl
  | some rest => exact absurd ⟨rest, (eq_of_isPrefixOf? ha).symm⟩ h

/-- A text is cut in front of a mark whose first character does not occur before. -/
theorem breakAt?_append {m : Char} {mark after : List Char} : ∀ {before : List Char},
    m ∉ before → breakAt? (m :: mark) (before ++ m :: mark ++ after) = some (before, after)
  | [], _ => by
    rw [List.nil_append, List.cons_append, breakAt?, ← List.cons_append, isPrefixOf?_append]
  | c :: before, h => by
    rw [List.mem_cons, not_or] at h
    have hp : (m :: mark).isPrefixOf? (c :: (before ++ m :: mark ++ after)) = none :=
      if_neg fun hm => h.1 (eq_of_beq hm)
    rw [List.cons_append, List.cons_append, breakAt?, hp]
    simp only [breakAt?_append h.2, Option.map_some]

/-- A mark that has more of some character than a text does not occur in it. -/
theorem contains_eq_false {mark cs : List Char} {c : Char} (h : cs.count c < mark.count c) :
    contains mark cs = false := by
  rw [contains]
  cases hb : breakAt? mark cs with
  | none => rfl
  | some p =>
    rw [eq_of_breakAt? hb, List.count_append, List.count_append] at h
    omega

end Colloquy.Text
