import Colloquy.Json.Parts
import Colloquy.Proofs.Decimals
import Colloquy.Proofs.Named
import Mathlib.Tactic.IntervalCases

/-!
# JSON is read as it is written

A text is read as it is written, whatever is escaped in it (`Json.text_writeText`), and so is every
other scalar that is not NaN, nor an integer with too many digits. A list or table is read by its
members, between gaps of any kind. So a value that is written with blanks for indentation, or on
one line, is read again if its lists and tables are nested no deeper than can be read, and otherwise
reading says that they are (`Json.read_write?`).
-/

namespace Colloquy

/-! ## Values that JSON tells apart -/

/-- Whether a scalar has a text of its own: it is neither NaN, nor an integer too long to be read,
nor a text with half a surrogate pair. -/
def Scalar.IsPlain [Text.Halves] : Scalar → Prop
  | .int n => n.natAbs < integerBound
  | .float x => x.isNaN = false
  | .text s => Text.isWhole s = true
  | _ => True

namespace Datum

variable (P : Scalar → Prop)

mutual

/-- Whether all scalars in a value are of a kind, the keys of its tables included. -/
def HoldsOnly : Datum → Prop
  | .scalar s => P s
  | .list xs => ItemsHoldOnly xs
  | .map es => EntriesHoldOnly es
  | .back _ => True
termination_by structural d => d

def ItemsHoldOnly : List Datum → Prop
  | [] => True
  | x :: xs => x.HoldsOnly ∧ ItemsHoldOnly xs
termination_by structural xs => xs

def EntriesHoldOnly : List (Scalar × Datum) → Prop
  | [] => True
  | (k, x) :: es => P k ∧ x.HoldsOnly ∧ EntriesHoldOnly es
termination_by structural es => es

end

end Datum

namespace Json

/-! ## Texts -/

theorem codes_letter (start : List Char) {c k : Char} (hk : letter? c = some k) (hu : c ≠ 'u')
    (r : List Char) : codes start ('\\' :: c :: r) =
      (codes start r).map fun (ks, rest) => (k.toNat :: ks, rest) := by
  rw [codes]
  · rw [if_neg hu, hk]
  · rintro _ _ _ _ _ _ rfl
    exact absurd rfl hu

theorem codes_code (start : List Char) {a b c d : Char} {k : ℕ} (hk : code? a b c d = some k)
    {r : List Char} (hr : r ≠ []) : codes start ('\\' :: 'u' :: a :: b :: c :: d :: r) =
      (codes start r).map fun (ks, rest) => (k :: ks, rest) := by
  obtain ⟨e, r, rfl⟩ := List.exists_cons_of_ne_nil hr
  rw [codes, hk]

theorem codes_plain (start : List Char) {c : Char} (hq : c ≠ '"') (hb : c ≠ '\\')
    (hc : ¬ c < ' ') (r : List Char) : codes start (c :: r) =
      (codes start r).map fun (ks, rest) => (c.toNat :: ks, rest) := by
  rw [codes]
  · rw [if_neg hc]
  all_goals
    intros
    simp_all

theorem code?_hex : ∀ n < 32, ∃ a b c d, Text.Quoted.hex 4 n = [a, b, c, d] ∧
    code? a b c d = some n := by
  intro n hn
  interval_cases n
  all_goals exact ⟨_, _, _, _, rfl, rfl⟩

variable [Text.Halves]

/-- A character is read as it is escaped. -/
theorem codes_escapeChar (start : List Char) (c : Char) {r : List Char} (hr : r ≠ []) :
    codes start (escapeChar false c ++ r) =
      (codes start r).map fun (ks, rest) => (c.toNat :: ks, rest) := by
  unfold escapeChar
  split_ifs with hq hn hrt ht hf hb hc ha
  · rw [Bool.or_eq_true, decide_eq_true_eq, decide_eq_true_eq] at hq
    rcases hq with rfl | rfl
    · exact codes_letter start rfl (by decide) r
    · exact codes_letter start rfl (by decide) r
  · exact hn ▸ codes_letter start rfl (by decide) r
  · exact hrt ▸ codes_letter start rfl (by decide) r
  · exact ht ▸ codes_letter start rfl (by decide) r
  · exact hf ▸ codes_letter start rfl (by decide) r
  · exact hb ▸ codes_letter start rfl (by decide) r
  · obtain ⟨a, b, d, e, hhex, hcode⟩ := code?_hex c.toNat hc
    rw [escapeCode, hhex]
    exact codes_code start hcode hr
  · simp at ha
  · rw [Bool.or_eq_true, decide_eq_true_eq, decide_eq_true_eq, not_or] at hq
    exact codes_plain start hq.1 hq.2 hc r

theorem codes_escaped (start : List Char) (rest : List Char) : ∀ cs : List Char,
    codes start (cs.flatMap (escapeChar false) ++ '"' :: rest) = .ok (cs.map Char.toNat, rest)
  | [] => rfl
  | c :: cs => by
    rw [List.flatMap_cons, List.append_assoc, codes_escapeChar start c (by simp),
      codes_escaped start rest cs]
    rfl

theorem character_toNat (c : Char) : Text.Half.character c.toNat = c := by
  rw [Text.Half.character, Text.Half.not_isUnit, if_neg (by simp), Char.ofNat_toNat]

/-- The code points of characters name them again: none of them is half of a pair. -/
theorem characters_toNat : ∀ cs : List Char, characters (cs.map Char.toNat) = cs
  | [] => rfl
  | [c] => by rw [List.map_singleton, characters, character_toNat]
  | c :: d :: cs => by
    have hc : isHigh c.toNat = false := by
      have := Text.Half.not_isUnit c
      simp only [Text.Half.isUnit, isHigh, Bool.and_eq_false_iff, decide_eq_false_iff_not] at *
      omega
    have ih := characters_toNat (d :: cs)
    rw [List.map_cons, List.map_cons] at *
    rw [characters, hc, Bool.false_and, if_neg (by simp), character_toNat, ih]

theorem writeText_append (s : String) (rest : List Char) : writeText false s ++ rest =
    '"' :: (s.toList.flatMap (escapeChar false) ++ '"' :: rest) := by
  simp [writeText]

/-- A text is read as it is written. -/
theorem text_writeText (s : String) (rest : List Char) :
    text (s.toList.flatMap (escapeChar false) ++ '"' :: rest) = .ok (s, rest) := by
  rw [text, codes_escaped]
  simp [Except.map, characters_toNat]

/-! ## Scalars -/

/-- Whether a text begins as values do. -/
def Opens (cs : List Char) : Prop :=
  ∃ c r, cs = c :: r ∧ isGap c = false ∧ c ≠ ']' ∧ c ≠ '\x7d' ∧ c ≠ '\uFEFF'

omit [Text.Halves] in
theorem Opens.append {cs : List Char} (h : Opens cs) (rest : List Char) : Opens (cs ++ rest) := by
  obtain ⟨c, r, rfl, hc⟩ := h
  exact ⟨c, r ++ rest, rfl, hc⟩

omit [Text.Halves] in
theorem leaf_stops {c : Char}
    (hc : c ∈ ['"', '\x7b', '[', ']', '\x7d', '\uFEFF', ' ', '\t', '\n', '\r']) (r : List Char) :
    leaf (c :: r) = stop .value (c :: r) := by
  simp only [List.mem_cons, List.not_mem_nil, or_false] at hc
  rcases hc with rfl | rfl | rfl | rfl | rfl | rfl | rfl | rfl | rfl | rfl
  all_goals rfl

omit [Text.Halves] in
/-- What is read as a word or a number does not begin as anything else. -/
theorem leaf_begins {cs : List Char} {p : Datum × List Char} (h : leaf cs = .ok p) :
    Opens cs ∧ ∀ c ∈ cs.head?, c ≠ '"' ∧ c ≠ '\x7b' ∧ c ≠ '[' := by
  cases cs with
  | nil => cases h
  | cons c r =>
    have hc : c ∉ ['"', '\x7b', '[', ']', '\x7d', '\uFEFF', ' ', '\t', '\n', '\r'] := by
      intro hc
      rw [leaf_stops hc] at h
      cases h
    simp only [List.mem_cons, List.not_mem_nil, or_false, not_or] at hc
    obtain ⟨hq, hb, hl, hr, hb', hm, hgaps⟩ := hc
    refine ⟨⟨c, r, rfl, ?_, hr, hb', hm⟩, ?_⟩
    · simp [isGap, hgaps]
    · rintro _ ⟨⟩
      exact ⟨hq, hb, hl⟩

theorem leaf_writeScalar {s : Scalar} (hs : s.IsPlain) (ht : ∀ t, s ≠ .text t) {rest : List Char}
    (ends : EndsNumber rest) : leaf (writeScalar false s ++ rest) = .ok (.scalar s, rest) := by
  cases s with
  | null => rfl
  | bool b => cases b <;> rfl
  | int n => exact leaf_ofInt hs ends
  | float x => exact leaf_float_write hs ends
  | text t => exact absurd rfl (ht t)

/-- A scalar is read as it is written. -/
theorem value_writeScalar {s : Scalar} (hs : s.IsPlain) {rest : List Char}
    (ends : EndsNumber rest) (n depth : ℕ) :
    value (n + 1) depth (writeScalar false s ++ rest) = .ok (.scalar s, rest) := by
  by_cases ht : ∃ t, s = .text t
  · obtain ⟨t, rfl⟩ := ht
    rw [writeScalar, writeText_append, value, text_writeText]
    rfl
  · have hread := leaf_writeScalar hs (fun t h => ht ⟨t, h⟩) ends
    obtain ⟨⟨c, r, hcs, -⟩, hfirst⟩ := leaf_begins hread
    rw [hcs] at hread hfirst ⊢
    obtain ⟨hq, hb, hl⟩ := hfirst c rfl
    rw [value, hread]
    · rintro r ⟨⟩
      exact hq rfl
    · rintro r ⟨⟩
      exact hb rfl
    · rintro r ⟨⟩
      exact hl rfl

theorem opens_writeScalar {s : Scalar} (hs : s.IsPlain) : Opens (writeScalar false s) := by
  by_cases ht : ∃ t, s = .text t
  · obtain ⟨t, rfl⟩ := ht
    exact ⟨'"', _, rfl, by decide⟩
  · have hread := leaf_writeScalar hs (fun t h => ht ⟨t, h⟩) endsNumber_nil
    rw [List.append_nil] at hread
    exact (leaf_begins hread).1

/-! ## Lists and tables -/

omit [Text.Halves] in
theorem skip_append {gap : List Char} (hg : ∀ c ∈ gap, isGap c = true) (cs : List Char) :
    skip (gap ++ cs) = skip cs :=
  List.dropWhile_append_of_pos hg

omit [Text.Halves] in
theorem Opens.skip {cs : List Char} (h : Opens cs) : skip cs = cs := by
  obtain ⟨c, r, rfl, hc, -⟩ := h
  rw [Json.skip, List.dropWhile_cons, if_neg (by simp [hc])]

omit [Text.Halves] in
theorem endsNumber_comma (rest : List Char) : EndsNumber (',' :: rest) := by
  rintro _ ⟨⟩
  decide

omit [Text.Halves] in
theorem endsNumber_gap {gap : List Char} (hg : ∀ c ∈ gap, isGap c = true) {c : Char}
    (hc : c = ']' ∨ c = '\x7d') (rest : List Char) : EndsNumber (gap ++ c :: rest) := by
  rcases gap with _ | ⟨g, gap⟩
  all_goals rintro _ ⟨⟩
  · rcases hc with rfl | rfl
    all_goals decide
  · have hgap := hg g List.mem_cons_self
    simp only [isGap, Bool.or_eq_true, decide_eq_true_eq] at hgap
    rcases hgap with ((rfl | rfl) | rfl) | rfl
    all_goals decide

omit [Text.Halves] in
theorem join_cons_cons (sep a b : List Char) (more : List (List Char)) :
    Text.join sep (a :: b :: more) = a ++ sep ++ Text.join sep (b :: more) := rfl

omit [Text.Halves] in
theorem Opens.join {cs : List Char} (h : Opens cs) (sep : List Char) (parts : List (List Char)) :
    Opens (Text.join sep (cs :: parts)) := by
  cases parts with
  | nil => exact h
  | cons =>
    rw [join_cons_cons, List.append_assoc]
    exact h.append _

omit [Text.Halves] in
theorem skip_comma (r : List Char) : skip (',' :: r) = ',' :: r := rfl

/-- A text that is written for a value and read as it. -/
structure Spelled (style : Style) (depth : ℕ) (d : Datum) (cs : List Char) : Prop where
  written : writeAt style depth d = some cs
  opens : Opens cs
  read : ∀ {n limit : ℕ} {rest : List Char}, 2 * cs.length ≤ n → EndsNumber rest →
    value n limit (cs ++ rest) = if d.depth ≤ limit then .ok (d, rest) else .error .tooDeep

/-- How an entry is written, given its name and the text of its value. -/
def entryText (p : String × List Char) : List Char := writeText false p.1 ++ [':', ' '] ++ p.2

theorem opens_entryText (p : String × List Char) : Opens (entryText p) :=
  ⟨'"', _, rfl, by decide⟩

/-- An entry and what is written for it. -/
def SpelledEntry (style : Style) (depth : ℕ) (e : Scalar × Datum) (p : String × List Char) :
    Prop :=
  e.1 = .text p.1 ∧ Spelled style depth e.2 p.2

theorem members_entry {style : Style} {depth : ℕ} {s : String} {x : Datum} {cs : List Char}
    (hx : Spelled style depth x cs) {n limit : ℕ} (hn : 2 * cs.length ≤ n) {rest : List Char}
    (ends : EndsNumber rest) : members (n + 1) limit (entryText (s, cs) ++ rest) =
      if x.depth ≤ limit then
        match skip rest with
        | '\x7d' :: rest => .ok ([(.text s, x)], rest)
        | ',' :: r => (members n limit (skip r)).map fun (es, rest) => ((.text s, x) :: es, rest)
        | r => stop .comma r
      else .error .tooDeep := by
  have hcs : entryText (s, cs) ++ rest = '"' :: (s.toList.flatMap (escapeChar false) ++
      '"' :: ':' :: ' ' :: (cs ++ rest)) := by
    rw [entryText, List.append_assoc, List.append_assoc, writeText_append]
    rfl
  have hcolon : skip (':' :: ' ' :: (cs ++ rest)) = ':' :: ' ' :: (cs ++ rest) := rfl
  have hgap : ∀ c ∈ [' '], isGap c = true := by simp [isGap]
  have hskip : skip ([' '] ++ (cs ++ rest)) = cs ++ rest :=
    (skip_append hgap _).trans (hx.opens.append rest).skip
  rw [List.singleton_append] at hskip
  rw [hcs, members, text_writeText]
  simp only [Except.bind, hcolon, hskip, hx.read hn ends]
  split_ifs <;> rfl

section members

variable {style : Style} {depth : ℕ} {sep gap brk : List Char}
  (hsep : sep = ',' :: gap) (hgap : ∀ c ∈ gap, isGap c = true) (hbrk : ∀ c ∈ brk, isGap c = true)
include hsep hgap

omit [Text.Halves] in
/-- What separates a member from the next one is a comma and a gap. -/
theorem exists_of_separator (cs : List Char) {joined : List Char} (h : Opens joined)
    (tail : List Char) : ∃ r, cs ++ sep ++ joined ++ tail = cs ++ ',' :: r ∧
      skip r = joined ++ tail := by
  refine ⟨gap ++ (joined ++ tail), ?_, ?_⟩
  · rw [hsep]
    simp
  · rw [skip_append hgap, (h.append tail).skip]

include hbrk

/-- Items are read up to the bracket behind them, unless one of them is nested too deeply. -/
theorem elements_join {xs : List Datum} {parts : List (List Char)}
    (h : List.Forall₂ (Spelled style depth) xs parts) (hne : xs ≠ []) {n : ℕ}
    (hn : 2 * (Text.join sep parts).length + 1 ≤ n) (rest : List Char) (limit : ℕ) :
    elements n limit (Text.join sep parts ++ (brk ++ ']' :: rest)) =
      if Datum.depthOfItems xs ≤ limit then .ok (xs, rest) else .error .tooDeep := by
  induction h generalizing n with
  | nil => exact absurd rfl hne
  | @cons x cs xs parts hx hxs ih =>
    obtain ⟨n, rfl⟩ : ∃ m, n = m + 1 := ⟨n - 1, by omega⟩
    cases hxs with
    | nil =>
      rw [Text.join] at hn ⊢
      have hskip : skip (brk ++ ']' :: rest) = ']' :: rest := skip_append hbrk _
      rw [elements, hx.read (by omega) (endsNumber_gap hbrk (by decide) rest)]
      simp only [Datum.depthOfItems, Nat.max_zero]
      split_ifs with hd
      · simp [Except.bind, hskip]
      · rfl
    | @cons y cs' ys parts hy hys =>
      rw [join_cons_cons, hsep] at hn
      simp only [List.length_append, List.length_cons] at hn
      have ih := ih (by simp) (n := n) (by rw [hsep]; omega)
      have hopens := hy.opens.join sep parts
      rw [join_cons_cons]
      generalize Text.join sep (cs' :: parts) = joined at *
      obtain ⟨r, hr, hskip⟩ := exists_of_separator hsep hgap cs hopens (brk ++ ']' :: rest)
      rw [hr, elements, hx.read (by omega) (endsNumber_comma _), Datum.depthOfItems]
      by_cases hd : x.depth ≤ limit
      · rw [if_pos hd]
        simp only [Except.bind, skip_comma, hskip, ih, Nat.max_le, hd, true_and]
        split_ifs <;> rfl
      · rw [if_neg hd, if_neg (by omega)]
        rfl

/-- Entries are read up to the bracket behind them, unless one of them is nested too deeply. -/
theorem members_join {es : List (Scalar × Datum)} {parts : List (String × List Char)}
    (h : List.Forall₂ (SpelledEntry style depth) es parts) (hne : es ≠ []) {n : ℕ}
    (hn : 2 * (Text.join sep (parts.map entryText)).length + 1 ≤ n) (rest : List Char)
    (limit : ℕ) :
    members n limit (Text.join sep (parts.map entryText) ++ (brk ++ '\x7d' :: rest)) =
      if Datum.depthOfEntries es ≤ limit then .ok (es, rest) else .error .tooDeep := by
  induction h generalizing n with
  | nil => exact absurd rfl hne
  | @cons e p es parts hx hes ih =>
    obtain ⟨n, rfl⟩ : ∃ m, n = m + 1 := ⟨n - 1, by omega⟩
    obtain ⟨k, x⟩ := e
    obtain ⟨s, cs⟩ := p
    obtain ⟨rfl, hx⟩ : k = .text s ∧ Spelled style depth x cs := hx
    have hlen : cs.length ≤ (entryText (s, cs)).length := by
      rw [entryText, List.length_append]
      exact Nat.le_add_left _ _
    cases hes with
    | nil =>
      rw [List.map_singleton, Text.join] at hn ⊢
      have hskip : skip (brk ++ '\x7d' :: rest) = '\x7d' :: rest := skip_append hbrk _
      rw [members_entry hx (by omega) (endsNumber_gap hbrk (by decide) rest), hskip]
      simp only [Datum.depthOfEntries, Nat.max_zero]
    | @cons f q fs parts hy hys =>
      rw [List.map_cons, List.map_cons, join_cons_cons, hsep] at hn
      simp only [List.length_append, List.length_cons] at hn
      have ih := ih (by simp) (n := n) (by rw [List.map_cons, hsep]; omega)
      have hopens := (opens_entryText q).join sep (parts.map entryText)
      rw [List.map_cons] at ih
      rw [List.map_cons, List.map_cons, join_cons_cons]
      generalize Text.join sep (entryText q :: parts.map entryText) = joined at *
      obtain ⟨r, hr, hskip⟩ :=
        exists_of_separator hsep hgap (entryText (s, cs)) hopens (brk ++ '\x7d' :: rest)
      rw [hr, members_entry hx (by omega) (endsNumber_comma _), skip_comma,
        Datum.depthOfEntries]
      by_cases hd : x.depth ≤ limit
      · simp only [hskip, ih, Nat.max_le, hd, true_and, if_true]
        split_ifs <;> rfl
      · rw [if_neg hd, if_neg (by omega)]

end members

/-! ## Values -/

/-- Indented by a count of blanks, or on one line, texts as they are. -/
def Style.spaced (indent : Option ℕ) : Style := ⟨indent.map (Text.rule ' '), false, false⟩

omit [Text.Halves] in
theorem mem_lineBreak {indent : Option ℕ} {depth : ℕ} {c : Char}
    (hc : c ∈ lineBreak (.spaced indent) depth) : c = '\n' ∨ c = ' ' := by
  cases indent with
  | none => cases hc
  | some n =>
    refine (List.mem_cons.1 hc).imp_right fun hc => ?_
    obtain ⟨unit, hu, hc⟩ := List.mem_flatten.1 hc
    rw [List.eq_of_mem_replicate hu, Text.rule, String.toList_ofList] at hc
    exact List.eq_of_mem_replicate hc

omit [Text.Halves] in
theorem isGap_lineBreak (indent : Option ℕ) (depth : ℕ) :
    ∀ c ∈ lineBreak (.spaced indent) depth, isGap c = true := by
  intro c hc
  rcases mem_lineBreak hc with rfl | rfl
  all_goals rfl

omit [Text.Halves] in
theorem separator_spaced (indent : Option ℕ) (depth : ℕ) :
    ∃ gap, separator (.spaced indent) depth = ',' :: gap ∧ ∀ c ∈ gap, isGap c = true := by
  cases indent with
  | none => exact ⟨[' '], rfl, by simp [isGap]⟩
  | some n => exact ⟨_, rfl, isGap_lineBreak (some n) depth⟩

theorem value_list (n limit : ℕ) {r : List Char} (hr : Opens (skip r)) :
    value (n + 1) limit ('[' :: r) = match limit with
      | 0 => .error .tooDeep
      | limit + 1 => (elements n limit (skip r)).map fun (ds, rest) => (.list ds, rest) := by
  obtain ⟨c, r', hskip, -, hc, -⟩ := hr
  unfold value
  cases limit with
  | zero => rfl
  | succ limit =>
    simp only [hskip]
    split
    · contradiction
    · rename_i h _
      cases h
      exact absurd rfl hc
    · rename_i h _
      cases h
      rfl

theorem value_map (n limit : ℕ) {r : List Char} (hr : Opens (skip r)) :
    value (n + 1) limit ('\x7b' :: r) = match limit with
      | 0 => .error .tooDeep
      | limit + 1 =>
        (members n limit (skip r)).map fun (es, rest) => (.map (Table.ofList es), rest) := by
  obtain ⟨c, r', hskip, -, -, hc, -⟩ := hr
  unfold value
  cases limit with
  | zero => rfl
  | succ limit =>
    simp only [hskip]
    split
    · contradiction
    · rename_i h _
      cases h
      exact absurd rfl hc
    · rename_i h _
      cases h
      rfl

theorem spelled_scalar {s : Scalar} (hs : s.IsPlain) (style : Style) (ascii : style.ascii = false)
    (depth : ℕ) : Spelled style depth (.scalar s) (writeScalar false s) where
  written := by
    have showable : s.isShowable = true := by
      cases s with
      | int n =>
        have short : n.natAbs < integerBound := hs
        simp [Scalar.isShowable, short]
      | _ => rfl
    rw [writeAt, if_pos showable, ascii]
  opens := opens_writeScalar hs
  read {n limit rest} hn ends := by
    obtain ⟨c, r, hcs, -⟩ := opens_writeScalar hs
    obtain ⟨n, rfl⟩ : ∃ m, n = m + 1 := ⟨n - 1, by
      rw [hcs, List.length_cons] at hn
      omega⟩
    rw [value_writeScalar hs ends]
    exact (if_pos (Nat.zero_le limit)).symm

variable {indent : Option ℕ} {depth : ℕ}

omit [Text.Halves] in
theorem enclose_append (style : Style) (depth : ℕ) (first last : Char) {parts : List (List Char)}
    (hne : parts ≠ []) (rest : List Char) : enclose style depth first last parts ++ rest =
      first :: (lineBreak style (depth + 1) ++ (Text.join (separator style (depth + 1)) parts ++
        (lineBreak style depth ++ last :: rest))) := by
  simp [enclose, hne]

omit [Text.Halves] in
theorem length_enclose (style : Style) (depth : ℕ) (first last : Char) (parts : List (List Char)) :
    (Text.join (separator style (depth + 1)) parts).length + 2 ≤
      (enclose style depth first last parts).length := by
  cases parts with
  | nil => rfl
  | cons cs parts =>
    have h := congrArg List.length
      (enclose_append style depth first last (List.cons_ne_nil cs parts) [])
    simp only [List.append_nil, List.length_cons, List.length_append] at h
    rw [h]
    omega

omit [Text.Halves] in
theorem opens_enclose (style : Style) (depth : ℕ) {first last : Char}
    (h : first = '[' ∨ first = '\x7b') (parts : List (List Char)) :
    Opens (enclose style depth first last parts) := by
  have hcons : ∃ r, enclose style depth first last parts = first :: r := by
    cases parts with
    | nil => exact ⟨_, rfl⟩
    | cons => exact ⟨_, rfl⟩
  obtain ⟨r, hr⟩ := hcons
  refine ⟨first, r, hr, ?_⟩
  rcases h with rfl | rfl
  all_goals decide

omit [Text.Halves] in
/-- The break before the first member is a gap. -/
theorem skip_lineBreak (indent : Option ℕ) (depth : ℕ) {cs : List Char} (h : Opens cs) :
    skip (lineBreak (.spaced indent) depth ++ cs) = cs := by
  rw [skip_append (isGap_lineBreak indent depth), h.skip]

theorem spelled_list {xs : List Datum} {parts : List (List Char)}
    (hw : writeItems (.spaced indent) (depth + 1) xs = some parts)
    (h : List.Forall₂ (Spelled (.spaced indent) (depth + 1)) xs parts) :
    Spelled (.spaced indent) depth (.list xs) (enclose (.spaced indent) depth '[' ']' parts) where
  written := by rw [writeAt, hw, Option.map_some]
  opens := opens_enclose _ _ (.inl rfl) _
  read {n limit rest} hn ends := by
    obtain ⟨gap, hsep, hgap⟩ := separator_spaced indent (depth + 1)
    have hlen := length_enclose (.spaced indent) depth '[' ']' parts
    obtain ⟨n, rfl⟩ : ∃ m, n = m + 1 := ⟨n - 1, by omega⟩
    rw [Datum.depth]
    cases h with
    | nil => cases limit <;> rfl
    | @cons x cs xs parts hx hxs =>
      have hread := elements_join (n := n) hsep hgap (isGap_lineBreak indent depth) (.cons hx hxs)
        (List.cons_ne_nil x xs) (by omega) rest
      have hopens := (hx.opens.join (separator (.spaced indent) (depth + 1)) parts).append
        (lineBreak (.spaced indent) depth ++ ']' :: rest)
      rw [enclose_append _ _ _ _ (List.cons_ne_nil cs parts)]
      generalize Text.join (separator (.spaced indent) (depth + 1)) (cs :: parts) ++
        (lineBreak (.spaced indent) depth ++ ']' :: rest) = r at hread hopens ⊢
      have hskip := skip_lineBreak indent (depth + 1) hopens
      rw [value_list n limit (hskip.symm ▸ hopens), hskip]
      cases limit with
      | zero => simp
      | succ limit =>
        simp only [hread, Nat.add_le_add_iff_right]
        split_ifs <;> rfl

theorem spelled_map {es : List (Scalar × Datum)} {parts : List (String × List Char)}
    (keyed : Table.Keyed es) (hw : writeEntries (.spaced indent) (depth + 1) es = some parts)
    (h : List.Forall₂ (SpelledEntry (.spaced indent) (depth + 1)) es parts) :
    Spelled (.spaced indent) depth (.map es)
      (enclose (.spaced indent) depth '\x7b' '\x7d' (parts.map entryText)) where
  written := by
    rw [writeAt, hw, Option.map_some]
    rfl
  opens := opens_enclose _ _ (.inr rfl) _
  read {n limit rest} hn ends := by
    obtain ⟨gap, hsep, hgap⟩ := separator_spaced indent (depth + 1)
    have hlen := length_enclose (.spaced indent) depth '\x7b' '\x7d' (parts.map entryText)
    obtain ⟨n, rfl⟩ : ∃ m, n = m + 1 := ⟨n - 1, by omega⟩
    rw [Datum.depth]
    cases h with
    | nil => cases limit <;> rfl
    | @cons e p es parts hx hxs =>
      have hread := members_join (n := n) hsep hgap (isGap_lineBreak indent depth) (.cons hx hxs)
        (List.cons_ne_nil e es) (by omega) rest
      rw [List.map_cons] at hread ⊢
      have hopens := ((opens_entryText p).join (separator (.spaced indent) (depth + 1))
        (parts.map entryText)).append (lineBreak (.spaced indent) depth ++ '\x7d' :: rest)
      rw [enclose_append _ _ _ _ (List.cons_ne_nil (entryText p) _)]
      generalize Text.join (separator (.spaced indent) (depth + 1))
        (entryText p :: parts.map entryText) ++
          (lineBreak (.spaced indent) depth ++ '\x7d' :: rest) = r at hread hopens ⊢
      have hskip := skip_lineBreak indent (depth + 1) hopens
      rw [value_map n limit (hskip.symm ▸ hopens), hskip]
      cases limit with
      | zero => simp
      | succ limit =>
        simp only [hread, Nat.add_le_add_iff_right]
        split_ifs
        · simp only [Except.map, Table.ofList_eq keyed]
        · rfl

mutual

/-- A value that scalars with a text of their own are in has a text of its own. -/
theorem spelled (indent : Option ℕ) : ∀ (depth : ℕ) (d : Datum), d.IsJson →
    d.HoldsOnly Scalar.IsPlain → ∃ cs, Spelled (.spaced indent) depth d cs
  | depth, .scalar s, _, plain => by
    rw [Datum.HoldsOnly] at plain
    exact ⟨_, spelled_scalar plain _ rfl depth⟩
  | depth, .list xs, json, plain => by
    rw [Datum.IsJson] at json
    rw [Datum.HoldsOnly] at plain
    obtain ⟨parts, hw, h⟩ := spelledItems indent (depth + 1) xs json plain
    exact ⟨_, spelled_list hw h⟩
  | depth, .map es, json, plain => by
    rw [Datum.IsJson] at json
    rw [Datum.HoldsOnly] at plain
    obtain ⟨parts, hw, h⟩ := spelledEntries indent (depth + 1) es json.1 json.2.2 plain
    exact ⟨_, spelled_map json.2.1 hw h⟩
  | _, .back _, json, _ => by
    rw [Datum.IsJson] at json
    exact json.elim

theorem spelledItems (indent : Option ℕ) : ∀ (depth : ℕ) (xs : List Datum), Datum.ItemsJson xs →
    Datum.ItemsHoldOnly Scalar.IsPlain xs → ∃ parts,
      writeItems (.spaced indent) depth xs = some parts ∧
        List.Forall₂ (Spelled (.spaced indent) depth) xs parts
  | _, [], _, _ => ⟨[], rfl, .nil⟩
  | depth, x :: xs, json, plain => by
    obtain ⟨cs, h⟩ := spelled indent depth x json.1 plain.1
    obtain ⟨parts, hw, hs⟩ := spelledItems indent depth xs json.2 plain.2
    exact ⟨cs :: parts, by rw [writeItems, h.written, hw], .cons h hs⟩

theorem spelledEntries (indent : Option ℕ) : ∀ (depth : ℕ) (es : List (Scalar × Datum)),
    (∀ e ∈ es, ∃ s, e.1 = .text s) → Datum.EntriesJson es →
      Datum.EntriesHoldOnly Scalar.IsPlain es → ∃ parts,
        writeEntries (.spaced indent) depth es = some parts ∧
          List.Forall₂ (SpelledEntry (.spaced indent) depth) es parts
  | _, [], _, _, _ => ⟨[], rfl, .nil⟩
  | depth, (k, x) :: es, keys, json, plain => by
    rw [List.forall_mem_cons] at keys
    obtain ⟨⟨s, hk⟩, keys⟩ := keys
    obtain rfl : k = .text s := hk
    obtain ⟨cs, h⟩ := spelled indent depth x json.1 plain.2.1
    obtain ⟨parts, hw, hs⟩ := spelledEntries indent depth es keys json.2 plain.2.2
    exact ⟨(s, cs) :: parts, by rw [writeEntries, h.written, hw]; rfl, .cons ⟨rfl, h⟩ hs⟩

end

/-- A value is read as it is written, unless lists and tables are nested too deeply in it. -/
theorem read_write? (indent : Option ℕ) {d : Datum} (json : d.IsJson)
    (plain : d.HoldsOnly Scalar.IsPlain) : ∃ s, write? (.spaced indent) d = some s ∧
      read s = if d.depth ≤ depthLimit then .ok d else .error .tooDeep := by
  obtain ⟨cs, h⟩ := spelled indent 0 d json plain
  refine ⟨String.ofList cs, by rw [write?_eq, h.written]; rfl, ?_⟩
  obtain ⟨c, r, hcs, -, -, -, hmark⟩ := h.opens
  have hread : value (2 * cs.length + 2) depthLimit (cs ++ []) =
      if d.depth ≤ depthLimit then .ok (d, []) else .error .tooDeep :=
    h.read (by omega) endsNumber_nil
  rw [List.append_nil] at hread
  have hhead : cs.head? ≠ some '\uFEFF' := by
    rw [hcs]
    simpa using hmark
  rw [read, String.toList_ofList, readChars, if_neg hhead, h.opens.skip, hread]
  split_ifs <;> rfl

end Json

end Colloquy
