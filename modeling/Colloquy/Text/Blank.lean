/-!
# Blank characters

The characters with the Unicode property White_Space together with the four information separators
U+001C to U+001F. Trimming removes them at both ends of a text (`strip`) and nowhere else: what is
left neither begins nor ends with one, and trimming twice is trimming once (`strip_strip`).
-/

namespace Colloquy.Text

def isBlank (c : Char) : Bool :=
  let n := c.toNat
  (9 ≤ n && n ≤ 13) || (28 ≤ n && n ≤ 32) || n == 0x85 || n == 0xA0 || n == 0x1680
    || (0x2000 ≤ n && n ≤ 0x200A) || n == 0x2028 || n == 0x2029 || n == 0x202F || n == 0x205F
    || n == 0x3000

/-- The blanks that may surround a numeral: the information separators are not among them. -/
def isNumeralBlank (c : Char) : Bool :=
  isBlank c && !(28 ≤ c.toNat && c.toNat ≤ 31)

/-- Drops the characters of a class at the end of a text. -/
def dropEnd (p : Char → Bool) : List Char → List Char
  | [] => []
  | c :: r =>
    match dropEnd p r with
    | [] => if p c then [] else [c]
    | kept => c :: kept

/-- Drops the characters of a class at both ends of a text. -/
def trim (p : Char → Bool) (cs : List Char) : List Char :=
  dropEnd p (cs.dropWhile p)

def strip (cs : List Char) : List Char :=
  trim isBlank cs

theorem isBlank_of_isWhitespace {c : Char} (h : c.isWhitespace) : isBlank c := by
  simp only [Char.isWhitespace, Bool.or_eq_true, decide_eq_true_eq] at h
  rcases h with ((h | h) | h) | h <;> subst h <;> decide

theorem dropEnd_eq_nil_iff {p : Char → Bool} :
    ∀ {cs : List Char}, dropEnd p cs = [] ↔ ∀ c ∈ cs, p c
  | [] => by simp [dropEnd]
  | c :: r => by
    have ih : dropEnd p r = [] ↔ ∀ c ∈ r, p c := dropEnd_eq_nil_iff
    simp only [dropEnd]
    split
    · next h =>
      by_cases hc : p c
      · simp [hc]
        exact ih.1 h
      · simp [hc]
    · next kept h =>
      constructor
      · intro h'; simp at h'
      · intro h'
        exact absurd (ih.2 fun d hd => h' d (List.mem_cons_of_mem _ hd)) (by simpa using h)

theorem dropEnd_cons_of_not {p : Char → Bool} {c : Char} {r : List Char} (h : ¬ p c) :
    dropEnd p (c :: r) = c :: dropEnd p r := by
  cases hr : dropEnd p r <;> simp [dropEnd, hr, h]

theorem dropEnd_dropEnd (p : Char → Bool) :
    ∀ cs : List Char, dropEnd p (dropEnd p cs) = dropEnd p cs
  | [] => rfl
  | c :: r => by
    have ih := dropEnd_dropEnd p r
    cases hr : dropEnd p r with
    | nil => by_cases hc : p c <;> simp [dropEnd, hr, hc]
    | cons d kept =>
      rw [hr] at ih
      simp [dropEnd, hr] at ih ⊢
      rw [ih]

theorem trim_trim (p : Char → Bool) (cs : List Char) : trim p (trim p cs) = trim p cs := by
  unfold trim
  cases h : cs.dropWhile p with
  | nil => rfl
  | cons d r =>
    have hd : ¬ p d := by
      have := List.head?_dropWhile_not p cs
      rw [h] at this
      simpa using this
    rw [dropEnd_cons_of_not hd, List.dropWhile_cons_of_neg hd, dropEnd_cons_of_not hd,
      dropEnd_dropEnd]

theorem strip_strip (cs : List Char) : strip (strip cs) = strip cs :=
  trim_trim isBlank cs

theorem dropEnd_begins (p : Char → Bool) : ∀ cs : List Char, dropEnd p cs <+: cs
  | [] => List.prefix_rfl
  | c :: r => by
    have ih := dropEnd_begins p r
    cases hr : dropEnd p r with
    | nil => by_cases hc : p c <;> simp [dropEnd, hr, hc]
    | cons d kept =>
      rw [hr] at ih
      simpa [dropEnd, hr] using ih

theorem dropEnd_eq_self_iff {p : Char → Bool} :
    ∀ {cs : List Char}, dropEnd p cs = cs ↔ ∀ c ∈ cs.getLast?, ¬ p c
  | [] => by simp [dropEnd]
  | [c] => by by_cases hc : p c <;> simp [dropEnd, hc]
  | c :: d :: r => by
    have ih : dropEnd p (d :: r) = d :: r ↔ _ := dropEnd_eq_self_iff
    rw [List.getLast?_cons_cons, ← ih, dropEnd]
    cases dropEnd p (d :: r) with
    | nil => by_cases hc : p c <;> simp [hc]
    | cons e kept => simp

/-- Characters of the class at the end do not count. -/
theorem dropEnd_append {p : Char → Bool} {w : List Char} (h : ∀ c ∈ w, p c) :
    ∀ cs : List Char, dropEnd p (cs ++ w) = dropEnd p cs
  | [] => by
    rw [List.nil_append]
    exact dropEnd_eq_nil_iff.2 h
  | c :: r => by rw [List.cons_append, dropEnd, dropEnd_append h r, dropEnd]

theorem exists_dropEnd (p : Char → Bool) : ∀ cs : List Char,
    ∃ w, (∀ c ∈ w, p c) ∧ cs = dropEnd p cs ++ w
  | [] => ⟨[], nofun, rfl⟩
  | c :: r => by
    obtain ⟨w, hw, he⟩ := exists_dropEnd p r
    cases hr : dropEnd p r with
    | nil =>
      rw [hr, List.nil_append] at he
      by_cases hc : p c
      · exact ⟨c :: w, List.forall_mem_cons.2 ⟨hc, hw⟩, by simp [dropEnd, hr, hc, ← he]⟩
      · exact ⟨w, hw, by simp [dropEnd, hr, hc, ← he]⟩
    | cons d kept =>
      rw [hr] at he
      exact ⟨w, hw, by rw [dropEnd, hr, List.cons_append, ← he]⟩

theorem trim_eq_self_iff {p : Char → Bool} {cs : List Char} :
    trim p cs = cs ↔ (∀ c ∈ cs.head?, ¬ p c) ∧ ∀ c ∈ cs.getLast?, ¬ p c := by
  rw [← dropEnd_eq_self_iff]
  constructor
  · intro h
    have hd : cs.dropWhile p = cs := by
      apply (List.dropWhile_suffix p).eq_of_length
      have hle := (dropEnd_begins p (cs.dropWhile p)).length_le
      have hge := (List.dropWhile_suffix p (l := cs)).length_le
      rw [show dropEnd p (cs.dropWhile p) = cs from h] at hle
      omega
    refine ⟨fun c hc => ?_, by rwa [trim, hd] at h⟩
    have hn := List.head?_dropWhile_not p cs
    rw [hd, Option.mem_def.1 hc] at hn
    simp [hn]
  · intro ⟨hh, hl⟩
    cases cs with
    | nil => rfl
    | cons c r =>
      rw [trim, List.dropWhile_cons_of_neg (hh c rfl), hl]

/-- Characters of the class around a text do not count. -/
theorem trim_append {p : Char → Bool} {w w' : List Char} (h : ∀ c ∈ w, p c) (h' : ∀ c ∈ w', p c)
    (cs : List Char) : trim p (w ++ cs ++ w') = trim p cs := by
  rw [trim, List.append_assoc, List.dropWhile_append_of_pos h, List.dropWhile_append, trim]
  split
  · next hd =>
    rw [List.isEmpty_iff.1 hd]
    exact dropEnd_eq_nil_iff.2 fun c hc => h' c (List.dropWhile_suffix p |>.subset hc)
  · exact dropEnd_append h' _

theorem exists_trim (p : Char → Bool) (cs : List Char) : ∃ w w', (∀ c ∈ w, p c) ∧
    (∀ c ∈ w', p c) ∧ cs = w ++ trim p cs ++ w' := by
  obtain ⟨w, hw, he⟩ := exists_dropEnd p (cs.dropWhile p)
  refine ⟨cs.takeWhile p, w, fun c hc => List.all_eq_true.1 List.all_takeWhile c hc, hw, ?_⟩
  rw [trim, List.append_assoc, ← he, List.takeWhile_append_dropWhile]

theorem trim_dropEnd (p : Char → Bool) (cs : List Char) : trim p (dropEnd p cs) = trim p cs := by
  obtain ⟨w, hw, he⟩ := exists_dropEnd p cs
  have h := trim_append (fun _ hc => absurd hc List.not_mem_nil) hw (dropEnd p cs)
  rw [List.nil_append, ← he] at h
  exact h.symm

theorem dropEnd_ne_nil {p : Char → Bool} {cs : List Char} (h : trim p cs ≠ []) :
    dropEnd p cs ≠ [] := by
  intro hd
  rw [← trim_dropEnd, hd] at h
  exact h rfl

theorem dropEnd_append_of_ne_nil {p : Char → Bool} {b : List Char} (h : dropEnd p b ≠ []) :
    ∀ a : List Char, dropEnd p (a ++ b) = a ++ dropEnd p b
  | [] => rfl
  | c :: a => by
    rw [List.cons_append, dropEnd, dropEnd_append_of_ne_nil h a]
    cases hab : a ++ dropEnd p b with
    | nil => exact absurd (List.append_eq_nil_iff.1 hab).2 h
    | cons => rw [List.cons_append, hab]

/-- Of what goes on from a text that does not begin with a blank only the end is trimmed. -/
theorem strip_append {a b : List Char} (ha : ∃ c r, a = c :: r ∧ ¬ isBlank c)
    (hb : strip b ≠ []) : strip (a ++ b) = a ++ dropEnd isBlank b := by
  obtain ⟨c, r, rfl, hc⟩ := ha
  rw [strip, trim, List.cons_append, List.dropWhile_cons_of_neg hc, ← List.cons_append,
    dropEnd_append_of_ne_nil (dropEnd_ne_nil hb)]

/-- A text that begins with a blank still does when only its end is trimmed. -/
theorem dropEnd_ne_strip {cs : List Char} {c : Char} (h : strip cs ≠ []) (hc : c ∈ cs.head?)
    (blank : isBlank c) : dropEnd isBlank cs ≠ strip cs := by
  intro he
  have trimmed := (trim_eq_self_iff.1 (strip_strip cs)).1
  obtain ⟨d, r, hd⟩ := List.exists_cons_of_ne_nil h
  obtain ⟨rest, hr⟩ := dropEnd_begins isBlank cs
  rw [he, hd, List.cons_append] at hr
  rw [← hr] at hc
  obtain rfl : d = c := Option.some.inj hc
  exact trimmed d (by rw [hd]; rfl) blank

/-- What begins and ends with a trimmed text is trimmed. -/
theorem strip_between {a b : List Char} (ha : strip a = a) (hb : strip b = b) (hna : a ≠ [])
    (hnb : b ≠ []) (m : List Char) : strip (a ++ m ++ b) = a ++ m ++ b := by
  rw [strip, trim_eq_self_iff] at *
  cases a with
  | nil => exact absurd rfl hna
  | cons c r =>
    have hl : (c :: r ++ m ++ b).getLast? = b.getLast? := by
      rw [List.getLast?_append, List.getLast?_eq_some_getLast hnb, Option.some_or]
    exact ⟨ha.1, hl ▸ hb.2⟩

end Colloquy.Text
