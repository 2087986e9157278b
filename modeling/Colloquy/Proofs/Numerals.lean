import Colloquy.Json.Reader
import Colloquy.Json.Writer
import Mathlib.Data.List.Basic
import Mathlib.Data.Nat.Digits.Defs

/-!
# Numbers in JSON

The digits of a number are read as its value, and the first of them is a zero for zero only, so the
whole part of a number is read to its end (`Json.number_whole`). Fraction and exponent are read on
from there. An integer that is not too long is read as it is written (`Json.leaf_ofInt`).
-/

namespace Colloquy.Json

open Binary64 (signed)

/-! ## Digits -/

theorem isDigit_toDigits (n : ℕ) : ∀ c ∈ Nat.toDigits 10 n, c.isDigit = true :=
  fun _ hc => Nat.isDigit_of_mem_toDigits (by omega) le_rfl hc

theorem length_toDigits_le {n k : ℕ} (hk : 0 < k) (h : n < Nat.pow 10 k) :
    (Nat.toDigits 10 n).length ≤ k :=
  (Nat.length_toDigits_le_iff (by omega) hk).2 h

theorem digitsValue_toDigits (n : ℕ) : digitsValue (Nat.toDigits 10 n) = n :=
  Nat.ofDigitChars_ten_toDigits

theorem digitsValue_zeros_append (k : ℕ) (ds : List Char) :
    digitsValue (List.replicate k '0' ++ ds) = digitsValue ds := by
  have h : digitsValue (List.replicate k '0' ++ ds) =
      Nat.ofDigitChars 10 ds (Nat.ofDigitChars 10 (List.replicate k '0') 0) :=
    Nat.ofDigitChars_append 0
  rw [h, Nat.ofDigitChars_replicate_zero, Nat.mul_zero]
  rfl

theorem digitsValue_append_zeros (ds : List Char) (k : ℕ) :
    digitsValue (ds ++ List.replicate k '0') = digitsValue ds * Nat.pow 10 k := by
  have h : digitsValue (ds ++ List.replicate k '0') =
      Nat.ofDigitChars 10 (List.replicate k '0') (digitsValue ds) := Nat.ofDigitChars_append 0
  rw [h, Nat.ofDigitChars_replicate_zero, Nat.mul_comm]
  rfl

theorem head?_toDigits {n : ℕ} (hn : n ≠ 0) : (Nat.toDigits 10 n).head? ≠ some '0' := by
  induction n using Nat.strongRecOn with
  | ind n ih =>
    rw [Nat.toDigits_eq_if (by omega)]
    split_ifs with hlt
    · simp [Nat.digitChar_eq_zero, hn]
    · have hlow := ih (n / 10) (by omega) (by omega)
      rwa [List.head?_append_of_ne_nil _ Nat.toDigits_ne_nil]

theorem signed_natAbs (n : ℤ) : signed (decide (n < 0)) n.natAbs = n := by
  unfold signed
  simp only [decide_eq_true_eq]
  split_ifs <;> omega

/-- Whether digits are those of the whole part of a number: there are some, and only zero begins
with a zero. -/
structure IsWhole (ds : List Char) : Prop where
  digits : ∀ c ∈ ds, c.isDigit = true
  ne_nil : ds ≠ []
  head : ds = ['0'] ∨ ds.head? ≠ some '0'

theorem isWhole_toDigits (n : ℕ) : IsWhole (Nat.toDigits 10 n) where
  digits := isDigit_toDigits n
  ne_nil := Nat.toDigits_ne_nil
  head := by
    by_cases hn : n = 0
    · rw [hn]
      exact .inl rfl
    · exact .inr (head?_toDigits hn)

/-- Whether a text does not go on with a digit. -/
def EndsDigits (cs : List Char) : Prop := ∀ c ∈ cs.head?, c.isDigit = false

theorem EndsDigits.span {cs : List Char} (h : EndsDigits cs) :
    cs.takeWhile Char.isDigit = [] ∧ cs.dropWhile Char.isDigit = cs := by
  cases cs with
  | nil => exact ⟨rfl, rfl⟩
  | cons c r =>
    have hc := h c rfl
    simp [hc]

/-- Digits are read up to their end. -/
theorem spanDigits {ds rest : List Char} (hd : ∀ c ∈ ds, c.isDigit = true) (hr : EndsDigits rest) :
    (ds ++ rest).takeWhile Char.isDigit = ds ∧ (ds ++ rest).dropWhile Char.isDigit = rest := by
  rw [List.takeWhile_append_of_pos hd, List.dropWhile_append_of_pos hd, hr.span.1,
    hr.span.2, List.append_nil]
  exact ⟨rfl, rfl⟩

/-! ## Numbers -/

theorem fraction_none {cs : List Char} (h : cs.head? ≠ some '.') : fraction cs = ([], cs) := by
  unfold fraction
  split
  · exact absurd rfl h
  · rfl

theorem fraction_digits {ds rest : List Char} (hd : ∀ c ∈ ds, c.isDigit = true) (hne : ds ≠ [])
    (hr : EndsDigits rest) : fraction ('.' :: (ds ++ rest)) = (ds, rest) := by
  obtain ⟨d, ds, rfl⟩ := List.exists_cons_of_ne_nil hne
  rw [List.forall_mem_cons] at hd
  obtain ⟨htake, hdrop⟩ := spanDigits hd.2 hr
  simp [fraction, hd.1, htake, hdrop]

theorem exponent_none {cs : List Char} (h : ∀ c ∈ cs.head?, c ≠ 'e' ∧ c ≠ 'E') :
    exponent cs = (none, cs) := by
  cases cs with
  | nil => rfl
  | cons c r =>
    have hc := h c rfl
    simp [exponent, hc.1, hc.2]

theorem exponent_digits (negative : Bool) {ds rest : List Char}
    (hd : ∀ c ∈ ds, c.isDigit = true) (hne : ds ≠ []) (hr : EndsDigits rest) :
    exponent ('e' :: (if negative then '-' else '+') :: (ds ++ rest)) =
      (some (signed negative (digitsValue ds)), rest) := by
  obtain ⟨htake, hdrop⟩ := spanDigits hd hr
  have hs : Number.Numeral.sign ((if negative then '-' else '+') :: (ds ++ rest)) =
      (negative, ds ++ rest) := by
    cases negative <;> rfl
  simp [exponent, hs, htake, hdrop, hne]

/-- Whether a text does not go on with what belongs to a number. -/
def EndsNumber (cs : List Char) : Prop :=
  ∀ c ∈ cs.head?, c.isDigit = false ∧ c ≠ '.' ∧ c ≠ 'e' ∧ c ≠ 'E'

theorem endsNumber_nil : EndsNumber [] := by
  rintro c ⟨⟩

namespace EndsNumber

variable {cs : List Char} (ends : EndsNumber cs)
include ends

theorem digits : EndsDigits cs := fun c hc => (ends c hc).1

theorem fraction : fraction cs = ([], cs) :=
  fraction_none fun h => (ends '.' h).2.1 rfl

theorem exponent : exponent cs = (none, cs) :=
  exponent_none fun c hc => (ends c hc).2.2

end EndsNumber

/-- A number is read by its parts: sign, whole part, fraction and exponent. -/
theorem number_whole (negative : Bool) {whole part more rest rest' : List Char}
    {power : Option ℤ} (hw : IsWhole whole) (ends : EndsDigits more)
    (hpart : fraction more = (part, rest')) (hpower : exponent rest' = (power, rest)) :
    number ((if negative then ['-'] else []) ++ (whole ++ more)) =
      if part.isEmpty && power.isNone then
        if whole.length ≤ Number.Numeral.digitLimit then
          .ok (.int (signed negative (digitsValue whole)), rest)
        else .error .longInteger
      else .ok (.float (Binary64.ofDecimal negative (digitsValue (whole ++ part))
        (power.getD 0 - part.length)), rest) := by
  obtain ⟨d, ds, rfl⟩ := List.exists_cons_of_ne_nil hw.ne_nil
  have hd : d ≠ '-' := by
    have hdigit := hw.digits d List.mem_cons_self
    rintro rfl
    cases hdigit
  have hbody : (if ((if negative then ['-'] else []) ++ (d :: ds ++ more)).head? = some '-' then
      ((if negative then ['-'] else []) ++ (d :: ds ++ more)).drop 1
      else (if negative then ['-'] else []) ++ (d :: ds ++ more)) = d :: ds ++ more := by
    cases negative <;> simp [hd]
  have hsign : decide (((if negative then ['-'] else []) ++ (d :: ds ++ more)).head? = some '-') =
      negative := by
    cases negative <;> simp [hd]
  have hdrop : (d :: ds ++ more).drop (d :: ds).length = more := List.drop_left
  unfold number
  simp only [hsign, hbody]
  rcases hw.head with h | h
  · cases h
    simp only [List.cons_append, List.nil_append] at hdrop ⊢
    simp only [hdrop, hpart, hpower]
    rfl
  · split
    · rename_i he
      cases he
      exact absurd rfl h
    · simp only [(spanDigits hw.digits ends).1, hdrop, hpart, hpower]
      rfl

/-- No word stands at the beginning of a number. -/
theorem leaf_number {negative : Bool} {whole : List Char} (hw : IsWhole whole) (more : List Char) :
    leaf ((if negative then ['-'] else []) ++ (whole ++ more)) =
      number ((if negative then ['-'] else []) ++ (whole ++ more)) := by
  obtain ⟨c, ds, rfl⟩ := List.exists_cons_of_ne_nil hw.ne_nil
  have hc := hw.digits c List.mem_cons_self
  have hne : c ≠ 'n' ∧ c ≠ 't' ∧ c ≠ 'f' ∧ c ≠ 'N' ∧ c ≠ 'I' ∧ c ≠ '-' := by
    refine ⟨?_, ?_, ?_, ?_, ?_, ?_⟩ <;> (rintro rfl; cases hc)
  obtain ⟨hn, ht, hf, hN, hI, hm⟩ := hne
  cases negative
  · simp [leaf, words, List.isPrefixOf?, hn.symm, ht.symm, hf.symm, hN.symm, hI.symm, hm.symm]
  · simp [leaf, words, List.isPrefixOf?, hI.symm]

theorem leaf_ofInt {n : ℤ} (short : n.natAbs < integerBound) {rest : List Char}
    (ends : EndsNumber rest) : leaf ((Text.ofInt n).toList ++ rest) = .ok (.int n, rest) := by
  unfold integerBound at short
  have hlen := length_toDigits_le (by decide) short
  have hw := isWhole_toDigits n.natAbs
  have h := number_whole (decide (n < 0)) hw ends.digits ends.fraction ends.exponent
  rw [digitsValue_toDigits, signed_natAbs, if_pos hlen, ← leaf_number hw] at h
  rw [Text.ofInt, String.toList_ofList, List.append_assoc]
  simpa using h

end Colloquy.Json
