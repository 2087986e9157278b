import Colloquy.Number.Shortest
import Colloquy.Proofs.Numerals

/-!
# Floating point numbers in JSON

The number nearest to a decimal depends on its value only, not on zeros at its end
(`Binary64.ofDecimal_mul`). The decimal that is chosen for a number is one that reads back, and if
none of 17 digits did it would be the number's exact value (`Decimal.ofDecimal_shortest`). However
its digits are laid out, reading puts them together again (`Json.spells_magnitude`).
-/

namespace Colloquy

namespace Binary64

theorem roundDiv_mul {k : ℕ} (hk : 0 < k) (num den : ℕ) :
    roundDiv (num * k) (den * k) = roundDiv num den := by
  have hlow : 2 * (num % den * k) < den * k ↔ 2 * (num % den) < den := by
    rw [← Nat.mul_assoc, Nat.mul_lt_mul_right hk]
  have hhigh : den * k < 2 * (num % den * k) ↔ den < 2 * (num % den) := by
    rw [← Nat.mul_assoc, Nat.mul_lt_mul_right hk]
  simp only [roundDiv, Nat.mul_div_mul_right num den hk, Nat.mul_mod_mul_right, hlow, hhigh]

theorem roundUnits_mul {k : ℕ} (hk : 0 < k) (num den : ℕ) :
    roundUnits (num * k) (den * k) = roundUnits num den := by
  simp only [roundUnits, Nat.mul_div_mul_right num den hk, Nat.mul_right_comm den k,
    roundDiv_mul hk]

theorem ofRatio_mul (s : Bool) {k : ℕ} (hk : 0 < k) (num den : ℕ) :
    ofRatio s (num * k) (den * k) = ofRatio s num den := by
  rw [ofRatio, Nat.mul_right_comm, roundUnits_mul hk, ofRatio]

theorem ofDecimal_mul_ten (s : Bool) (digits : ℕ) (e : ℤ) :
    ofDecimal s (digits * 10) e = ofDecimal s digits (e + 1) := by
  by_cases hd : digits = 0
  · simp [ofDecimal, hd]
  have hlen : ((Nat.toDigits 10 (digits * 10)).length : ℤ) + e =
      (Nat.toDigits 10 digits).length + (e + 1) := by
    rw [Nat.toDigits_eq_if (by omega), if_neg (by omega), Nat.mul_div_cancel _ (by omega)]
    simp
    omega
  have hd' : digits * 10 ≠ 0 := by omega
  unfold ofDecimal
  simp only [hlen, hd, hd', false_or]
  refine if_congr Iff.rfl rfl (if_congr Iff.rfl rfl ?_)
  rcases lt_trichotomy e (-1) with hlt | rfl | hgt
  · obtain ⟨n, rfl⟩ : ∃ n : ℕ, e = -(n + 2) := ⟨(-e - 2).toNat, by omega⟩
    rw [if_neg (by omega), if_neg (by omega)]
    have h₁ : (-(-((n : ℤ) + 2))).toNat = n + 1 + 1 := by omega
    have h₂ : (-(-((n : ℤ) + 2) + 1)).toNat = n + 1 := by omega
    rw [h₁, h₂]
    exact ofRatio_mul s (by omega) digits (Nat.pow 10 (n + 1))
  · have h := ofRatio_mul s (k := 10) (by omega) digits 1
    have h₁ : (-(-1 : ℤ)).toNat = 1 := rfl
    have h₂ : (-1 + 1 : ℤ).toNat = 0 := rfl
    have h₃ : Nat.pow 10 1 = 10 := rfl
    have h₄ : digits * Nat.pow 10 0 = digits := Nat.mul_one digits
    rw [if_neg (by omega), if_pos (by omega), h₁, h₂, h₃, h₄]
    rw [Nat.one_mul] at h
    exact h
  · obtain ⟨n, rfl⟩ := Int.eq_ofNat_of_zero_le (show 0 ≤ e by omega)
    rw [if_pos (by omega), if_pos (by omega)]
    have h₁ : ((n : ℤ) + 1).toNat = n + 1 := by omega
    rw [Int.toNat_natCast, h₁]
    have h₂ : digits * 10 * Nat.pow 10 n = digits * Nat.pow 10 (n + 1) := by
      rw [Nat.mul_assoc, Nat.mul_comm 10]
      rfl
    rw [h₂]

/-- Zeros at the end of a decimal can be taken for its exponent. -/
theorem ofDecimal_mul (s : Bool) (digits : ℕ) : ∀ (k : ℕ) (e : ℤ),
    ofDecimal s (digits * Nat.pow 10 k) e = ofDecimal s digits (e + k)
  | 0, e => by simp
  | k + 1, e => by
    have h : digits * Nat.pow 10 (k + 1) = digits * Nat.pow 10 k * 10 := (Nat.mul_assoc ..).symm
    rw [h, ofDecimal_mul_ten, ofDecimal_mul s digits k]
    congr 1
    push_cast
    omega

theorem ofDecimal_sign {s : Bool} {digits units : ℕ} {e : ℤ} {fits : Fits units}
    (h : ofDecimal false digits e = .finite false units fits) :
    ofDecimal s digits e = .finite s units fits := by
  have ratio : ∀ {num den : ℕ}, ofRatio false num den = .finite false units fits →
      ofRatio s num den = .finite s units fits := by
    intro num den hr
    unfold ofRatio ofUnits at *
    split_ifs at hr ⊢ with hf
    cases hr
    rfl
  unfold ofDecimal at *
  simp only at h ⊢
  split_ifs at h ⊢ with hz hi
  · cases h
    rfl
  · exact ratio h
  · exact ratio h

/-- A count of units that fits is not rounded. -/
theorem roundUnits_of_fits {units : ℕ} (fits : Fits units) : roundUnits units 1 = units := by
  have hm := fits.2
  simp only [roundUnits, Nat.div_one, Nat.one_mul]
  have hpos := twoPow_pos (units.log2 - 52)
  generalize twoPow (units.log2 - 52) = step at hm hpos
  have hr : roundDiv units step = units / step := by
    simp [roundDiv, hm, hpos]
  rw [hr]
  exact Nat.div_mul_cancel (Nat.dvd_of_mod_eq_zero hm)

end Binary64

namespace Decimal

open Binary64

theorem ofDecimal_dropZeros (s : Bool) : ∀ (n : ℕ) (d : Decimal),
    ofDecimal s (d.dropZeros n).digits (d.dropZeros n).exponent = ofDecimal s d.digits d.exponent
  | 0, _ => rfl
  | n + 1, d => by
    unfold dropZeros
    split_ifs with hd
    · rw [ofDecimal_dropZeros s n, ← ofDecimal_mul_ten,
        Nat.div_mul_cancel (Nat.dvd_of_mod_eq_zero hd)]
    · rfl

theorem readsAs_withDigits? {units : ℕ} {top : ℤ} {count : ℕ} {d : Decimal}
    (h : withDigits? units top count = some d) : readsAs units d = true := by
  have near : ∀ num den : ℕ, roundDiv num den = num / den ∨ roundDiv num den = num / den + 1 := by
    intro num den
    have := Nat.mod_two_eq_zero_or_one (num / den)
    simp only [roundDiv]
    split_ifs <;> omega
  unfold withDigits? at h
  simp only at h
  generalize top - (count : ℤ) = e at h
  generalize (if 0 ≤ e then units else units * Nat.pow 10 (-e).toNat) = num at h
  generalize (if 0 ≤ e then Nat.pow 10 e.toNat * one else one) = den at h
  split_ifs at h with hboth hlow hhigh
  all_goals
    obtain rfl := Option.some.inj h
  · rw [Bool.and_eq_true] at hboth
    rcases near num den with hn | hn
    · rw [hn]
      exact hboth.1
    · rw [hn]
      exact hboth.2
  · exact hlow
  · exact hhigh

/-- A decimal that is a number exactly reads back as it, where powers of ten are computed. -/
theorem ofDecimal_exactly {units p n : ℕ} (hu : units ≠ 0) (fits : Fits units) (hn : 331 < n)
    (one : p * one = Nat.pow 10 n) (low : Nat.pow 10 (n - 331) ≤ p)
    (high : unitBound * p ≤ Nat.pow 10 (n + 310)) :
    ofDecimal false (units * p) (-n) = .finite false units fits := by
  have hpos : 0 < p := Nat.lt_of_lt_of_le (Nat.pow_pos (by omega)) low
  have iff : ∀ {k : ℕ}, 0 < k → ((Nat.toDigits 10 (units * p)).length ≤ k ↔
      units * p < Nat.pow 10 k) := Nat.length_toDigits_le_iff (by omega)
  have hlow : n - 331 < (Nat.toDigits 10 (units * p)).length := by
    rw [← Nat.not_le, iff (by omega), Nat.not_lt]
    exact Nat.le_trans low (Nat.le_mul_of_pos_left _ (Nat.pos_of_ne_zero hu))
  have hhigh : (Nat.toDigits 10 (units * p)).length ≤ n + 310 := by
    rw [iff (by omega)]
    exact Nat.lt_of_lt_of_le (Nat.mul_lt_mul_of_pos_right fits.1 hpos) high
  have hdigits : units * p ≠ 0 := Nat.mul_ne_zero hu (Nat.ne_of_gt hpos)
  have hround : roundUnits (units * p * Binary64.one) (Nat.pow 10 n) = units := by
    have h := roundUnits_mul (k := Nat.pow 10 n) (Nat.pow_pos (by omega)) units 1
    rw [roundUnits_of_fits fits, Nat.one_mul] at h
    rwa [Nat.mul_assoc, one]
  have hnat : (-(-n : ℤ)).toNat = n := by omega
  unfold ofDecimal
  simp only
  rw [if_neg (by omega), if_neg (by omega), if_neg (by omega), hnat, ofRatio, hround, ofUnits,
    dif_pos fits]

theorem ofDecimal_exact {units : ℕ} (hu : units ≠ 0) (fits : Fits units) :
    ofDecimal false (exact units).digits (exact units).exponent = .finite false units fits :=
  ofDecimal_exactly (n := 1074) hu fits (by omega) (by decide +kernel) (by decide +kernel)
    (by decide +kernel)

/-- The decimal that is chosen for a number reads back as it. -/
theorem ofDecimal_shortest {units : ℕ} (fits : Fits units) :
    ofDecimal false (shortest units).digits (shortest units).exponent =
      .finite false units fits := by
  unfold shortest
  split_ifs with hu
  · subst hu
    rfl
  simp only
  rw [ofDecimal_dropZeros]
  rcases hf : (List.range 17).findSome? fun n => withDigits? units (decade units) (n + 1) with _ | d
  · exact ofDecimal_exact hu fits
  · obtain ⟨n, -, hd⟩ := List.exists_of_findSome?_eq_some hf
    have hreads := of_decide_eq_true (readsAs_withDigits? hd)
    rwa [ofUnits, dif_pos fits] at hreads

theorem shortest_ne_zero {units : ℕ} (fits : Fits units) :
    (shortest units).digits ≠ 0 ∨ (shortest units).exponent = 0 := by
  by_cases hu : units = 0
  · rw [hu]
    exact .inr rfl
  · refine .inl fun hd => hu ?_
    have h := ofDecimal_shortest fits
    rw [hd, ofDecimal, if_pos (.inl rfl)] at h
    cases h
    rfl

end Decimal

namespace Json

open Binary64 (signed ofDecimal)

theorem IsWhole.take {ds : List Char} (hw : IsWhole ds) {k : ℕ} (hk : 0 < k)
    (hlt : k < ds.length) : IsWhole (ds.take k) where
  digits c hc := hw.digits c (List.mem_of_mem_take hc)
  ne_nil h := by
    have := congrArg List.length h
    rw [List.length_take, List.length_nil] at this
    omega
  head := by
    rcases hw.head with rfl | h
    · rw [List.length_singleton] at hlt
      omega
    · rw [List.head?_take, if_neg (by omega)]
      exact .inr h

theorem isWhole_zeros {digits k : ℕ} (h : digits ≠ 0 ∨ k = 0) :
    IsWhole (Nat.toDigits 10 digits ++ List.replicate k '0') := by
  rcases h with hd | rfl
  · refine ⟨?_, by simp, .inr ?_⟩
    · intro c hc
      rcases List.mem_append.1 hc with hc | hc
      · exact isDigit_toDigits digits c hc
      · rw [List.eq_of_mem_replicate hc]
        rfl
    · rw [List.head?_append_of_ne_nil _ Nat.toDigits_ne_nil]
      exact head?_toDigits hd
  · rw [List.replicate_zero, List.append_nil]
    exact isWhole_toDigits digits

variable {units : ℕ} {fits : Fits units}

/-- A number with a fraction or an exponent is the one that is nearest to its decimal. -/
theorem leaf_float {negative : Bool} {whole part more rest' rest : List Char} {power : Option ℤ}
    (hw : IsWhole whole) (ends : EndsDigits more) (hpart : fraction more = (part, rest'))
    (hpower : exponent rest' = (power, rest)) (floats : part ≠ [] ∨ power ≠ none)
    (value : ofDecimal false (digitsValue (whole ++ part)) (power.getD 0 - part.length) =
      .finite false units fits) :
    leaf ((if negative then ['-'] else []) ++ (whole ++ more)) =
      .ok (.float (.finite negative units fits), rest) := by
  have hfloat : ¬ (part.isEmpty && power.isNone) = true := by
    rw [Bool.and_eq_true, List.isEmpty_iff, Option.isNone_iff_eq_none]
    exact not_and_or.2 floats
  rw [leaf_number hw, number_whole _ hw ends hpart hpower, if_neg hfloat,
    Binary64.ofDecimal_sign value]

/-- Whether a text is read, behind a sign or none, as the number with a count of units. -/
def Spells (cs : List Char) (units : ℕ) (fits : Fits units) : Prop :=
  ∀ (negative : Bool) {rest : List Char}, EndsNumber rest →
    leaf ((if negative then ['-'] else []) ++ (cs ++ rest)) =
      .ok (.float (.finite negative units fits), rest)

theorem endsDigits_point (part : List Char) : EndsDigits ('.' :: part) := by
  rintro c ⟨⟩
  rfl

theorem endsDigits_exponent (cs : List Char) : EndsDigits ('e' :: cs) := by
  rintro c ⟨⟩
  rfl

theorem isDigit_zeros_append {ds : List Char} (hd : ∀ c ∈ ds, c.isDigit = true) (k : ℕ) :
    ∀ c ∈ List.replicate k '0' ++ ds, c.isDigit = true := by
  intro c hc
  rcases List.mem_append.1 hc with hc | hc
  · rw [List.eq_of_mem_replicate hc]
    rfl
  · exact hd c hc

section layout

variable {digits : ℕ} {e : ℤ} (value : ofDecimal false digits e = .finite false units fits)
include value

theorem spells_positional (hd : digits ≠ 0 ∨ e = 0) :
    Spells (Layout.positional (Nat.toDigits 10 digits) ((Nat.toDigits 10 digits).length + e))
      units fits := by
  have hdigits := isDigit_toDigits digits
  have hvalue := digitsValue_toDigits digits
  have hw := isWhole_toDigits digits
  have hzeros := @isWhole_zeros digits
  have hlen : 0 < (Nat.toDigits 10 digits).length := Nat.length_toDigits_pos
  generalize Nat.toDigits 10 digits = ds at *
  unfold Layout.positional
  split_ifs with hlow hhigh
  all_goals intro negative rest ends
  · -- a zero before the point, and zeros before the digits behind it
    generalize hk : (-(ds.length + e)).toNat = k
    have hne : List.replicate k '0' ++ ds ≠ [] :=
      List.append_ne_nil_of_right_ne_nil _ hw.ne_nil
    have hpart := fraction_digits (isDigit_zeros_append hdigits k) hne ends.digits
    have hcs : '0' :: '.' :: (List.replicate k '0' ++ ds) ++ rest =
        ['0'] ++ '.' :: (List.replicate k '0' ++ ds ++ rest) := rfl
    rw [hcs]
    refine leaf_float (isWhole_toDigits 0) (endsDigits_point _) hpart ends.exponent (.inl hne) ?_
    have hz : ['0'] ++ (List.replicate k '0' ++ ds) = List.replicate (k + 1) '0' ++ ds := rfl
    have he : (none : Option ℤ).getD 0 - (List.replicate k '0' ++ ds).length = e := by
      rw [List.length_append, List.length_replicate, Option.getD_none]
      omega
    rw [hz, digitsValue_zeros_append, hvalue, he, value]
  · -- zeros behind the digits, and a zero behind the point
    obtain ⟨k, rfl⟩ : ∃ k : ℕ, e = k := ⟨e.toNat, by omega⟩
    have hk : ((ds.length : ℤ) + k).toNat - ds.length = k := by omega
    have hpart : fraction ('.' :: (['0'] ++ rest)) = (['0'], rest) :=
      fraction_digits (by simp) (by simp) ends.digits
    rw [hk, List.append_assoc (ds ++ _)]
    refine leaf_float (hzeros (hd.imp_right (by omega))) (endsDigits_point _) hpart ends.exponent
      (.inl (by simp)) ?_
    have hz : ds ++ List.replicate k '0' ++ ['0'] = ds ++ List.replicate (k + 1) '0' := by
      rw [List.append_assoc, ← List.replicate_succ']
    have he : (none : Option ℤ).getD 0 - ['0'].length + (k + 1 : ℕ) = k := by
      simp
    rw [hz, digitsValue_append_zeros, hvalue, Binary64.ofDecimal_mul, he, value]
  · -- the point among the digits
    generalize hk : (ds.length + e).toNat = k at hhigh ⊢
    have hdrop : ds.drop k ≠ [] := by
      rw [ne_eq, List.drop_eq_nil_iff]
      omega
    have hpart := fraction_digits (fun c hc => hdigits c (List.mem_of_mem_drop hc)) hdrop
      ends.digits
    rw [List.append_assoc]
    refine leaf_float (hw.take (by omega) (by omega)) (endsDigits_point _) hpart ends.exponent
      (.inl hdrop) ?_
    have he : (none : Option ℤ).getD 0 - (ds.drop k).length = e := by
      rw [List.length_drop, Option.getD_none]
      omega
    rw [List.take_append_drop, hvalue, he, value]

theorem spells_scientific (style : Layout) :
    Spells (style.scientific (Nat.toDigits 10 digits) ((Nat.toDigits 10 digits).length + e - 1))
      units fits := by
  have hdigits := isDigit_toDigits digits
  have hvalue := digitsValue_toDigits digits
  obtain ⟨d, more, hds⟩ := List.exists_cons_of_ne_nil (Nat.toDigits_ne_nil (n := digits) (b := 10))
  rw [hds] at hdigits hvalue ⊢
  rw [List.forall_mem_cons] at hdigits
  have hw : IsWhole [d] := by
    refine ⟨by simpa using hdigits.1, by simp, ?_⟩
    by_cases hd : d = '0'
    · exact .inl (by rw [hd])
    · exact .inr (by simpa using hd)
  intro negative rest ends
  generalize hp : ((d :: more).length : ℤ) + e - 1 = power
  have hexponent : ∃ cs, style.scientific (d :: more) power ++ rest =
        [d] ++ ((if more = [] then [] else '.' :: more) ++ 'e' :: cs) ∧
      exponent ('e' :: cs) = (some power, rest) := by
    have h := exponent_digits (decide (power < 0))
      (isDigit_zeros_append (isDigit_toDigits power.natAbs)
        (style.exponentWidth - (Nat.toDigits 10 power.natAbs).length))
      (List.append_ne_nil_of_right_ne_nil _ Nat.toDigits_ne_nil) ends.digits
    rw [digitsValue_zeros_append, digitsValue_toDigits, signed_natAbs] at h
    simp only [decide_eq_true_eq] at h
    refine ⟨_, ?_, h⟩
    cases more <;> simp [Layout.scientific]
  obtain ⟨cs, hcs, hpower⟩ := hexponent
  have hlen : power - more.length = e := by
    rw [List.length_cons] at hp
    omega
  rw [hcs]
  by_cases hmore : more = []
  · subst hmore
    refine leaf_float hw (endsDigits_exponent cs) (fraction_none (by simp)) hpower
      (.inr (by simp)) ?_
    rw [List.append_nil, hvalue, Option.getD_some]
    exact hlen ▸ value
  · rw [if_neg hmore]
    refine leaf_float hw (endsDigits_point _)
      (fraction_digits hdigits.2 hmore (endsDigits_exponent cs)) hpower (.inr (by simp)) ?_
    rw [List.singleton_append, hvalue, Option.getD_some, hlen, value]

end layout

theorem spells_magnitude (style : Layout) (fits : Fits units) :
    Spells (style.magnitude units) units fits := by
  have value := Decimal.ofDecimal_shortest fits
  unfold Layout.magnitude
  simp only
  split_ifs
  · exact spells_positional value (Decimal.shortest_ne_zero fits)
  · exact spells_scientific value style

/-- A floating point number that is not NaN is read as it is written. -/
theorem leaf_float_write {x : Binary64} (hx : x.isNaN = false) {rest : List Char}
    (ends : EndsNumber rest) : leaf (numberLayout.write x ++ rest) = .ok (.float x, rest) := by
  cases x with
  | finite negative units fits =>
    rw [Layout.write, List.append_assoc]
    exact spells_magnitude numberLayout fits negative ends
  | infinite negative =>
    cases negative <;> rfl
  | nan => cases hx

end Json

end Colloquy
