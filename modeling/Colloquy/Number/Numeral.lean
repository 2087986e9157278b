import Colloquy.Number
import Colloquy.Text.Blank
import Colloquy.Text.Digit

/-!
# Numerals

A numeral is an optional sign and decimal digits of any script, with single underscores allowed
between digits, possibly a fraction and an exponent, and blanks around it. Without fraction and
exponent it denotes an integer, up to a bound on the count of its digits; any other numeral denotes
the nearest floating point number, and none if that is infinite.
-/

namespace Colloquy.Number.Numeral

open Text

/-- The greatest count of digits an integer may have. -/
def digitLimit : Nat := 4300

/-- The digits that continue a run, an underscore counting only before a digit, and the text after
them. -/
def moreDigits : List Char → List Nat × List Char
  | [] => ([], [])
  | '_' :: c :: r =>
    match Digit.ascii? c with
    | some d => let (ds, rest) := moreDigits r
      (d :: ds, rest)
    | none => ([], '_' :: c :: r)
  | c :: r =>
    match Digit.ascii? c with
    | some d => let (ds, rest) := moreDigits r
      (d :: ds, rest)
    | none => ([], c :: r)

/-- A run of digits with single underscores between them, and the text after it. -/
def digits? : List Char → Option (List Nat × List Char)
  | [] => none
  | c :: r => (Digit.ascii? c).map fun d => (d :: (moreDigits r).1, (moreDigits r).2)

/-- Takes a sign off the front; true stands for minus. -/
def sign : List Char → Bool × List Char
  | '-' :: r => (true, r)
  | '+' :: r => (false, r)
  | cs => (false, cs)

/-- The text without blanks around it and with every digit in ASCII. -/
def plain (cs : List Char) : List Char :=
  (trim isNumeralBlank cs).map fun c => ((Digit.value? c).map Digit.ofNat).getD c

def int? (cs : List Char) : Option Int :=
  let (negative, body) := sign (plain cs)
  match digits? body with
  | some (ds, []) =>
    if ds.length ≤ digitLimit then some (Binary64.signed negative (Digit.toNat ds)) else none
  | _ => none

/-- The digits after a point, if there is one. -/
def fraction : List Char → List Nat × List Char
  | '.' :: r => (digits? r).getD ([], r)
  | cs => ([], cs)

/-- The power of ten at the end of a numeral; `none` if what is left is not one. -/
def exponent? : List Char → Option Int
  | [] => some 0
  | c :: r =>
    if c = 'e' ∨ c = 'E' then
      let (negative, body) := sign r
      match digits? body with
      | some (ds, []) => some (Binary64.signed negative (Digit.toNat ds))
      | _ => none
    else none

def float? (cs : List Char) : Option Binary64 :=
  let (negative, body) := sign (plain cs)
  let (whole, body) := (digits? body).getD ([], body)
  let (part, body) := fraction body
  match exponent? body with
  | none => none
  | some e =>
    if whole = [] ∧ part = [] then none
    else
      let x := Binary64.ofDecimal negative (Digit.toNat (whole ++ part)) (e - part.length)
      if x.isFinite then some x else none

/-- The number that a text denotes. -/
def read? (cs : List Char) : Option Number :=
  match int? cs with
  | some n => some (.int n)
  | none => (float? cs).map .float

theorem moreDigits_lt {cs : List Char} : ∀ d ∈ (moreDigits cs).1, d < 10 := by
  fun_induction moreDigits cs with
  | case1 => nofun
  | case2 c r d hd ds rest he ih =>
    rw [he] at ih
    exact List.forall_mem_cons.2 ⟨Digit.ascii?_lt hd, ih⟩
  | case3 => nofun
  | case4 c r _ d hd ds rest he ih =>
    rw [he] at ih
    exact List.forall_mem_cons.2 ⟨Digit.ascii?_lt hd, ih⟩
  | case5 => nofun

theorem digits?_lt {cs rest : List Char} {ds : List Nat} (h : digits? cs = some (ds, rest)) :
    ∀ d ∈ ds, d < 10 := by
  cases cs with
  | nil => exact absurd h nofun
  | cons c r =>
    obtain ⟨d, hd, he⟩ := Option.map_eq_some_iff.1 h
    cases he
    exact List.forall_mem_cons.2 ⟨Digit.ascii?_lt hd, moreDigits_lt⟩

/-- An integer that is read has no more digits than there may be. -/
theorem int?_lt {cs : List Char} {n : Int} (h : int? cs = some n) :
    n.natAbs < Nat.pow 10 digitLimit := by
  simp only [int?] at h
  split at h
  · next ds hds =>
    split at h
    · next hlen =>
      cases h
      have hle : ∀ m, ds.length ≤ m → Nat.pow 10 ds.length ≤ Nat.pow 10 m := fun m =>
        Nat.pow_le_pow_right (by decide)
      rw [Binary64.natAbs_signed]
      exact Nat.lt_of_lt_of_le (Digit.toNat_lt (digits?_lt hds)) (hle _ hlen)
    · exact absurd h nofun
  · exact absurd h nofun

theorem isFinite_of_float? {cs : List Char} {x : Binary64} (h : float? cs = some x) :
    x.isFinite = true := by
  simp only [float?] at h
  split at h
  · exact absurd h nofun
  · split at h
    · exact absurd h nofun
    · split at h
      · next hx => cases h; exact hx
      · exact absurd h nofun

/-- What is read is an integer with so many digits at most, or a finite number. -/
theorem read?_cases {cs : List Char} {x : Number} (h : read? cs = some x) :
    (∃ n, x = .int n ∧ n.natAbs < Nat.pow 10 digitLimit) ∨
      ∃ y, x = .float y ∧ y.isFinite = true := by
  unfold read? at h
  split at h
  · next n hn =>
    cases h
    exact .inl ⟨n, rfl, int?_lt hn⟩
  · obtain ⟨y, hy, rfl⟩ := Option.map_eq_some_iff.1 h
    exact .inr ⟨y, rfl, isFinite_of_float? hy⟩

example : read? " 1_000 ".toList = some (.int 1000) := by decide +kernel

example : (read? "1__0".toList, read? "0x10".toList, read? "inf".toList) = (none, none, none) := by
  decide +kernel

end Colloquy.Number.Numeral
