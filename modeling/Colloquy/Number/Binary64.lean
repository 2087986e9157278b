/-!
# Binary floating point numbers

A finite number is a sign and a count of units of 2⁻¹⁰⁷⁴, the smallest positive number of the
64-bit format. A count fits when it has at most 53 significant bits and lies below 2¹⁰²⁴. Every
operation is exact arithmetic on counts followed by one rounding to the nearest count that fits,
half to even (`roundUnits`), so comparing numbers is comparing integers. What is not a number has a
payload, which tells one such thing from another and has no part in arithmetic.
-/

namespace Colloquy

def twoPow (k : Nat) : Nat := Nat.pow 2 k

theorem twoPow_pos (k : Nat) : 0 < twoPow k :=
  Nat.two_pow_pos k

/-- The count of units in 2¹⁰²⁴. -/
def unitBound : Nat := twoPow 2098

/-- Whether a count of units is one of the format's numbers. -/
def Fits (units : Nat) : Prop :=
  units < unitBound ∧ units % twoPow (units.log2 - 52) = 0

instance : DecidablePred Fits := fun units =>
  inferInstanceAs (Decidable (units < unitBound ∧ units % twoPow (units.log2 - 52) = 0))

theorem unitBound_pos : 0 < unitBound :=
  twoPow_pos 2098

theorem fits_zero : Fits 0 :=
  ⟨unitBound_pos, Nat.zero_mod _⟩

inductive Binary64 where
  | finite (negative : Bool) (units : Nat) (fits : Fits units)
  | infinite (negative : Bool)
  | nan (payload : Nat)
deriving DecidableEq

namespace Binary64

/-- The number of units in one. -/
def one : Nat := twoPow 1074

instance : Inhabited Binary64 := ⟨.finite false 0 fits_zero⟩

/-- The quotient rounded to the nearest integer, half to even. -/
def roundDiv (num den : Nat) : Nat :=
  let q := num / den
  let r := num % den
  if 2 * r < den then q else if den < 2 * r then q + 1 else q + q % 2

/-- The count with at most 53 significant bits nearest to a quotient, half to even. -/
def roundUnits (num den : Nat) : Nat :=
  let step := twoPow ((num / den).log2 - 52)
  roundDiv num (den * step) * step

/-- The number with a given count of units; a count that is too large makes it infinite. -/
def ofUnits (negative : Bool) (units : Nat) : Binary64 :=
  if h : Fits units then .finite negative units h else .infinite negative

/-- The number nearest to a quotient. -/
def ofRatio (negative : Bool) (num den : Nat) : Binary64 :=
  ofUnits negative (roundUnits (num * one) den)

/-- The number nearest to `digits` times a power of ten. Far outside the range of the format the
power is not computed. -/
def ofDecimal (negative : Bool) (digits : Nat) (exponent : Int) : Binary64 :=
  let leading := (Nat.toDigits 10 digits).length + exponent
  if digits = 0 ∨ leading < -330 then .finite negative 0 fits_zero
  else if 310 < leading then .infinite negative
  else if 0 ≤ exponent then ofRatio negative (digits * Nat.pow 10 exponent.toNat) 1
  else ofRatio negative digits (Nat.pow 10 (-exponent).toNat)

/-- The number nearest to an integer, if it is finite. -/
def ofInt? (n : Int) : Option Binary64 :=
  match ofRatio (n < 0) n.natAbs 1 with
  | .infinite _ => none
  | x => some x

/-- The sign put on a count of units. -/
def signed (negative : Bool) (units : Nat) : Int :=
  if negative then -units else units

def neg : Binary64 → Binary64
  | .finite s u h => .finite (!s) u h
  | .infinite s => .infinite (!s)
  | .nan p => .nan p

/-- The sum; an exact zero is negative only when both terms are. A sum that is no number has the
payload zero. -/
def add : Binary64 → Binary64 → Binary64
  | .nan _, _ => .nan 0
  | _, .nan _ => .nan 0
  | .infinite s, .infinite t => if s = t then .infinite s else .nan 0
  | .infinite s, .finite .. => .infinite s
  | .finite .., .infinite t => .infinite t
  | .finite s u _, .finite t v _ =>
    let total := signed s u + signed t v
    if total = 0 then .finite (s && t) 0 fits_zero
    else ofUnits (total < 0) (roundUnits total.natAbs 1)

def sub (x y : Binary64) : Binary64 :=
  add x (neg y)

def isZero : Binary64 → Bool
  | .finite _ u _ => u = 0
  | _ => false

def isFinite : Binary64 → Bool
  | .finite .. => true
  | _ => false

def isNaN : Binary64 → Bool
  | .nan _ => true
  | _ => false

/-- The integer part toward zero of a finite number. -/
def truncate? : Binary64 → Option Int
  | .finite s u _ => some (signed s (u / one))
  | _ => none

theorem signed_zero (s : Bool) : signed s 0 = 0 := by
  cases s <;> rfl

theorem natAbs_signed (s : Bool) (u : Nat) : (signed s u).natAbs = u := by
  cases s
  · rfl
  · exact Int.natAbs_neg u

theorem add_comm : ∀ x y : Binary64, add x y = add y x
  | .nan _, .nan _ => rfl
  | .nan _, .infinite _ => rfl
  | .nan _, .finite .. => rfl
  | .infinite _, .nan _ => rfl
  | .finite .., .nan _ => rfl
  | .infinite s, .infinite t => by cases s <;> cases t <;> rfl
  | .infinite _, .finite .. => rfl
  | .finite .., .infinite _ => rfl
  | .finite s u _, .finite t v _ => by
    simp only [add, Int.add_comm (signed s u), Bool.and_comm s]

end Binary64

end Colloquy
