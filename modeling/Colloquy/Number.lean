import Colloquy.Number.Binary64

/-!
# Numbers

A number is an integer of any size or a binary floating point number. The two kinds are compared by
their exact values: every number that is not NaN has a rank, and order and equality are those of
ranks (`Number.rank?`). Sums of two integers are exact; a sum with a floating point number is one,
and fails when the integer is beyond the format's range.
-/

namespace Colloquy

inductive Number where
  | int (n : Int)
  | float (x : Binary64)
deriving DecidableEq, Inhabited

namespace Number

/-- Where a number stands in the order: below, among or above the finite ones, and there its count
of units. -/
structure Rank where
  level : Int
  units : Int
deriving DecidableEq

namespace Rank

def lt (a b : Rank) : Bool :=
  a.level < b.level || (a.level == b.level && a.units < b.units)

theorem lt_irrefl (a : Rank) : a.lt a = false := by
  simp [lt]

theorem lt_asymm {a b : Rank} (h : a.lt b = true) : b.lt a = false := by
  simp only [lt, Bool.or_eq_true, Bool.and_eq_true, decide_eq_true_eq, beq_iff_eq] at h
  simp only [lt, Bool.or_eq_false_iff, Bool.and_eq_false_iff, decide_eq_false_iff_not,
    beq_eq_false_iff_ne]
  omega

theorem lt_or_lt_of_ne {a b : Rank} (h : a ≠ b) : a.lt b = true ∨ b.lt a = true := by
  obtain ⟨l, u⟩ := a
  obtain ⟨m, v⟩ := b
  simp only [ne_eq, mk.injEq, not_and] at h
  simp only [lt, Bool.or_eq_true, Bool.and_eq_true, decide_eq_true_eq, beq_iff_eq]
  omega

end Rank

def rank? : Number → Option Rank
  | .int n => some ⟨0, n * Binary64.one⟩
  | .float (.finite s u _) => some ⟨0, Binary64.signed s u⟩
  | .float (.infinite s) => some ⟨if s then -1 else 1, 0⟩
  | .float (.nan _) => none

/-- Whether two numbers have the same exact value; NaN has none. -/
def same (a b : Number) : Bool :=
  match a.rank?, b.rank? with
  | some x, some y => x == y
  | _, _ => false

def lt (a b : Number) : Bool :=
  match a.rank?, b.rank? with
  | some x, some y => x.lt y
  | _, _ => false

def le (a b : Number) : Bool :=
  a.lt b || a.same b

def isZero : Number → Bool
  | .int n => n == 0
  | .float x => x.isZero

/-- A number as a floating point one, unless it is an integer beyond the format's range. -/
def toBinary64? : Number → Option Binary64
  | .int n => Binary64.ofInt? n
  | .float x => some x

def neg : Number → Number
  | .int n => .int (-n)
  | .float x => .float x.neg

def add? : Number → Number → Option Number
  | .int m, .int n => some (.int (m + n))
  | a, b => do return .float ((← a.toBinary64?).add (← b.toBinary64?))

def sub? : Number → Number → Option Number
  | .int m, .int n => some (.int (m - n))
  | a, b => do return .float ((← a.toBinary64?).sub (← b.toBinary64?))

theorem same_comm (a b : Number) : a.same b = b.same a := by
  unfold same
  cases a.rank? <;> cases b.rank? <;> simp [Bool.beq_comm]

theorem same_int_iff {m n : Int} : (Number.int m).same (.int n) = true ↔ m = n := by
  have h : (Binary64.one : Int) ≠ 0 := Int.ofNat_ne_zero.2 (Nat.ne_of_gt (twoPow_pos 1074))
  simp only [same, rank?, beq_iff_eq, Rank.mk.injEq, true_and]
  exact ⟨Int.eq_of_mul_eq_mul_right h, fun e => by rw [e]⟩

theorem lt_asymm {a b : Number} (h : a.lt b = true) : b.lt a = false := by
  unfold lt at *
  cases ha : a.rank? <;> cases hb : b.rank? <;> simp only [ha, hb] at h ⊢
  exact Rank.lt_asymm h

end Number

end Colloquy
