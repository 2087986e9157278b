/-!
# Decimal digits

The characters of the general category Nd come in runs of ten consecutive code points, from the
digit zero to the digit nine. The table lists the zeros; a digit's value is its distance from the
zero of its run, so the value is always below ten (`value?_lt`).
-/

namespace Colloquy.Text.Digit

/-- The zeros of the decimal digit runs, in code point order. -/
def zeros : List Nat :=
  [48, 1632, 1776, 1984, 2406, 2534, 2662, 2790, 2918, 3046, 3174, 3302, 3430, 3558, 3664, 3792,
   3872, 4160, 4240, 6112, 6160, 6470, 6608, 6784, 6800, 6992, 7088, 7232, 7248, 42528, 43216,
   43264, 43472, 43504, 43600, 44016, 65296, 66720, 68912, 69734, 69872, 69942, 70096, 70384,
   70736, 70864, 71248, 71360, 71472, 71904, 72016, 72784, 73040, 73120, 92768, 92864, 93008,
   120782, 120792, 120802, 120812, 120822, 123200, 123632, 125264, 130032]

/-- The value of a decimal digit of any script. -/
def value? (c : Char) : Option Nat :=
  (zeros.find? fun z => z ≤ c.toNat && c.toNat < z + 10).map (c.toNat - ·)

/-- The value of an ASCII digit. -/
def ascii? (c : Char) : Option Nat :=
  if '0' ≤ c ∧ c ≤ '9' then some (c.toNat - 48) else none

/-- The value of a hexadecimal digit. -/
def hex? (c : Char) : Option Nat :=
  if '0' ≤ c ∧ c ≤ '9' then some (c.toNat - 48)
  else if 'a' ≤ c ∧ c ≤ 'f' then some (c.toNat - 87)
  else if 'A' ≤ c ∧ c ≤ 'F' then some (c.toNat - 55)
  else none

/-- The digit that stands for a number below ten. -/
def ofNat (n : Nat) : Char :=
  Char.ofNat (48 + n)

theorem value?_lt {c : Char} {n : Nat} (h : value? c = some n) : n < 10 := by
  simp only [value?, Option.map_eq_some_iff] at h
  obtain ⟨z, hz, rfl⟩ := h
  have := List.find?_some hz
  simp only [Bool.and_eq_true, decide_eq_true_eq] at this
  omega

theorem value?_of_isDigit {c : Char} (h : c.isDigit) : value? c = some (c.toNat - 48) := by
  simp only [Char.isDigit, Bool.and_eq_true, decide_eq_true_eq] at h
  have h1 : 48 ≤ c.toNat := h.1
  have h2 : c.toNat ≤ 57 := h.2
  simp only [value?, zeros]
  rw [List.find?_cons_of_pos]
  · rfl
  · simp [h1]; omega

theorem ascii?_lt {c : Char} {d : Nat} (h : ascii? c = some d) : d < 10 := by
  unfold ascii? at h
  split at h
  · next hc =>
    have hle : c.toNat ≤ 57 := hc.2
    cases h
    omega
  · exact absurd h nofun

/-- The number that a list of digit values denotes. -/
def toNat (ds : List Nat) : Nat :=
  ds.foldl (fun n d => 10 * n + d) 0

theorem foldl_lt : ∀ {ds : List Nat} {n k : Nat}, (∀ d ∈ ds, d < 10) → n < Nat.pow 10 k →
    ds.foldl (fun n d => 10 * n + d) n < Nat.pow 10 (k + ds.length)
  | [], _, _, _, hn => hn
  | d :: ds, n, k, h, hn => by
    rw [List.foldl_cons, List.length_cons, ← Nat.add_assoc, Nat.add_right_comm]
    refine foldl_lt (fun e he => h e (List.mem_cons_of_mem d he)) ?_
    have hd := h d List.mem_cons_self
    have hp : Nat.pow 10 (k + 1) = Nat.pow 10 k * 10 := rfl
    omega

theorem toNat_lt {ds : List Nat} (h : ∀ d ∈ ds, d < 10) : toNat ds < Nat.pow 10 ds.length := by
  have hl := foldl_lt h (n := 0) (k := 0) Nat.one_pos
  rwa [Nat.zero_add] at hl

end Colloquy.Text.Digit
