import Colloquy.Text.Half

/-!
# The choice of stand-ins

The halves in a text get stand-ins that the text does not have itself (`not_isHalf_of_mem`) and does
not name by an escape as far as that shows. They lie in planes that hold no characters, so a
stand-in is as little a letter, a digit or a blank as a half is.
-/

namespace Colloquy.Text.Halves

/-- The number that a text begins with as `u` and four hexadecimal digits. -/
def unit? : List Char → Option Nat
  | 'u' :: a :: b :: c :: d :: _ =>
    match Digit.hex? a, Digit.hex? b, Digit.hex? c, Digit.hex? d with
    | some a, some b, some c, some d => some (0x1000 * a + 0x100 * b + 0x10 * c + d)
    | _, _, _, _ => none
  | _ => none

/-- The code point of the pair that a text begins with as two units. -/
def pair? (cs : List Char) : Option Nat := do
  let a ← unit? cs
  let b ← unit? (cs.drop 5)
  if 0xD800 ≤ a && a < 0xDC00 && 0xDC00 ≤ b && b < 0xE000 then
    some (0x10000 + 0x400 * (a - 0xD800) + (b - 0xDC00))
  else none

/-- The byte that a text begins with as two hexadecimal digits, and what is behind it and a percent
sign. -/
def byte? : List Char → Option (Nat × List Char)
  | a :: b :: r =>
    match Digit.hex? a, Digit.hex? b, r with
    | some m, some n, '%' :: r => some (16 * m + n, r)
    | some m, some n, r => some (16 * m + n, r)
    | _, _, _ => none
  | _ => none

/-- The code point that a text begins with as four bytes of UTF-8. -/
def encoded? (cs : List Char) : Option Nat := do
  let (a, cs) ← byte? cs
  let (b, cs) ← byte? cs
  let (c, cs) ← byte? cs
  let (d, _) ← byte? cs
  if 0xF0 < a && a < 0xF4 then
    some (0x40000 * (a - 0xF0) + 0x1000 * (b - 0x80) + 0x40 * (c - 0x80) + (d - 0x80))
  else none

/-- The code points that a text names, its backslashes apart. -/
def named : List Char → List Nat
  | [] => []
  | c :: r => (pair? (c :: r)).toList ++ (encoded? (c :: r)).toList ++ named r

/-- The code points that no stand-in of a text can have. -/
def taken (cs : List Char) : List Nat :=
  (cs.map Char.toNat ++ named (cs.filter (· ≠ '\\'))).filter (Half.emptyPlanes ≤ ·)

/-- The code points that are tried for the stand-ins of a text, enough of them to have some left. -/
def tried (cs : List Char) : List Nat :=
  let start := cs.foldl (fun n c => (31 * n + c.toNat) % 0xA0000) 0
  (List.range (0x800 + (taken cs).length)).map fun n => Half.emptyPlanes + (start + n) % 0xA0000

/-- Stand-ins for the halves that a text names. -/
@[reducible]
def apart (cs : List Char) : Halves where
  standIns :=
    let taken := taken cs
    ((tried cs).filter fun n => !taken.contains n).map Char.ofNat

theorem toNat_mem_taken {c : Char} {cs : List Char} (h : c ∈ cs) (hc : Half.emptyPlanes ≤ c.toNat) :
    c.toNat ∈ taken cs :=
  List.mem_filter.2 ⟨List.mem_append_left _ (List.mem_map_of_mem h), decide_eq_true hc⟩

theorem toNat_of_mem_tried {cs : List Char} {n : Nat} (h : n ∈ tried cs) :
    (Char.ofNat n).toNat = n := by
  obtain ⟨m, -, rfl⟩ := List.mem_map.1 h
  have hv : (Half.emptyPlanes + ((cs.foldl (fun n c => (31 * n + c.toNat) % 0xA0000) 0) + m) %
      0xA0000).isValidChar := by
    refine .inr ⟨?_, ?_⟩ <;> simp only [Half.emptyPlanes] <;> omega
  rw [Char.ofNat, dif_pos hv]
  rfl

/-- No character of a text is taken for a stand-in. -/
theorem not_isHalf_of_mem {cs : List Char} {c : Char} (h : c ∈ cs) :
    @Half.isHalf (apart cs) c = false := by
  rw [Bool.eq_false_iff]
  intro hh
  obtain ⟨i, hi⟩ := Option.isSome_iff_exists.1 hh
  have hc : Half.emptyPlanes ≤ c.toNat := by
    unfold Half.place? at hi
    split at hi
    · exact absurd hi nofun
    · next hlt => exact Nat.le_of_not_lt hlt
  have hm : c ∈ (apart cs).standIns :=
    List.mem_of_getElem? (@Half.place?_eq_some (apart cs) c i hi).1
  obtain ⟨n, hn, rfl⟩ := List.mem_map.1 hm
  obtain ⟨ht, hn⟩ := List.mem_filter.1 hn
  have hv := toNat_mem_taken h hc
  rw [toNat_of_mem_tried ht] at hv
  simp only [Bool.not_eq_true', List.contains_eq_mem, decide_eq_false_iff_not] at hn
  exact hn hv

end Colloquy.Text.Halves
