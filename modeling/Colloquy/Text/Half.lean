import Colloquy.Text.Digit

/-!
# Halves of surrogate pairs

JSON names a character beyond U+FFFF by a pair of code units and may name one half of a pair without
the other. Such a half is no character. In a text it is kept as a stand-in, so that a text with
halves is a text like any other, and what shows or orders texts takes the stand-in for its half
(`code`). The stand-ins are characters that the texts at hand do not have (`Halves.apart`), in
planes that hold no characters. No two characters of a text have the same code (`code_injective`).
Bytes have no place for a half, so a text with halves cannot be written to a file or stream
(`isWhole`).
-/

namespace Colloquy.Text

/-- The stand-ins for halves, in the order of their code units. -/
@[nospecialize]
class Halves where
  standIns : List Char

namespace Half

/-- Whether a number is the code unit of a half. -/
def isUnit (k : Nat) : Bool := 0xD800 ≤ k && k < 0xE000

theorem not_isUnit (c : Char) : isUnit c.toNat = false := by
  have h : c.toNat < 0xD800 ∨ 0xDFFF < c.toNat ∧ c.toNat < 0x110000 := c.valid
  rw [Bool.eq_false_iff]
  intro hu
  simp only [isUnit, Bool.and_eq_true, decide_eq_true_eq] at hu
  omega

/-- The first code point of the planes that hold no characters. -/
def emptyPlanes : Nat := 0x40000

variable [Halves]

/-- The character with a code point, or the stand-in of a half. -/
def character (k : Nat) : Char :=
  if isUnit k then Halves.standIns.getD (k - 0xD800) '\uFFFD' else Char.ofNat k

/-- The place, among all halves, of the one that a character of a text stands for. -/
def place? (c : Char) : Option Nat :=
  if c.toNat < emptyPlanes then none else (Halves.standIns.idxOf? c).filter (· < 0x800)

/-- Whether a character of a text is the stand-in of a half. -/
def isHalf (c : Char) : Bool := (place? c).isSome

/-- The code point of a character of a text, or the code unit of the half that it stands for. -/
def code (c : Char) : Nat :=
  match place? c with
  | some i => 0xD800 + i
  | none => c.toNat

/-- Whether a half stands for a byte that is no part of UTF-8, as in the names of files. -/
def isByte (c : Char) : Bool :=
  isHalf c && 0xDC80 ≤ code c && code c ≤ 0xDCFF

theorem place?_eq_some {c : Char} {i : Nat} (h : place? c = some i) :
    Halves.standIns[i]? = some c ∧ i < 0x800 := by
  unfold place? at h
  split at h
  · exact absurd h nofun
  · obtain ⟨h, hi⟩ := Option.filter_eq_some_iff.1 h
    obtain ⟨hl, hc, _⟩ := List.idxOf?_eq_some_iff.1 h
    exact ⟨by rw [List.getElem?_eq_getElem hl, hc], of_decide_eq_true hi⟩

theorem isUnit_code (c : Char) : isUnit (code c) = isHalf c := by
  unfold code isHalf
  split
  · next i h =>
    have := (place?_eq_some h).2
    simp only [isUnit, h, Option.isSome_some, Bool.and_eq_true, decide_eq_true_eq]
    omega
  · next h => rw [h, not_isUnit]; rfl

theorem code_injective {c d : Char} (h : code c = code d) : c = d := by
  have hu : isHalf c = isHalf d := by rw [← isUnit_code, ← isUnit_code, h]
  unfold code at h
  unfold isHalf at hu
  split at h
  · next i hc =>
    rw [hc] at hu
    obtain ⟨j, hd⟩ := Option.isSome_iff_exists.1 hu.symm
    rw [hd] at h
    have hij : i = j := Nat.add_left_cancel h
    have hc := (place?_eq_some hc).1
    have hd := (place?_eq_some hd).1
    rw [hij, hd] at hc
    exact (Option.some.inj hc).symm
  · next hc =>
    rw [hc] at hu
    rw [Option.isSome_eq_false_iff.1 hu.symm |> Option.isNone_iff_eq_none.1] at h
    exact Char.toNat_inj.1 h

end Half

variable [Halves]

/-- Whether a text has no halves in it. -/
def isWhole (s : String) : Bool := s.toList.all fun c => !Half.isHalf c

/-- Whether a list of characters comes before another: the first two that differ decide by their
codes, and what has ended comes first. -/
def areBefore : List Char → List Char → Bool
  | [], ds => !ds.isEmpty
  | _ :: _, [] => false
  | c :: cs, d :: ds => Half.code c < Half.code d || (c == d && areBefore cs ds)

/-- Whether a text comes before another. -/
def before (s t : String) : Bool := areBefore s.toList t.toList

/-- Whether a text does not come after another. -/
def notAfter (s t : String) : Bool := !before t s

theorem areBefore_irrefl (cs : List Char) : areBefore cs cs = false := by
  induction cs with
  | nil => rfl
  | cons c cs ih => simp [areBefore, ih]

theorem areBefore_trans {as bs cs : List Char} (hab : areBefore as bs = true)
    (hbc : areBefore bs cs = true) : areBefore as cs = true := by
  induction as generalizing bs cs with
  | nil => cases bs <;> cases cs <;> simp_all [areBefore]
  | cons a as ih =>
    cases bs with
    | nil => simp [areBefore] at hab
    | cons b bs =>
      cases cs with
      | nil => simp [areBefore] at hbc
      | cons c cs =>
        simp only [areBefore, Bool.or_eq_true, decide_eq_true_eq, Bool.and_eq_true,
          beq_iff_eq] at hab hbc ⊢
        rcases hab with hab | ⟨rfl, hab⟩ <;> rcases hbc with hbc | ⟨rfl, hbc⟩
        · exact .inl (Nat.lt_trans hab hbc)
        · exact .inl hab
        · exact .inl hbc
        · exact .inr ⟨rfl, ih hab hbc⟩

theorem eq_of_not_areBefore {cs ds : List Char} (h : areBefore cs ds = false)
    (h' : areBefore ds cs = false) : cs = ds := by
  induction cs generalizing ds with
  | nil => simpa [areBefore] using h
  | cons c cs ih =>
    cases ds with
    | nil => simp [areBefore] at h'
    | cons d ds =>
      simp only [areBefore, Bool.or_eq_false_iff, decide_eq_false_iff_not] at h h'
      have hcd : c = d := Half.code_injective (by omega)
      subst hcd
      simp only [BEq.rfl, Bool.true_and] at h h'
      rw [ih h.2 h'.2]

end Colloquy.Text
