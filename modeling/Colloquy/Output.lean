import Colloquy.Fault

/-!
# Output

Files and streams take a text in parts, one after the other, as bytes of UTF-8. A part with half a
surrogate pair in it has no bytes: it is not written, nor is anything behind it (`Output.written`).
-/

namespace Colloquy.Output

variable [Text.Halves]

/-- What is written of some parts, and why not all of them are. -/
def written (parts : List String) : String × Option Fault :=
  (String.join (parts.takeWhile Text.isWhole),
    if parts.all Text.isWhole then none else some .notEncodable)

theorem written_of_isWhole {parts : List String} (h : ∀ s ∈ parts, Text.isWhole s = true) :
    written parts = (String.join parts, none) := by
  have ht : parts.takeWhile Text.isWhole = parts := by
    induction parts with
    | nil => rfl
    | cons s parts ih =>
      simp only [List.mem_cons, forall_eq_or_imp] at h
      simp [h.1, ih h.2]
  rw [written, if_pos (List.all_eq_true.2 h), ht]

end Colloquy.Output
