import Colloquy.Text.Blank
import Colloquy.Text.Cut

/-!
# Paths

A path names a value inside the context by the keys on the way to it, written with points between
them. Blanks around a key do not count, and every text is a path: the empty text is the path of the
empty key.
-/

namespace Colloquy

/-- The keys on the way to a value. -/
abbrev Path := List String

namespace Path

def split (s : String) : Path :=
  (Text.splitAt '.' s.toList).map fun piece => String.ofList (Text.strip piece)

theorem split_ne_nil (s : String) : split s ≠ [] := by
  simp [split, Text.splitAt_ne_nil]

theorem not_isBlank_point : ¬ Text.isBlank '.' := by decide

theorem map_strip_front {w : List Char} (h : ∀ c ∈ w, Text.isBlank c) (cs : List Char) :
    (Text.splitAt '.' (w ++ cs)).map Text.strip = (Text.splitAt '.' cs).map Text.strip := by
  induction w with
  | nil => rfl
  | cons c w ih =>
    rw [List.forall_mem_cons] at h
    have hc : c ≠ '.' := fun he => absurd (he ▸ h.1) not_isBlank_point
    rw [List.cons_append, Text.splitAt, if_neg hc, ← ih h.2]
    rcases hs : Text.splitAt '.' (w ++ cs) with _ | ⟨piece, more⟩
    · exact absurd hs (Text.splitAt_ne_nil '.' _)
    · have hp : Text.strip (c :: piece) = Text.strip piece := by
        have ht := Text.trim_append (List.forall_mem_singleton.2 h.1) (List.forall_mem_nil _) piece
        rwa [List.append_nil] at ht
      rw [List.map_cons, List.map_cons, hp]

/-- Blanks at the end go with the last key, whose beginning they may be all of. -/
theorem map_dropEnd_end {w : List Char} (h : ∀ c ∈ w, Text.isBlank c) : ∀ cs : List Char,
    (Text.splitAt '.' (cs ++ w)).map (Text.dropEnd Text.isBlank) =
      (Text.splitAt '.' cs).map (Text.dropEnd Text.isBlank)
  | [] => by
    have hw : '.' ∉ w := fun hd => absurd (h '.' hd) not_isBlank_point
    rw [List.nil_append, Text.splitAt_of_not_mem hw, List.map_singleton,
      Text.dropEnd_eq_nil_iff.2 h]
    rfl
  | c :: cs => by
    have ih := map_dropEnd_end h cs
    rw [List.cons_append, Text.splitAt, Text.splitAt]
    by_cases hc : c = '.'
    · rw [if_pos hc, if_pos hc, List.map_cons, List.map_cons, ih]
    rw [if_neg hc, if_neg hc]
    rcases hs : Text.splitAt '.' cs with _ | ⟨piece, more⟩
    · exact absurd hs (Text.splitAt_ne_nil '.' _)
    rcases hs' : Text.splitAt '.' (cs ++ w) with _ | ⟨piece', more'⟩
    · exact absurd hs' (Text.splitAt_ne_nil '.' _)
    rw [hs, hs', List.map_cons, List.map_cons, List.cons.injEq] at ih
    have hp : Text.dropEnd Text.isBlank (c :: piece') = Text.dropEnd Text.isBlank (c :: piece) := by
      rw [Text.dropEnd, Text.dropEnd, ih.1]
    rw [List.map_cons, List.map_cons, hp, ih.2]

/-- Blanks around a path do not count. -/
theorem split_blanks {w w' : List Char} (h : ∀ c ∈ w, Text.isBlank c)
    (h' : ∀ c ∈ w', Text.isBlank c) (cs : List Char) :
    split (String.ofList (w ++ cs ++ w')) = split (String.ofList cs) := by
  have hs : ∀ pieces : List (List Char),
      (pieces.map (Text.dropEnd Text.isBlank)).map Text.strip = pieces.map Text.strip := by
    intro pieces
    rw [List.map_map]
    exact List.map_congr_left fun piece _ => Text.trim_dropEnd Text.isBlank piece
  have he : (Text.splitAt '.' (w ++ cs ++ w')).map Text.strip =
      (Text.splitAt '.' cs).map Text.strip := by
    rw [← hs, map_dropEnd_end h', hs, map_strip_front h]
  have hk := congrArg (List.map String.ofList) he
  rw [List.map_map, List.map_map] at hk
  rw [split, split, String.toList_ofList, String.toList_ofList]
  exact hk

theorem split_strip (cs : List Char) :
    split (String.ofList (Text.strip cs)) = split (String.ofList cs) := by
  obtain ⟨w, w', hw, hw', he⟩ := Text.exists_trim Text.isBlank cs
  have hs := split_blanks hw hw' (Text.strip cs)
  rw [show w ++ Text.strip cs ++ w' = cs from he.symm] at hs
  exact hs.symm

end Path

end Colloquy
