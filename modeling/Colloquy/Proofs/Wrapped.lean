import Colloquy.Text.Cut
import Colloquy.Text.Wrap
import Mathlib.Data.List.Basic

/-!
# Wrapping loses nothing but blanks

A line takes the chunks in front that fit, and a part of the next one if that fits on no line. So no
line is longer than the width, and with room for one character every line takes something
(`takeLine_takes`). What is dropped between the lines is blank: the solid characters of a paragraph
are those of its lines, in their order (`wrap_spec`).
-/

namespace Colloquy.Text

/-! ## Solid characters -/

/-- The characters of a text that are not blank. -/
def solid (cs : List Char) : List Char := cs.filter fun c => !isBlank c

theorem solid_append (cs ds : List Char) : solid (cs ++ ds) = solid cs ++ solid ds :=
  List.filter_append ..

theorem solid_eq_nil {cs : List Char} (h : ∀ c ∈ cs, isBlank c = true) : solid cs = [] := by
  rw [solid, List.filter_eq_nil_iff]
  intro c hc
  simp [h c hc]

theorem solid_blank {c : Char} (h : isBlank c = true) (cs : List Char) :
    solid (c :: cs) = solid cs := by
  rw [solid, List.filter_cons_of_neg (by simp [h]), solid]

theorem solid_cons_congr (c : Char) {cs ds : List Char} (h : solid cs = solid ds) :
    solid (c :: cs) = solid (c :: ds) := by
  rw [← List.singleton_append, solid_append, h, ← solid_append, List.singleton_append]

/-- A text has the solid characters of its pieces between blanks. -/
theorem solid_splitAt {sep : Char} (h : isBlank sep = true) (cs : List Char) :
    solid (splitAt sep cs).flatten = solid cs := by
  induction cs with
  | nil => rfl
  | cons c r ih =>
    rw [splitAt]
    split_ifs with hc
    · rw [hc, solid_blank h]
      exact ih
    · obtain ⟨piece, more, hs⟩ := List.exists_cons_of_ne_nil (splitAt_ne_nil sep r)
      rw [hs] at ih ⊢
      exact solid_cons_congr c ih

theorem isBlank_of_isSpace {c : Char} (h : isSpace c = true) : isBlank c = true := by
  simp only [isSpace, Bool.or_eq_true, decide_eq_true_eq] at h
  rcases h with ((((h | h) | h) | h) | h) | h <;> subst h <;> decide

theorem solid_expandTabs (cs : List Char) : ∀ column, solid (expandTabs column cs) = solid cs := by
  induction cs with
  | nil => exact fun _ => rfl
  | cons c r ih =>
    intro column
    by_cases tab : c = '\t'
    · subst tab
      rw [expandTabs, solid_append, ih, solid_blank (by decide), solid_eq_nil, List.nil_append]
      intro d hd
      rw [List.eq_of_mem_replicate hd]
      decide
    · rw [expandTabs.eq_3 _ _ _ tab]
      exact solid_cons_congr c (ih _)

theorem solid_levelSpaces (cs : List Char) : solid (levelSpaces cs) = solid cs := by
  rw [levelSpaces, ← solid_expandTabs cs 0]
  induction expandTabs 0 cs with
  | nil => rfl
  | cons c r ih =>
    rw [List.map_cons]
    split_ifs with space
    · rw [solid_blank (by decide), ih, solid_blank (isBlank_of_isSpace space)]
    · exact solid_cons_congr c ih

theorem lineFeed_not_mem_levelSpaces (cs : List Char) : '\n' ∉ levelSpaces cs := by
  rw [levelSpaces, List.mem_map]
  rintro ⟨c, -, hc⟩
  split_ifs at hc with space
  · exact absurd hc (by decide)
  · subst hc
    exact space rfl

/-! ## One line -/

/-- What a line takes of some chunks and what it leaves: the line is no longer than the width, and
nothing solid is lost. -/
structure Takes (width : ℕ) (cs line rest : List (List Char)) : Prop where
  fits : line.flatten.length ≤ width
  solid_eq : solid line.flatten ++ solid rest.flatten = solid cs.flatten
  /-- Nothing is there that was not before. -/
  subset : line.flatten ++ rest.flatten ⊆ cs.flatten
  full : ∀ c ∈ rest, c ≠ []
  shorter : rest.flatten.length ≤ cs.flatten.length
  shrinks : cs ≠ [] → rest.flatten.length < cs.flatten.length

theorem fill_spec : ∀ (room : ℕ) (cs : List (List Char)),
    (fill room cs).1 ++ (fill room cs).2 = cs ∧ (fill room cs).1.flatten.length ≤ room ∧
      ∀ c more, (fill room cs).2 = c :: more →
        room < (fill room cs).1.flatten.length + c.length
  | room, [] => ⟨rfl, Nat.zero_le _, nofun⟩
  | room, c :: cs => by
    rw [fill]
    split_ifs with fits
    · obtain ⟨whole, within, next⟩ := fill_spec (room - c.length) cs
      refine ⟨congrArg (c :: ·) whole, ?_, fun d more hd => ?_⟩
      · rw [List.flatten_cons, List.length_append]
        omega
      · have := next d more hd
        rw [List.flatten_cons, List.length_append]
        omega
    · refine ⟨rfl, Nat.zero_le _, fun d more hd => ?_⟩
      obtain ⟨rfl, -⟩ := List.cons.inj hd
      simpa using fits

theorem cutPlace_le (room : ℕ) (c : List Char) : cutPlace room c ≤ room := by
  unfold cutPlace
  split
  · rename_i i hi
    obtain ⟨j, hj, rfl⟩ := Option.map_eq_some_iff.1 hi
    have inside := (List.findIdx?_eq_some_iff_getElem.1 hj).1
    simp only [List.length_reverse, List.length_take] at inside ⊢
    split_ifs <;> omega
  · exact Nat.le_refl _

theorem cutPlace_pos {room : ℕ} (h : 0 < room) (c : List Char) : 0 < cutPlace room c := by
  unfold cutPlace
  split
  · split_ifs
    · exact Nat.succ_pos _
    · exact h
  · exact h

theorem solid_of_isBlankChunk {c : List Char} (h : isBlankChunk c = true) : solid c = [] :=
  solid_eq_nil (List.all_eq_true.1 h)

theorem dropBlankEnd_cases (cs : List (List Char)) :
    dropBlankEnd cs = cs ∨ ∃ c, isBlankChunk c = true ∧ cs = dropBlankEnd cs ++ [c] := by
  unfold dropBlankEnd
  split
  · rename_i c hc
    split_ifs with blank
    · exact .inr ⟨c, blank, (List.dropLast_append_getLast? c hc).symm⟩
    · exact .inl rfl
  · exact .inl rfl

theorem dropBlankStart_cases (cs : List (List Char)) :
    dropBlankStart cs = cs ∨ ∃ c, isBlankChunk c = true ∧ cs = c :: dropBlankStart cs := by
  unfold dropBlankStart
  split
  · rename_i c more
    split_ifs with blank
    · exact .inr ⟨c, blank, rfl⟩
    · exact .inl rfl
  · exact .inl rfl

namespace Takes

variable {width : ℕ} {cs line rest : List (List Char)}

theorem of_flatten_eq (same : line.flatten ++ rest.flatten = cs.flatten)
    (fits : line.flatten.length ≤ width) (full : ∀ c ∈ rest, c ≠ [])
    (some_taken : cs ≠ [] → 0 < line.flatten.length) : Takes width cs line rest := by
  have lengths := congrArg List.length same
  rw [List.length_append] at lengths
  refine ⟨fits, by rw [← solid_append, same], fun _ hc => same ▸ hc, full, by omega, fun h => ?_⟩
  have := some_taken h
  omega

/-- A blank chunk at the end of the line can be dropped. -/
theorem dropBlankEnd (h : Takes width cs line rest) :
    Takes width cs (Text.dropBlankEnd line) rest := by
  rcases dropBlankEnd_cases line with he | ⟨c, blank, he⟩
  · rwa [he]
  have flat : line.flatten = (Text.dropBlankEnd line).flatten ++ c := by
    conv_lhs => rw [he, List.flatten_append, List.flatten_singleton]
  have hs : solid line.flatten = solid (Text.dropBlankEnd line).flatten := by
    rw [flat, solid_append, solid_of_isBlankChunk blank, List.append_nil]
  refine { h with fits := ?_, solid_eq := hs ▸ h.solid_eq, subset := fun d hd => h.subset ?_ }
  · have := h.fits
    rw [flat, List.length_append] at this
    omega
  · rw [flat, List.append_assoc]
    rcases List.mem_append.1 hd with hd | hd
    · exact List.mem_append_left _ hd
    · exact List.mem_append_right _ (List.mem_append_right _ hd)

/-- So can one at the start of the chunks. -/
theorem dropBlankStart (h : Takes width (Text.dropBlankStart cs) line rest)
    (full : ∀ c ∈ cs, c ≠ []) : Takes width cs line rest := by
  rcases dropBlankStart_cases cs with he | ⟨c, blank, he⟩
  · rwa [he] at h
  have some_dropped := List.length_pos_iff.2 (full c (he ▸ List.mem_cons_self))
  have flat : cs.flatten = c ++ (Text.dropBlankStart cs).flatten := by
    conv_lhs => rw [he, List.flatten_cons]
  have less : rest.flatten.length < cs.flatten.length := by
    have := h.shorter
    rw [flat, List.length_append]
    omega
  refine { h with
    solid_eq := ?_, subset := ?_, shorter := Nat.le_of_lt less, shrinks := fun _ => less }
  · rw [h.solid_eq, flat, solid_append, solid_of_isBlankChunk blank, List.nil_append]
  · rw [flat]
    exact List.Subset.trans h.subset (List.subset_append_right _ _)

end Takes

theorem takeLine_takes {width : ℕ} (pos : 0 < width) {cs : List (List Char)}
    (full : ∀ c ∈ cs, c ≠ []) : Takes width cs (takeLine width cs).1 (takeLine width cs).2 := by
  obtain ⟨whole, within, next⟩ := fill_spec width cs
  unfold takeLine
  generalize fill width cs = filled at whole within next ⊢
  obtain ⟨taken, _ | ⟨c, rest⟩⟩ := filled
  · obtain rfl : taken = cs := by simpa using whole
    refine (Takes.of_flatten_eq (by simp) within (by simp) fun some_left => ?_).dropBlankEnd
    obtain ⟨d, more, rfl⟩ := List.exists_cons_of_ne_nil some_left
    have := List.length_pos_iff.2 (full d List.mem_cons_self)
    rw [List.flatten_cons, List.length_append]
    omega
  · have left := next c rest rfl
    dsimp only at whole within left ⊢
    subst whole
    split_ifs with long
    · have inside := cutPlace_le (width - taken.flatten.length) c
      have some_cut := fun h => @cutPlace_pos (width - taken.flatten.length) h c
      generalize cutPlace (width - taken.flatten.length) c = place at inside some_cut ⊢
      have length : (taken ++ [c.take place]).flatten.length = taken.flatten.length + place := by
        rw [List.flatten_append, List.flatten_singleton, List.length_append,
          List.length_take_of_le (by omega)]
      refine (Takes.of_flatten_eq ?_ (by omega) ?_ fun _ => by omega).dropBlankEnd
      · simp [← List.append_assoc (c.take place)]
      · refine List.forall_mem_cons.2 ⟨fun hd => ?_, fun d hd => full d (by simp [hd])⟩
        rw [List.drop_eq_nil_iff] at hd
        omega
    · refine (Takes.of_flatten_eq (by simp) within ?_ fun _ => by omega).dropBlankEnd
      exact fun d hd => full d (List.mem_append_right _ hd)

/-! ## All lines -/

theorem linesFrom_spec {width : ℕ} (pos : 0 < width) (isFirst : Bool) (cs : List (List Char))
    (full : ∀ c ∈ cs, c ≠ []) : (∀ line ∈ linesFrom width isFirst cs, line.length ≤ width) ∧
      (linesFrom width isFirst cs).flatten ⊆ cs.flatten ∧
      solid (linesFrom width isFirst cs).flatten = solid cs.flatten := by
  have takes : ∀ (isFirst : Bool) (cs line rest : List (List Char)), (∀ c ∈ cs, c ≠ []) →
      takeLine width (if isFirst = true then cs else dropBlankStart cs) = (line, rest) →
      Takes width cs line rest := by
    intro isFirst cs line rest full he
    have start : ∀ c ∈ dropBlankStart cs, c ≠ [] := by
      intro c hc
      rcases dropBlankStart_cases cs with hd | ⟨d, -, hd⟩
      · exact full c (hd ▸ hc)
      · exact full c (hd ▸ List.mem_cons_of_mem d hc)
    split_ifs at he
    · have := takeLine_takes pos full
      rwa [he] at this
    · have := (takeLine_takes pos start).dropBlankStart full
      rwa [he] at this
  fun_induction linesFrom width isFirst cs with
  | case1 isFirst cs none =>
    rw [List.isEmpty_iff.1 none]
    exact ⟨nofun, List.Subset.refl _, rfl⟩
  | case2 isFirst cs _ line rest he _ none ih =>
    have h := takes isFirst cs line rest full he
    obtain ⟨fit, sub, keep⟩ := ih h.full
    rw [List.isEmpty_iff.1 none] at h
    exact ⟨fit, fun c hc => h.subset (sub hc), keep.trans h.solid_eq⟩
  | case3 isFirst cs _ line rest he _ _ ih =>
    have h := takes isFirst cs line rest full he
    obtain ⟨fit, sub, keep⟩ := ih h.full
    refine ⟨List.forall_mem_cons.2 ⟨h.fits, fit⟩, fun c hc => h.subset ?_, ?_⟩
    · rcases List.mem_append.1 hc with hc | hc
      · exact List.mem_append_left _ hc
      · exact List.mem_append_right _ (sub hc)
    · rw [List.flatten_cons, solid_append, keep]
      exact h.solid_eq
  | case4 isFirst cs some_left line rest he stuck =>
    refine absurd ((takes isFirst cs line rest full he).shrinks fun none => ?_) stuck
    exact some_left (List.isEmpty_iff.2 none)

/-- What is on the lines of a paragraph stands in it, with every kind of space as spaces. -/
theorem wrap_subset {width : ℕ} (pos : 0 < width) (cs : List Char) :
    (wrap width cs).flatten ⊆ levelSpaces cs := by
  rw [← flatten_chunks cs]
  exact (linesFrom_spec pos true (chunks cs) fun _ => ne_nil_of_mem_cutWhere _).2.1

/-- No line of a paragraph is longer than the width or can be broken by what is in it, and the lines
have the solid characters of the paragraph. -/
theorem wrap_spec {width : ℕ} (pos : 0 < width) (cs : List Char) :
    (∀ line ∈ wrap width cs, line.length ≤ width ∧ '\n' ∉ line) ∧
      solid (wrap width cs).flatten = solid cs := by
  obtain ⟨fit, -, keep⟩ := linesFrom_spec pos true (chunks cs) fun _ => ne_nil_of_mem_cutWhere _
  rw [flatten_chunks] at keep
  refine ⟨fun line hl => ⟨fit line hl, fun hc => ?_⟩, keep.trans (solid_levelSpaces cs)⟩
  exact lineFeed_not_mem_levelSpaces cs (wrap_subset pos cs (List.mem_flatten_of_mem hl hc))

end Colloquy.Text
