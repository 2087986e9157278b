import Colloquy.Player
import Colloquy.Proofs.Arrival
import Colloquy.Proofs.Wrapped
import Mathlib.Data.Int.Notation
import Mathlib.Order.MinMax

/-!
# Boxes are closed and lose no text

A box is drawn in strokes: text that is seen, and the codes that set its colour (`Box.drawing`).
Without the codes its lines are all of one length, between an edge with the name in it and one
below, and what stands between the sides is the text but for blanks (`box_closed`). The width inside
goes by the longest row and the name, and no row is longer than the width that the text is wrapped
to (`longest_le`), so nothing sticks out and no padding is missing.
-/

namespace Colloquy.Box

/-! ## Rows -/

theorem twenty_le_wrapWidth (limit columns : ℤ) : 20 ≤ wrapWidth limit columns := by
  unfold wrapWidth
  omega

theorem length_le_foldl {rs : List (List Char)} : ∀ {n : ℕ},
    n ≤ (rs.map List.length).foldl max n ∧
      ∀ r ∈ rs, r.length ≤ (rs.map List.length).foldl max n := by
  induction rs with
  | nil => exact ⟨le_rfl, nofun⟩
  | cons r rs ih =>
    intro n
    obtain ⟨start, all⟩ := @ih (max n r.length)
    exact ⟨(le_max_left _ _).trans start,
      List.forall_mem_cons.2 ⟨(le_max_right _ _).trans start, all⟩⟩

theorem foldl_le {rs : List (List Char)} {most : ℕ} (h : ∀ r ∈ rs, r.length ≤ most) :
    ∀ {n : ℕ}, n ≤ most → (rs.map List.length).foldl max n ≤ most := by
  induction rs with
  | nil => exact id
  | cons r rs ih =>
    intro n hn
    rw [List.forall_mem_cons] at h
    exact ih h.2 (max_le hn h.1)

theorem length_le_longest {rs : List (List Char)} {r : List Char} (h : r ∈ rs) :
    r.length ≤ longest rs := by
  rw [longest, if_neg (by simp [List.ne_nil_of_mem h])]
  exact length_le_foldl.2 r h

theorem longest_le {rs : List (List Char)} {most : ℕ} (room : 20 ≤ most)
    (h : ∀ r ∈ rs, r.length ≤ most) : longest rs ≤ most := by
  unfold longest
  split_ifs
  · exact room
  · exact foldl_le h (Nat.zero_le most)

theorem length_le_interior {rs : List (List Char)} {r : List Char} {n : ℕ} (h : r ∈ rs) :
    r.length ≤ interior rs n :=
  (length_le_longest h).trans (le_max_left _ _)

theorem length_padEnd {width : ℕ} {cs : List Char} (h : cs.length ≤ width) :
    (Text.padEnd width cs).length = width := by
  rw [Text.padEnd, List.length_append, List.length_replicate]
  omega

theorem solid_padEnd (width : ℕ) (cs : List Char) :
    Text.solid (Text.padEnd width cs) = Text.solid cs := by
  have blanks : Text.solid (List.replicate (width - cs.length) ' ') = [] :=
    Text.solid_eq_nil fun c hc => by rw [List.eq_of_mem_replicate hc]; decide
  rw [Text.padEnd, Text.solid_append, blanks, List.append_nil]

theorem solid_padded (width : ℕ) (rs : List (List Char)) :
    Text.solid (rs.map (Text.padEnd width)).flatten = Text.solid rs.flatten := by
  induction rs with
  | nil => rfl
  | cons r rs ih =>
    rw [List.map_cons, List.flatten_cons, List.flatten_cons, Text.solid_append, solid_padEnd, ih,
      Text.solid_append]

/-- The rows of a text fit, break no line, and have all of it that is solid. -/
theorem rows_spec {width : ℕ} (pos : 0 < width) (text : String) :
    (∀ r ∈ rows width text, r.length ≤ width ∧ '\n' ∉ r) ∧
      Text.solid (rows width text).flatten = Text.solid text.toList := by
  rw [← Text.solid_splitAt (show Text.isBlank '\n' = true by decide) text.toList, rows]
  induction Text.splitAt '\n' text.toList with
  | nil => exact ⟨nofun, rfl⟩
  | cons paragraph more ih =>
    obtain ⟨fit, keep⟩ := ih
    rw [List.flatMap_cons, List.flatten_append, Text.solid_append, keep, List.flatten_cons,
      Text.solid_append]
    split_ifs with none
    · rw [List.isEmpty_iff.1 none]
      exact ⟨List.forall_mem_cons.2 ⟨⟨Nat.zero_le _, nofun⟩, fit⟩, rfl⟩
    · obtain ⟨lines, kept⟩ := Text.wrap_spec pos paragraph
      rw [kept]
      refine ⟨fun r hr => ?_, rfl⟩
      rcases List.mem_append.1 hr with hr | hr
      · exact lines r hr
      · exact fit r hr

/-! ## Strokes -/

/-- A stretch of a drawing: text that is seen, or a code that sets its colour. -/
inductive Stroke where
  | seen (cs : List Char)
  | code (s : String)

namespace Stroke

/-- The text of strokes, with the codes. -/
def written (line : List Stroke) : String :=
  String.join (line.map fun
    | .seen cs => String.ofList cs
    | .code s => s)

/-- What is seen of strokes. -/
def shown (line : List Stroke) : List Char :=
  line.flatMap fun
    | .seen cs => cs
    | .code _ => []

end Stroke

def topLine (name : List Char) (width : ℕ) : List Char :=
  "╭─ ".toList ++ name ++ ' ' :: List.replicate (width - name.length - 1) '─' ++ ['╮']

def bottomLine (width : ℕ) : List Char :=
  '╰' :: List.replicate (width + 2) '─' ++ ['╯']

/-- A part of a line in a colour. -/
def tinted (color : String) (cs : List Char) : List Stroke :=
  [.code color, .seen cs, .code Ink.reset.mark]

/-- The lines of a box around rows of a given width, stroke by stroke. -/
def drawing (color : String) (name : List Char) (width : ℕ) (rs : List (List Char)) :
    List (List Stroke) :=
  (.seen "  ".toList :: tinted color (topLine name width)) ::
    rs.map (fun r => .seen "  ".toList :: tinted color ['│'] ++ .seen (' ' :: r ++ [' ']) ::
      tinted color ['│'])
    ++ [.seen "  ".toList :: tinted color (bottomLine width)]

theorem upperEdge_eq (color name : String) (width : ℕ) :
    upperEdge color name name.length width =
      "\n" ++ Stroke.written (.seen "  ".toList :: tinted color (topLine name.toList width)) := by
  apply String.toList_inj.1
  simp [upperEdge, Stroke.written, tinted, topLine, Text.rule, String.length_toList]

theorem side_eq (color : String) (width : ℕ) (r : List Char) :
    side color width r = Stroke.written (.seen "  ".toList :: tinted color ['│'] ++
      .seen (' ' :: Text.padEnd width r ++ [' ']) :: tinted color ['│']) := by
  apply String.toList_inj.1
  simp [side, Stroke.written, tinted]

theorem lowerEdge_eq (color : String) (width : ℕ) :
    lowerEdge color width =
      Stroke.written (.seen "  ".toList :: tinted color (bottomLine width)) := by
  apply String.toList_inj.1
  simp [lowerEdge, Stroke.written, tinted, bottomLine, Text.rule]

/-- A box is its drawing. -/
theorem frame_eq (color name : String) (rs : List (List Char)) :
    frame color name name.length rs = "\n" ++ "\n".intercalate
      ((drawing color name.toList (interior rs name.length)
        (rs.map (Text.padEnd (interior rs name.length)))).map Stroke.written) := by
  rw [frame, upperEdge_eq, lowerEdge_eq, List.cons_append, List.nil_append, List.cons_append,
    String.intercalate_cons_append, drawing, List.cons_append, List.map_cons, List.map_append,
    List.map_map, List.map_map]
  congr 4
  exact List.map_congr_left fun r _ => side_eq color _ r

/-! ## Closed boxes -/

/-- What is seen of a drawing, line by line. -/
theorem shown_drawing (color : String) (name : List Char) (width : ℕ) (rs : List (List Char)) :
    (drawing color name width rs).map Stroke.shown =
      ("  ".toList ++ topLine name width) :: rs.map (fun r => "  │ ".toList ++ r ++ " │".toList)
        ++ ["  ".toList ++ bottomLine width] := by
  simp [drawing, Stroke.shown, tinted]

/-- Without the codes all lines of a drawing are of one length, and none is broken by what is in
it. -/
theorem drawing_closed {color : String} {name : List Char} {width : ℕ} {rs : List (List Char)}
    (fits : name.length + 2 ≤ width) (whole : '\n' ∉ name)
    (rows : ∀ r ∈ rs, r.length = width ∧ '\n' ∉ r) {line : List Char}
    (h : line ∈ (drawing color name width rs).map Stroke.shown) :
    line.length = width + 6 ∧ '\n' ∉ line := by
  have edge : '\n' ∉ List.replicate (width - name.length - 1) '─' ∧
      '\n' ∉ List.replicate (width + 2) '─' := by
    constructor <;> exact fun hc => absurd (List.eq_of_mem_replicate hc) (by decide)
  rw [shown_drawing, List.cons_append, List.mem_cons, List.mem_append, List.mem_map,
    List.mem_singleton] at h
  rcases h with rfl | ⟨r, hr, rfl⟩ | rfl
  · refine ⟨?_, by simp [topLine, whole]⟩
    simp [topLine]
    omega
  · simp [rows r hr]
  · simp [bottomLine]

variable [Text.Halves]

/-- A box around any text is drawn with lines of one length: an edge with the name, which breaks no
line, rows between two sides, and an edge below. Inside it is no wider than the text is wrapped to,
or than the name needs, and the rows have all of the text that is not blank. -/
theorem box_closed {speaker : String} (whole : '\n' ∉ speaker.toList) (text color : String)
    (limit columns : ℤ) :
    Player.framed (.text text) (.text speaker) color (.int limit) columns =
        .ok (render text speaker color limit columns) ∧
      20 ≤ wrapWidth limit columns ∧
      ∃ (width : ℕ) (rs : List (List Char)),
        render text speaker color limit columns = "\n" ++ "\n".intercalate
          ((drawing color speaker.toList width rs).map Stroke.written) ∧
        (∀ line ∈ (drawing color speaker.toList width rs).map Stroke.shown,
          line.length = width + 6 ∧ '\n' ∉ line) ∧
        (∀ r ∈ rs, r.length = width) ∧ speaker.length + 2 ≤ width ∧
        width ≤ max (wrapWidth limit columns) (speaker.length + 2) ∧
        Text.solid rs.flatten = Text.solid text.toList := by
  have room := twenty_le_wrapWidth limit columns
  obtain ⟨fit, keep⟩ := rows_spec (by omega : 0 < wrapWidth limit columns) text
  have drawn := frame_eq color speaker (rows (wrapWidth limit columns) text)
  have longest := longest_le room fun r hr => (fit r hr).1
  refine ⟨rfl, room, _, _, drawn, ?_⟩
  generalize rows (wrapWidth limit columns) text = rs at *
  have wide : speaker.length + 2 ≤ interior rs speaker.length := le_max_right _ _
  have padded : ∀ r ∈ rs, (Text.padEnd (interior rs speaker.length) r).length =
      interior rs speaker.length := fun r hr => length_padEnd (length_le_interior hr)
  refine ⟨fun line hl => drawing_closed (by rwa [String.length_toList]) whole ?_ hl, ?_, wide,
    max_le_max_right _ longest, (solid_padded _ rs).trans keep⟩
  · refine List.forall_mem_map.2 fun r hr => ⟨padded r hr, fun hc => ?_⟩
    rcases List.mem_append.1 hc with hc | hc
    · exact (fit r hr).2 hc
    · exact absurd (List.eq_of_mem_replicate hc) (by decide)
  · exact List.forall_mem_map.2 padded

omit [Text.Halves] in
/-- On a terminal of one column, a name that is longer than any row makes the box. -/
theorem box_closed_oneColumn :
    let name := "The Keeper of the Lighthouse"
    let text := "Well...\n\n \t \nwell-known\tsuper\u2003cali--fragilistic-expialidocious"
    '\n' ∉ name.toList ∧ wrapWidth (-3) 1 = 20 ∧
      ∃ (width : ℕ) (rs : List (List Char)),
        render text name "\n" (-3) 1 = "\n" ++ "\n".intercalate
          ((drawing "\n" name.toList width rs).map Stroke.written) ∧
        width = 30 ∧ (∀ r ∈ rs, r.length = width) ∧
        Text.solid rs.flatten =
          "Well...well-knownsupercali--fragilistic-expialidocious".toList := by
  intro name text
  have whole : '\n' ∉ name.toList := by decide
  obtain ⟨-, -, width, rs, drawn, -, padded, wide, narrow, keep⟩ :=
    @box_closed Text.noHalves name whole text "\n" (-3) 1
  have wrapped : wrapWidth (-3) 1 = 20 := by decide
  have length : name.length = 28 := by decide
  rw [wrapped] at narrow
  refine ⟨whole, wrapped, width, rs, drawn, by omega, padded, keep.trans ?_⟩
  decide +kernel

end Colloquy.Box
