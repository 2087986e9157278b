import Colloquy.Export
import Colloquy.Proofs.Arrival
import Colloquy.Proofs.Rows
import Colloquy.Proofs.Stored

/-!
# The table of a tree

The table that a tree is exported as has a row for each node and, behind it, one for each of its
choices. A row has a cell for the value of each column, with the value as a text, and empty for null
(`Export.Spells`). An entry that cannot be made, a value that cannot be put into words and a text
that has no bytes end the table; up to there, whatever is in its texts, the file is read as the rows
that were written (`Export.save_spells`). The numbers in the first column are all different
(`Export.nodup_labels`).
-/

namespace Colloquy

/-! ## Results that can fail -/

namespace Fallible

variable {α β ε : Type}

theorem bind_ok {x : Except ε α} {k : α → Except ε β} {b : β} (h : (x >>= k) = .ok b) :
    ∃ a, x = .ok a ∧ k a = .ok b := by
  rcases x with f | a
  · cases h
  · exact ⟨a, rfl, h⟩

/-- A list is made of the results for its members. -/
theorem mapM_eq_ok {f : α → Except ε β} : ∀ {as : List α} {bs : List β},
    as.mapM f = .ok bs ↔ List.Forall₂ (fun a b => f a = .ok b) as bs
  | [], bs => by
    rw [List.forall₂_nil_left_iff]
    exact ⟨fun h => (Except.ok.inj h).symm, fun h => congrArg Except.ok h.symm⟩
  | a :: as, bs => by
    rw [List.mapM_cons, List.forall₂_cons_left_iff]
    constructor
    · intro h
      obtain ⟨b, hb, h⟩ := bind_ok h
      obtain ⟨made, hm, h⟩ := bind_ok h
      exact ⟨b, made, hb, mapM_eq_ok.1 hm, (Except.ok.inj h).symm⟩
    · rintro ⟨b, made, hb, hm, rfl⟩
      rw [hb, mapM_eq_ok.2 hm]
      rfl

end Fallible

/-! ## Cells with bytes -/

namespace Csv

section all
variable {p : Char → Bool}

theorem all_replaceChar (quote : p '"' = true) (cs : List Char) :
    (Text.replaceChar '"' ['"', '"'] cs).all p = cs.all p := by
  induction cs with
  | nil => rfl
  | cons c cs ih =>
    rw [Text.replaceChar, List.flatMap_cons, List.all_append, List.all_cons, ← ih]
    congr 1
    split_ifs with hc
    · simp [hc, quote]
    · simp

theorem all_cell (quote : p '"' = true) (cs : List Char) : (cell cs).all p = cs.all p := by
  unfold cell
  split_ifs
  · simp [quoted, all_replaceChar quote, quote]
  · rfl

theorem all_join (comma : p ',' = true) : ∀ parts : List (List Char),
    (Text.join [','] parts).all p = parts.all (·.all p)
  | [] => rfl
  | [part] => by simp [Text.join]
  | part :: next :: parts => by simp [Text.join, all_join comma (next :: parts), comma]

/-- What all marks are, a row is just if all its cells are. -/
theorem all_row (marks : ∀ c, isMark c = true → p c = true) (cells : List String) :
    (row cells).all p = cells.all fun s => s.toList.all p := by
  have quote : p '"' = true := marks _ rfl
  have comma : p ',' = true := marks _ rfl
  unfold row
  rw [List.all_append]
  split_ifs with single
  · simp [single, quoted, Text.replaceChar, quote, marks '\r' rfl, marks '\n' rfl]
  · simp [all_join comma, Function.comp_def, all_cell quote, marks '\r' rfl, marks '\n' rfl]

end all

/-- A row has bytes if all its cells have. -/
theorem isWhole_row [Text.Halves] (cells : List String) :
    Text.isWhole (String.ofList (row cells)) = cells.all Text.isWhole := by
  have whole : ∀ c, isMark c = true → (!Text.Half.isHalf c) = true := by
    intro c hc
    simp only [isMark, Bool.or_eq_true, decide_eq_true_eq] at hc
    rw [Text.isHalf_of_lt]
    · rfl
    · rcases hc with ((rfl | rfl) | rfl) | rfl <;> decide
  rw [Text.isWhole, String.toList_ofList]
  exact all_row whole cells

/-- Rows are read from the bytes that they are written as. -/
theorem read_bytes {rows : List (List String)} {text : String}
    (decoded : String.fromUTF8? (String.join (write rows)).toUTF8 = some text) :
    read text.toList = some rows := by
  rw [Files.fromUTF8?_toUTF8] at decoded
  rw [← Option.some.inj decoded, read_write]

end Csv

namespace Export

section table
variable [Text.Halves]

/-! ## As far as it goes -/

/-- The longest beginning of a list that can be translated. -/
def upTo {α β : Type} (f : α → Option β) : List α → List β
  | [] => []
  | a :: as =>
    match f a with
    | some b => b :: upTo f as
    | none => []

omit [Text.Halves] in
theorem upTo_spec {α β : Type} (f : α → Option β) : ∀ as : List α,
    List.Forall₂ (fun a b => f a = some b) (as.take (upTo f as).length) (upTo f as) ∧
      ∀ a, as[(upTo f as).length]? = some a → f a = none
  | [] => ⟨.nil, nofun⟩
  | a :: as => by
    rw [upTo]
    rcases ha : f a with _ | b
    · exact ⟨.nil, fun x hx => Option.some.inj hx ▸ ha⟩
    · obtain ⟨made, stopped⟩ := upTo_spec f as
      exact ⟨.cons ha made, stopped⟩

omit [Text.Halves] in
theorem upTo_map {α β γ : Type} (f : β → Option γ) (g : α → β) : ∀ as : List α,
    upTo f (as.map g) = upTo (fun a => f (g a)) as
  | [] => rfl
  | a :: as => by rw [List.map_cons, upTo, upTo, upTo_map f g as]

/-- A row that can be made and has bytes. -/
def legible? : Except Fault (List String) → Option (List String)
  | .ok cells => if cells.all Text.isWhole then some cells else none
  | .error _ => none

/-- What is written of the rows are those up to the first that cannot be made, or has no bytes. -/
theorem written_rows : ∀ rs : List (Except Fault (List String)),
    (Csv.write (rowsUpToFault rs).1).takeWhile Text.isWhole = Csv.write (upTo legible? rs) ∧
      (((Csv.write (rowsUpToFault rs).1).all Text.isWhole = true ∧ (rowsUpToFault rs).2 = none) ↔
        (upTo legible? rs).length = rs.length)
  | [] => ⟨rfl, by simp [rowsUpToFault, Csv.write, upTo]⟩
  | .error f :: rs => ⟨rfl, by simp [rowsUpToFault, upTo, legible?]⟩
  | .ok cells :: rs => by
    obtain ⟨made, all⟩ := written_rows rs
    simp only [rowsUpToFault, Csv.write, List.map_cons, List.takeWhile_cons, List.all_cons,
      Csv.isWhole_row, upTo, legible?] at made all ⊢
    by_cases hc : cells.all Text.isWhole = true
    · simp only [hc, if_true, List.map_cons, Bool.true_and, List.length_cons,
        Nat.add_right_cancel_iff]
      exact ⟨by rw [made], all⟩
    · simp [hc]

/-! ## Entries -/

/-- What a cell has for a value: its text, and nothing for null. -/
def inCell (d : Datum) : String := if d.isNull then "" else d.plain

/-- The cells of a row are the values of an entry, one for each column, as texts. All values can be
put into words, and all texts have bytes. -/
def Spells (entry : Except Fault (List Datum)) (cells : List String) : Prop :=
  ∃ values, entry = .ok values ∧ values.length = columns.length ∧
    (∀ v ∈ values, v.isShowable = true) ∧ cells = values.map inCell ∧
    ∀ c ∈ cells, Text.isWhole c = true

theorem cellText_eq_ok {d : Datum} {s : String} :
    cellText d = .ok s ↔ d.isShowable = true ∧ s = inCell d := by
  unfold cellText inCell
  split_ifs with null shown
  · have showable : d.isShowable = true := by
      unfold Datum.isNull at null
      split at null
      · rfl
      · cases null
    exact ⟨fun h => ⟨showable, (Except.ok.inj h).symm⟩, fun h => congrArg Except.ok h.2.symm⟩
  · exact ⟨fun h => ⟨shown, (Except.ok.inj h).symm⟩, fun h => congrArg Except.ok h.2.symm⟩
  · exact ⟨nofun, fun h => absurd h.1 shown⟩

theorem mapM_cellText {values : List Datum} {cells : List String} :
    values.mapM cellText = .ok cells ↔
      (∀ v ∈ values, v.isShowable = true) ∧ cells = values.map inCell := by
  rw [Fallible.mapM_eq_ok]
  simp only [cellText_eq_ok, List.forall₂_and_left]
  rw [eq_comm, ← List.forall₂_eq_eq_eq, List.forall₂_map_left_iff]
  simp only [eq_comm]

/-- A row that is written is one that spells its entry. -/
theorem legible?_row {entry : Except Fault (List Datum)} {cells : List String} :
    legible? (row entry) = some cells ↔ ∃ values, entry = .ok values ∧
      (∀ v ∈ values, v.isShowable = true) ∧ cells = values.map inCell ∧
        ∀ c ∈ cells, Text.isWhole c = true := by
  rcases entry with f | values
  · exact ⟨nofun, nofun⟩
  have made : row (.ok values) = values.mapM cellText := rfl
  rw [made]
  constructor
  · intro h
    rcases hm : values.mapM cellText with f | made
    · rw [hm] at h
      cases h
    · rw [hm, legible?] at h
      split_ifs at h with whole
      obtain rfl := Option.some.inj h
      obtain ⟨shown, rfl⟩ := mapM_cellText.1 hm
      exact ⟨values, rfl, shown, rfl, List.all_eq_true.1 whole⟩
  · rintro ⟨values', same, shown, rfl, whole⟩
    obtain rfl := Except.ok.inj same
    rw [mapM_cellText.2 ⟨shown, rfl⟩, legible?, if_pos (List.all_eq_true.2 whole)]

/-- The number of a node, or of a choice of it. -/
def label (number : ℕ) : Option ℕ → String
  | none => Text.ofNat number
  | some j => Text.ofNat number ++ "." ++ Text.ofNat j

/-- The numbers of the nodes and their choices. -/
def labels (t : Tree) : List String :=
  (t.nodes.zipIdx 1).flatMap fun (n, i) =>
    label i none :: (n.choices.zipIdx 1).map fun (_, j) => label i (some j)

omit [Text.Halves] in
theorem ofInt_natCast (n : ℕ) : Text.ofInt n = Text.ofNat n := by
  rw [Text.ofInt, if_neg (Int.not_lt.2 (Int.natCast_nonneg n))]
  rfl

/-- An entry has a value for each column, and its number is the first. -/
def IsLabelled (entry : Except Fault (List Datum)) (number : String) : Prop :=
  ∀ values, entry = .ok values →
    values.length = columns.length ∧ (values.map inCell).head? = some number

theorem nodeEntry_labelled (h : Heap) (t : Tree) (i : ℕ) (n : Node) :
    IsLabelled (nodeEntry h t i n) (label i none) := by
  intro values he
  obtain ⟨conditions, -, he⟩ := Fallible.bind_ok he
  obtain ⟨effects, -, he⟩ := Fallible.bind_ok he
  obtain ⟨tags, -, he⟩ := Fallible.bind_ok he
  obtain rfl := Except.ok.inj he
  exact ⟨rfl, congrArg some (ofInt_natCast i)⟩

theorem choiceEntry_labelled (h : Heap) (n : Node) (number : String) (c : Choice) :
    IsLabelled (choiceEntry h n number c) number := by
  intro values he
  obtain ⟨title, -, he⟩ := Fallible.bind_ok he
  obtain ⟨conditions, -, he⟩ := Fallible.bind_ok he
  obtain ⟨effects, -, he⟩ := Fallible.bind_ok he
  obtain rfl := Except.ok.inj he
  exact ⟨rfl, rfl⟩

omit [Text.Halves] in
theorem forall₂_flatMap {α β γ : Type} {R : β → γ → Prop} {f : α → List β} {g : α → List γ} :
    ∀ {as : List α}, (∀ a ∈ as, List.Forall₂ R (f a) (g a)) →
      List.Forall₂ R (as.flatMap f) (as.flatMap g)
  | [], _ => .nil
  | a :: as, h => by
    rw [List.forall_mem_cons] at h
    rw [List.flatMap_cons, List.flatMap_cons]
    exact List.rel_append h.1 (forall₂_flatMap h.2)

theorem entries_labelled (h : Heap) (t : Tree) :
    List.Forall₂ IsLabelled (entries h t) (labels t) := by
  refine forall₂_flatMap fun (n, i) _ => .cons (nodeEntry_labelled h t i n) ?_
  rw [List.forall₂_map_left_iff, List.forall₂_map_right_iff]
  exact List.forall₂_same.2 fun (c, j) _ => choiceEntry_labelled h n _ c

/-! ## Numbers -/

omit [Text.Halves] in
theorem digits_ofNat (n : ℕ) : (Text.ofNat n).toList = Nat.toDigits 10 n := String.toList_ofList

omit [Text.Halves] in
/-- A number is cut into its parts at the point. -/
theorem splitAt_label (i : ℕ) (j : Option ℕ) : Text.splitAt '.' (label i j).toList =
    Nat.toDigits 10 i :: (j.map (Nat.toDigits 10)).toList := by
  have pointless : ∀ n : ℕ, '.' ∉ Nat.toDigits 10 n := fun n hn =>
    absurd (Nat.isDigit_of_mem_toDigits (by omega) le_rfl hn) (by decide)
  cases j with
  | none => rw [label, digits_ofNat, Text.splitAt_of_not_mem (pointless i)]; rfl
  | some j =>
    have text : (label i (some j)).toList = Nat.toDigits 10 i ++ '.' :: Nat.toDigits 10 j := by
      simp [label, digits_ofNat]
    rw [text, Text.splitAt_append (pointless i), Text.splitAt_of_not_mem (pointless j)]
    rfl

omit [Text.Halves] in
theorem label_inj {i i' : ℕ} {j j' : Option ℕ} (h : label i j = label i' j') :
    i = i' ∧ j = j' := by
  have digits : ∀ {m n : ℕ}, Nat.toDigits 10 m = Nat.toDigits 10 n → m = n := by
    intro m n hd
    rw [← Nat.ofDigitChars_ten_toDigits (n := m), hd, Nat.ofDigitChars_ten_toDigits]
  have parts := congrArg (fun s => Text.splitAt '.' s.toList) h
  simp only [splitAt_label, List.cons.injEq] at parts
  refine ⟨digits parts.1, ?_⟩
  rcases j with _ | j <;> rcases j' with _ | j'
  · rfl
  · exact absurd parts.2 (by simp)
  · exact absurd parts.2 (by simp)
  · exact congrArg some (digits (by simpa using parts.2))

omit [Text.Halves] in
theorem nodup_places {α : Type} (l : List α) (k : ℕ) :
    (l.zipIdx k).Pairwise fun a b => a.2 ≠ b.2 := by
  have places : ((l.zipIdx k).map Prod.snd).Nodup := by
    rw [List.zipIdx_map_snd]
    exact List.nodup_range'
  exact List.pairwise_map.1 places

omit [Text.Halves] in
/-- All numbers are different. -/
theorem nodup_labels (t : Tree) : (labels t).Nodup := by
  have own : ∀ {n : Node} {i : ℕ} {l : String},
      l ∈ label i none :: (n.choices.zipIdx 1).map (fun (_, j) => label i (some j)) →
        ∃ j, l = label i j := by
    intro n i l hl
    rcases List.mem_cons.1 hl with rfl | hl
    · exact ⟨none, rfl⟩
    · obtain ⟨⟨c, j⟩, -, rfl⟩ := List.mem_map.1 hl
      exact ⟨some j, rfl⟩
  rw [labels, List.nodup_flatMap]
  constructor
  · rintro ⟨n, i⟩ -
    rw [List.nodup_cons, List.mem_map]
    constructor
    · rintro ⟨⟨c, j⟩, -, he⟩
      cases (label_inj he).2
    · refine List.pairwise_map.2 ((nodup_places n.choices 1).imp fun hne he => ?_)
      exact hne (Option.some.inj (label_inj he).2)
  · refine (nodup_places t.nodes 1).imp fun {a b} hne l hl hl' => ?_
    obtain ⟨j, rfl⟩ := own hl
    obtain ⟨j', he⟩ := own hl'
    exact hne (label_inj he).1

/-! ## The file -/

/-- Rows that are written spell their entries, and begin with their numbers. -/
theorem spells_of_legible {entries : List (Except Fault (List Datum))} {rows : List (List String)}
    (made : List.Forall₂ (fun entry cells => legible? (row entry) = some cells) entries rows) :
    ∀ {numbers : List String}, List.Forall₂ IsLabelled entries numbers →
      List.Forall₂ Spells entries rows ∧ rows.map List.head? = numbers.map some := by
  induction made with
  | nil =>
    intro numbers numbered
    cases numbered
    exact ⟨.nil, rfl⟩
  | cons first _ ih =>
    intro numbers numbered
    cases numbered with
    | cons labelled more =>
      obtain ⟨values, he, shown, rfl, whole⟩ := legible?_row.1 first
      obtain ⟨length, head⟩ := labelled values he
      obtain ⟨spelled, heads⟩ := ih more
      refine ⟨.cons ⟨values, he, length, shown, rfl, whole⟩ spelled, ?_⟩
      rw [List.map_cons, List.map_cons, heads, head]

/-- The header can always be written. -/
theorem legible?_columns : legible? (.ok columns) = some columns := by
  have basic : ∀ c ∈ columns, Text.isBasic c.toList = true := by decide
  rw [legible?, if_pos]
  exact List.all_eq_true.2 fun c hc => Text.isWhole_of_lasts (Text.lasts_ascii (basic c hc))

/-- An export is done if all rows can be made, and then written. -/
theorem save_cases (h : Heap) (t : Tree) (fs : Files) (p : FilePath) :
    (save h t .csv fs p).1 = (fs.save p (Csv.write (rowsUpToFault (rows h t)).1)).1 ∧
      ((save h t .csv fs p).2 = none ↔
        (fs.save p (Csv.write (rowsUpToFault (rows h t)).1)).2 = none ∧
          (rowsUpToFault (rows h t)).2 = none) := by
  unfold save
  simp only [parts]
  rcases fs.save p (Csv.write (rowsUpToFault (rows h t)).1) with ⟨fs', _ | f⟩
  · simp
  · simp

/-- The table of a tree is read from the file that it is exported to: the header, and a row for each
node and each of its choices, in their order and with different numbers, up to the first that cannot
be spelled. If there is none the export succeeds, and all of them are there. -/
theorem save_spells {fs : Files} {p : FilePath} (g : fs.Grounded) (free : (fs.save p []).2 = none)
    (h : Heap) (t : Tree) :
    ∃ bytes text rows, (save h t .csv fs p).1.bytes p = .ok bytes ∧
      String.fromUTF8? bytes = some text ∧ Csv.read text.toList = some (columns :: rows) ∧
      List.Forall₂ Spells ((entries h t).take rows.length) rows ∧
      (∀ entry, (entries h t)[rows.length]? = some entry → ∀ cells, ¬ Spells entry cells) ∧
      ((save h t .csv fs p).2 = none ↔ rows.length = (entries h t).length) ∧
      rows.map List.head? = ((labels t).take rows.length).map some ∧ (labels t).Nodup := by
  have table : upTo legible? (rows h t) =
      columns :: upTo (fun entry => legible? (row entry)) (entries h t) := by
    rw [rows, upTo, legible?_columns, upTo_map]
  obtain ⟨written, all⟩ := written_rows (rows h t)
  obtain ⟨made, stopped⟩ := upTo_spec (fun entry => legible? (row entry)) (entries h t)
  rw [table] at written all
  generalize upTo (fun entry => legible? (row entry)) (entries h t) = kept at *
  obtain ⟨bytes, done⟩ := Files.save_written g free (Csv.write (rowsUpToFault (rows h t)).1)
  obtain ⟨file, fault⟩ := save_cases h t fs p
  obtain ⟨spelled, heads⟩ := spells_of_legible made
    (List.forall₂_take kept.length (entries_labelled h t))
  have content : (save h t .csv fs p).1.bytes p =
      .ok (String.join (Csv.write (columns :: kept))).toUTF8 := by
    rw [file, bytes, Output.written, written]
  refine ⟨_, _, kept, content, Files.fromUTF8?_toUTF8 _, Csv.read_write _, spelled, ?_, ?_, heads,
    nodup_labels t⟩
  · rintro entry he cells ⟨values, rfl, -, shown, rfl, whole⟩
    have legible := legible?_row.2 ⟨values, rfl, shown, rfl, whole⟩
    rw [stopped _ he] at legible
    cases legible
  · have length : (rows h t).length = (entries h t).length + 1 := by
      rw [rows, List.length_cons, List.length_map]
    rw [length, List.length_cons, Nat.add_right_cancel_iff] at all
    rw [fault, done, ← all, Output.written]
    simp

end table

section run

attribute [local instance] Text.noHalves

/-- A node with a comma, quotes and line ends in its texts, a choice with two conditions, and a node
with little in it. -/
def quay : Datum :=
  .object [("id", .text "quay"), ("nodes", .object [
    ("start", .object [("text", .text "\"Hi,\"\r\nshe said"), ("speaker", .text "Ann, Bo"),
      ("voiceLine", .text "\""), ("tags", .list [.text "sea", .text "\n"]),
      ("choices", .list [.object [("text", .text "a\rb"), ("once", .bool true),
        ("conditions", .list [.text "flag.met", .text "context.gold>=2"])]])]),
    ("end", .object [("autoAdvance", .bool true), ("priority", .int (-1))])])]

def quayTree : Tree × Heap := (Tree.ofDatum #[] quay).toOption.getD default

def quayFile : FilePath := .ofText "out/quay.csv"

/-- The rows of the quay. -/
def quayRows : List (List String) := [
  ["1", "Ann, Bo", "Player", "start", "\"Hi,\"\r\nshe said", "", "\"", "", "", "True", "False",
    "White", "-1", "False", "0", "sea, \n"],
  ["1.1", "Player", "Ann, Bo", "start -> END", "a\rb", "a\rb", "",
    "flag.met; context.gold>=2", "", "False", "False", "Blue", "-1", "False", "0", "once"],
  ["2", "", "Player", "end", "", "", "", "", "", "False", "False", "White", "0", "False", "-1", ""]]

theorem save_spells_quay : Tree.ofDatum #[] quay = .ok (quayTree.1, quayTree.2) ∧
    (save quayTree.2 quayTree.1 .csv {} quayFile).2 = none ∧
    ∃ bytes text, (save quayTree.2 quayTree.1 .csv {} quayFile).1.bytes quayFile = .ok bytes ∧
      String.fromUTF8? bytes = some text ∧ Csv.read text.toList = some (columns :: quayRows) ∧
      List.Forall₂ Spells ((entries quayTree.2 quayTree.1).take 3) quayRows := by
  have loaded : Tree.ofDatum #[] quay = .ok (quayTree.1, quayTree.2) := by decide +kernel
  have done : (save quayTree.2 quayTree.1 .csv {} quayFile).2 = none := by decide +kernel
  obtain ⟨bytes, text, rows, file, decoded, read, spelled, -⟩ :=
    @save_spells _ {} quayFile ⟨[], rfl⟩ (by decide +kernel) quayTree.2 quayTree.1
  have content : (save quayTree.2 quayTree.1 .csv {} quayFile).1.bytes quayFile =
      .ok (String.join (Csv.write (columns :: quayRows))).toUTF8 := by decide +kernel
  obtain rfl := Except.ok.inj (file.symm.trans content)
  have same := (Csv.read_bytes decoded).symm.trans read
  obtain rfl : quayRows = rows := List.tail_eq_of_cons_eq (Option.some.inj same)
  exact ⟨loaded, done, _, _, content, decoded, read, spelled⟩

end run

section half

/-- The first half of all, with a stand-in for it. -/
@[reducible] def firstHalf : Text.Halves := ⟨[Char.ofNat Text.Half.emptyPlanes]⟩

attribute [local instance] firstHalf

/-- A tree with a node that says half a surrogate pair. -/
def severed : Datum :=
  .object [("nodes", .object [
    ("start", .object [("text", .text (String.singleton (Text.Half.character 0xD800)))])])]

def severedTree : Tree × Heap := (Tree.ofDatum #[] severed).toOption.getD default

/-- The node with the half has no row in the table. -/
theorem unread_half : Tree.ofDatum #[] severed = .ok (severedTree.1, severedTree.2) ∧
    (save severedTree.2 severedTree.1 .csv {} (.ofText "half.csv")).2 = some .notEncodable ∧
    ¬ ∃ bytes text rows,
      (save severedTree.2 severedTree.1 .csv {} (.ofText "half.csv")).1.bytes (.ofText "half.csv") =
        .ok bytes ∧
      String.fromUTF8? bytes = some text ∧ Csv.read text.toList = some (columns :: rows) ∧
      rows.length = (entries severedTree.2 severedTree.1).length := by
  refine ⟨by decide +kernel, by decide +kernel, ?_⟩
  rintro ⟨bytes, text, rows, file, decoded, read, all⟩
  have content : (save severedTree.2 severedTree.1 .csv {} (.ofText "half.csv")).1.bytes
      (.ofText "half.csv") = .ok (String.join (Csv.write [columns])).toUTF8 := by decide +kernel
  obtain rfl := Except.ok.inj (file.symm.trans content)
  have same := (Csv.read_bytes decoded).symm.trans read
  obtain rfl : [] = rows := List.tail_eq_of_cons_eq (Option.some.inj same)
  exact absurd all (by decide +kernel)

end half

end Export

end Colloquy
