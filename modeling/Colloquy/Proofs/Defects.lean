import Colloquy.Proofs.Arrival
import Colloquy.Tree.File

/-!
# What keeps a file from being a tree

All that is wrong with a file that a tree is to be read from can be listed, in the order in which
reading comes to it (`Defect.inFile`): its bytes, its text, its shape, its tables, the conditions in
it and its start node. Reading makes a tree of a file with no defects, and fails at the first one
of any other file, whatever was read before (`Defect.inFile_meets`). Only what is wrong with the
text as JSON and with the shape of the tree is a fault of format (`Defect.isDocumented_iff`).
-/

namespace Colloquy

/-- Something that keeps a file from being read as a tree. -/
inductive Defect where
  /-- The bytes are not UTF-8. -/
  | encoding
  | json (failure : Json.Failure)
  | shape (flaw : FormatFlaw)
  /-- What is given for variables or metadata has no entries. -/
  | table (given : Datum)
  /-- A start node that cannot be looked up. -/
  | start (given : Datum)
  /-- A condition with an operator that cannot be looked up. -/
  | operator (condition : Datum)
deriving DecidableEq

section defects
variable [Text.Halves]

namespace Condition

/-- An object fails to be read as a condition only for an operator that is no scalar. -/
theorem ofTable_error {fs : Table Datum} {f : Fault} (h : ofTable fs = .error f) :
    f = .wrongKind ∧ ∀ v, fs.field "operator" ≠ .scalar v := by
  simp only [ofTable] at h
  split at h
  · cases h
  · split at h
    · split at h
      · cases h
      · split at h
        · cases h
        · split at h <;> cases h
        · rename_i other
          exact ⟨(Except.error.inj h).symm, other⟩
    · cases h

theorem ofDatum_error {d : Datum} {f : Fault} (h : ofDatum d = .error f) :
    f = .wrongKind ∧ ∃ fs, d = .map fs ∧ ∀ v, Table.field fs "operator" ≠ .scalar v := by
  unfold ofDatum at h
  split at h
  case h_3 fs => exact ⟨(ofTable_error h).1, fs, rfl, (ofTable_error h).2⟩
  all_goals cases h

end Condition

namespace Defect

/-- The fault that reading fails with. -/
def fault : Defect → Fault
  | .encoding => .notUtf8
  | .json (.malformed flaw) => .format (.json flaw)
  | .json .longInteger => .wrongValue
  | .json .tooDeep => .tooDeep
  | .shape flaw => .format flaw
  | .table given =>
    match Table.ofDatum given with
    | .error f => f
    | .ok _ => .wrongKind
  | .start _ | .operator _ => .wrongKind

/-- Whether a defect is one of the format of a tree. -/
def isDocumented : Defect → Bool
  | .json (.malformed _) | .shape _ => true
  | _ => false

/-! ## Lists of defects -/

def inCondition (d : Datum) : List Defect :=
  match Condition.ofDatum d with
  | .ok _ => []
  | .error _ => [.operator d]

/-- The defects of the conditions of a choice or node. -/
def inConditions (es : Table Datum) : List Defect :=
  (Reading.itemsOf (es.field "conditions")).flatMap inCondition

/-- The defects of the choices of a node, counted from a given index. -/
def inChoices (id : String) : ℕ → List Datum → List Defect
  | _, [] => []
  | i, .map es :: ds => inConditions es ++ inChoices id (i + 1) ds
  | i, _ :: ds => .shape (.choice id i) :: inChoices id (i + 1) ds

def inNode (id : Scalar) : Datum → List Defect
  | .map es =>
    (match (Table.field es "choices").orElse (.list []) with
      | .list ds => inChoices (Datum.scalar id).plain 0 ds
      | _ => [.shape (.choices (Datum.scalar id).plain)]) ++ inConditions es
  | d => [.shape (.node (Datum.scalar id).plain d.kind)]

/-- The defects of what is given for a table; nothing stands for an empty one. -/
def inTable (d : Datum) : List Defect :=
  match Table.ofDatum (d.orElse (.map [])) with
  | .ok _ => []
  | .error _ => [.table (d.orElse (.map []))]

def inStart (d : Datum) : List Defect :=
  match d with
  | .scalar _ => []
  | d => [.start d]

def inTree : Datum → List Defect
  | .map es =>
    (match (Table.field es "nodes").orElse (.map []) with
      | .map raw => inTable (Table.field es "variables") ++
          (inTable (Table.field es "metadata") ++ raw.flatMap fun e => inNode e.1 e.2)
      | _ => .shape .nodes ::
          (inTable (Table.field es "variables") ++ inTable (Table.field es "metadata"))) ++
      inStart ((Table.field es "startNode").orElse (.text "start"))
  | d => [.shape (.tree d.kind)]

def inText (s : String) : List Defect :=
  match Json.read s with
  | .ok d => inTree d
  | .error failure => [.json failure]

def inFile (b : ByteArray) : List Defect :=
  match Files.textOf b with
  | .ok s => inText s
  | .error _ => [.encoding]

/-! ## Reading stops at the first defect -/

open Reading

/-- What reading comes to that meets some defects: a value if there are none, and otherwise the
fault of the first. -/
def Ends {α : Type} (o : EStateM.Result Fault Reading α) : List Defect → Prop
  | [] => ∃ a r, o = .ok a r
  | d :: _ => ∃ r, o = .error d.fault r

/-- A step of reading meets some defects, whatever has been read before. -/
def Meets {α : Type} (m : Step α) (ds : List Defect) : Prop := ∀ r, Ends (m r) ds

section rules

variable {α β γ : Type} {m : Step α} {k : α → Step β} {ds ds' : List Defect}

omit [Text.Halves] in
theorem meets_pure (a : α) : Meets (pure a) [] := fun r => ⟨a, r, rfl⟩

omit [Text.Halves] in
theorem meets_throw {d : Defect} {f : Fault} (h : f = d.fault) :
    Meets (throw f : Step α) (d :: ds) :=
  fun r => ⟨r, by rw [h]; rfl⟩

omit [Text.Halves] in
theorem Meets.bind (hm : Meets m ds) (hk : ∀ a, Meets (k a) ds') : Meets (m >>= k) (ds ++ ds') := by
  intro r
  have hm := hm r
  cases ds with
  | nil =>
    obtain ⟨a, r₁, ha⟩ := hm
    have hb : (m >>= k) r = k a r₁ := by simp only [Bind.bind, EStateM.bind, ha]
    rw [hb]
    exact hk a r₁
  | cons d ds =>
    obtain ⟨r₁, ha⟩ := hm
    exact ⟨r₁, by simp only [Bind.bind, EStateM.bind, ha]⟩

omit [Text.Halves] in
theorem Meets.bind_total (hm : Meets m ds) (hk : ∀ a, Meets (k a) []) : Meets (m >>= k) ds := by
  have h := hm.bind hk
  rwa [List.append_nil] at h

omit [Text.Halves] in
theorem meets_noteAll (ns : List Notice) : Meets (noteAll ns) [] := fun _ => ⟨_, _, rfl⟩

omit [Text.Halves] in
theorem meets_mapM {f : γ → Step α} {defects : γ → List Defect}
    (hf : ∀ c, Meets (f c) (defects c)) : ∀ cs : List γ, Meets (cs.mapM f) (cs.flatMap defects)
  | [] => meets_pure []
  | c :: cs => by
    rw [List.mapM_cons]
    exact (hf c).bind fun _ => (meets_mapM hf cs).bind_total fun _ => meets_pure _

end rules

theorem guard_meets (d : Datum) : Meets (Reading.guard d) (inCondition d) := by
  unfold Reading.guard inCondition
  cases hc : Condition.ofDatum d with
  | ok c => exact (meets_noteAll _).bind_total fun _ => meets_pure _
  | error f => exact meets_throw (Condition.ofDatum_error hc).1

theorem conditions_meet (es : Table Datum) :
    Meets ((itemsOf (es.field "conditions")).mapM Reading.guard) (inConditions es) :=
  meets_mapM guard_meets _

/-- Reading an effect never fails. -/
theorem deeds_meet (ds : List Datum) : Meets (ds.mapM deed) [] := by
  have h : ∀ d, Meets (deed d) [] := fun d r => ⟨_, _, rfl⟩
  have hs := meets_mapM h ds
  rwa [List.flatMap_eq_nil_iff.2 fun _ _ => rfl] at hs

theorem choice_meets (es : Table Datum) : Meets (choice es) (inConditions es) :=
  (conditions_meet es).bind_total fun _ => (deeds_meet _).bind_total fun _ => meets_pure _

theorem choices_meet (id : String) : ∀ (i : ℕ) (ds : List Datum),
    Meets (choices id i ds) (inChoices id i ds)
  | _, [] => meets_pure []
  | i, .map es :: ds =>
    (choice_meets es).bind fun _ => (choices_meet id (i + 1) ds).bind_total fun _ => meets_pure _
  | _, .scalar _ :: _ | _, .list _ :: _ | _, .back _ :: _ => meets_throw rfl

theorem nodeWith_meets (id : Scalar) (cs : List Choice) (es : Table Datum) :
    Meets (nodeWith id cs es) (inConditions es) :=
  (conditions_meet es).bind_total fun _ => (deeds_meet _).bind_total fun _ => meets_pure _

theorem node_meets (id : Scalar) (d : Datum) : Meets (node id d) (inNode id d) := by
  rcases d with _ | _ | es | _
  case map =>
    rcases hc : (Table.field es "choices").orElse (.list []) with _ | ds | _ | _
    all_goals simp only [node, inNode, hc, List.cons_append]
    case list => exact (choices_meet _ 0 ds).bind fun cs => nodeWith_meets id cs es
    all_goals exact meets_throw rfl
  all_goals exact meets_throw rfl

theorem nodes_meet (raw : List (Scalar × Datum)) :
    Meets (nodes raw) (raw.flatMap fun e => inNode e.1 e.2) := by
  induction raw with
  | nil => exact meets_pure []
  | cons e raw ih =>
    rw [List.flatMap_cons]
    exact (node_meets e.1 e.2).bind fun _ => ih.bind_total fun _ => meets_pure _

omit [Text.Halves] in
theorem table_meets (d : Datum) : Meets (Reading.table d) (inTable d) := by
  unfold Reading.table inTable
  cases ht : Table.ofDatum (d.orElse (.map [])) with
  | ok t => exact meets_pure t
  | error f => exact meets_throw (by simp only [fault, ht])

theorem treeWith_meets (initial metadata : Table Datum) (ns : List Node) (es : Table Datum) :
    Meets (treeWith initial metadata ns es)
      (inStart ((es.field "startNode").orElse (.text "start"))) := by
  unfold treeWith
  generalize (es.field "startNode").orElse (.text "start") = start
  simp only
  generalize hl : Tree.lookup _ _ = found
  -- that there is no such node is worth a notice, but a start node that is no key stops the reading
  rcases start with v | _ | _ | _
  case scalar =>
    rcases found with f | _ | n
    · cases v <;> cases hl
    · exact (meets_noteAll _).bind_total fun _ => meets_pure _
    · exact meets_pure _
  all_goals
    subst hl
    exact meets_throw rfl

theorem tree_meets (d : Datum) : Meets (tree d) (inTree d) := by
  rcases d with _ | _ | es | _
  case map =>
    rcases hraw : (Table.field es "nodes").orElse (.map []) with _ | _ | raw | _
    all_goals simp only [tree, inTree, hraw, List.append_assoc, List.cons_append]
    case map =>
      exact (table_meets _).bind fun initial => (table_meets _).bind fun metadata =>
        (nodes_meet raw).bind fun ns => treeWith_meets initial metadata ns es
    all_goals exact meets_throw rfl
  all_goals exact meets_throw rfl

theorem text_meets (s : String) : Meets (text s) (inText s) := by
  unfold text inText
  cases Json.read s with
  | ok d => exact tree_meets d
  | error failure => cases failure <;> exact meets_throw rfl

/-- Loading a file comes to what its defects tell. -/
theorem file_meets {fs : Files} {p : FilePath} {b : ByteArray} (there : fs.bytes p = .ok b) :
    Meets (file fs p) (inFile b) := by
  unfold file Files.read inFile
  rw [there]
  simp only
  cases ht : Files.textOf b with
  | ok s => exact (text_meets s).bind_total fun _ => by split <;> exact meets_pure _
  | error f =>
    refine meets_throw ?_
    unfold Files.textOf at ht
    split at ht
    · cases ht
    · exact (Except.error.inj ht).symm

/-! ## What is not a fault of format -/

omit [Text.Halves] in
theorem isDocumented_iff (d : Defect) :
    d.isDocumented = true ↔ ∃ flaw, d.fault = .format flaw := by
  rcases d with _ | failure | flaw | given | given | c
  case json => cases failure <;> simp [isDocumented, fault]
  case table =>
    have other : ∀ f, Table.ofDatum given = .error f → f.isDialogue = false := by
      intro f h
      unfold Table.ofDatum at h
      split at h
      · cases h
      · rename_i hu
        exact Except.error.inj h ▸ Table.update_fault (congrArg Prod.snd hu)
    refine iff_of_false nofun ?_
    rintro ⟨flaw, hf⟩
    simp only [fault] at hf
    split at hf
    · rename_i f ht
      exact absurd (other f ht) (by rw [hf]; exact nofun)
    · cases hf
  all_goals simp [isDocumented, fault]

/-- Something in a file may keep it from being read in a way that is no fault of format: the bytes
are not UTF-8, the text has an integer of too many digits or too many lists and objects inside each
other, or the data has variables, metadata, a start node or an operator of a kind that these cannot
be. -/
inductive Escapes (b : ByteArray) : Prop
  | encoding (undecodable : String.fromUTF8? b = none)
  | integer {s : String} (text : Files.textOf b = .ok s) (long : Json.read s = .error .longInteger)
  | depth {s : String} (text : Files.textOf b = .ok s) (deep : Json.read s = .error .tooDeep)
  | table {s name : String} {es : Table Datum} (text : Files.textOf b = .ok s)
      (data : Json.read s = .ok (.map es)) (named : name = "variables" ∨ name = "metadata")
      (given : ∀ fs, (es.field name).orElse (.map []) ≠ .map fs)
  | start {s : String} {es : Table Datum} (text : Files.textOf b = .ok s)
      (data : Json.read s = .ok (.map es)) (given : ∀ v, es.field "startNode" ≠ .scalar v)
  | operator {s : String} {es fs : Table Datum} (text : Files.textOf b = .ok s)
      (data : Json.read s = .ok (.map es)) (condition : operator (.map fs) ∈ inTree (.map es))
      (given : ∀ v, fs.field "operator" ≠ .scalar v)

/-- A defect of a condition: an object with an operator that is no scalar. -/
def IsOperator (d : Defect) : Prop :=
  ∃ fs, d = .operator (.map fs) ∧ ∀ v, Table.field fs "operator" ≠ .scalar v

theorem isOperator_of_mem {es : Table Datum} {d : Defect} (h : d ∈ inConditions es) :
    d.IsOperator := by
  obtain ⟨c, -, hd⟩ := List.mem_flatMap.1 h
  unfold inCondition at hd
  split at hd
  · cases hd
  · rename_i hc
    obtain rfl := List.mem_singleton.1 hd
    obtain ⟨-, fs, rfl, hop⟩ := Condition.ofDatum_error hc
    exact ⟨fs, rfl, hop⟩

theorem mem_inChoices {id : String} {d : Defect} : ∀ {i : ℕ} {ds : List Datum},
    d ∈ inChoices id i ds → d.isDocumented = true ∨ d.IsOperator
  | _, [], h => absurd h List.not_mem_nil
  | _, .map _ :: _, h =>
    (List.mem_append.1 h).elim (fun h => .inr (isOperator_of_mem h)) mem_inChoices
  | _, .scalar _ :: _, h | _, .list _ :: _, h | _, .back _ :: _, h =>
    (List.mem_cons.1 h).elim (fun h => .inl (h ▸ rfl)) mem_inChoices

theorem mem_inNode {id : Scalar} {x : Datum} {d : Defect} (h : d ∈ inNode id x) :
    d.isDocumented = true ∨ d.IsOperator := by
  rcases x with _ | _ | es | _
  case map =>
    rcases List.mem_append.1 h with h | h
    · split at h
      · exact mem_inChoices h
      · exact .inl (List.mem_singleton.1 h ▸ rfl)
    · exact .inr (isOperator_of_mem h)
  all_goals exact .inl (List.mem_singleton.1 h ▸ rfl)

omit [Text.Halves] in
theorem mem_inTable {x : Datum} {d : Defect} (h : d ∈ inTable x) (fs : Table Datum) :
    x.orElse (.map []) ≠ .map fs := by
  intro hx
  rw [inTable, hx] at h
  cases h

omit [Text.Halves] in
theorem mem_inStart {x : Datum} {d : Defect} (h : d ∈ inStart (x.orElse (.text "start")))
    (v : Scalar) : x ≠ .scalar v := by
  rintro rfl
  unfold Datum.orElse at h
  split at h <;> cases h

theorem mem_inTree {es : Table Datum} {d : Defect} (h : d ∈ inTree (.map es)) :
    (d.isDocumented = true ∨ d.IsOperator) ∨ (∀ v, es.field "startNode" ≠ .scalar v) ∨
      ∃ name, (name = "variables" ∨ name = "metadata") ∧
        ∀ fs, (es.field name).orElse (.map []) ≠ .map fs := by
  have tables : d ∈ inTable (es.field "variables") ∨ d ∈ inTable (es.field "metadata") →
      ∃ name, (name = "variables" ∨ name = "metadata") ∧
        ∀ fs, (es.field name).orElse (.map []) ≠ .map fs := by
    rintro (h | h)
    · exact ⟨_, .inl rfl, mem_inTable h⟩
    · exact ⟨_, .inr rfl, mem_inTable h⟩
  rcases List.mem_append.1 h with h | h
  · split at h
    · simp only [List.mem_append, List.mem_flatMap] at h
      rcases h with h | h | ⟨e, -, h⟩
      · exact .inr (.inr (tables (.inl h)))
      · exact .inr (.inr (tables (.inr h)))
      · exact .inl (mem_inNode h)
    · rcases List.mem_cons.1 h with rfl | h
      · exact .inl (.inl rfl)
      · exact .inr (.inr (tables (List.mem_append.1 h)))
  · exact .inr (.inl (mem_inStart h))

/-- Whatever is no fault of format has its cause in the file. -/
theorem escapes_of_mem {b : ByteArray} {d : Defect} (h : d ∈ inFile b)
    (other : d.isDocumented = false) : Escapes b := by
  unfold inFile at h
  split at h
  · rename_i s text
    unfold inText at h
    split at h
    · rename_i x data
      rcases x with _ | _ | es | _
      case map =>
        rcases mem_inTree h with (hd | ⟨fs, rfl, given⟩) | given | ⟨name, named, given⟩
        · exact absurd (hd.symm.trans other) nofun
        · exact .operator text data h given
        · exact .start text data given
        · exact .table text data named given
      all_goals
        obtain rfl := List.mem_singleton.1 h
        cases other
    · rename_i failure read
      obtain rfl := List.mem_singleton.1 h
      cases failure with
      | malformed flaw => cases other
      | longInteger => exact .integer text read
      | tooDeep => exact .depth text read
  · rename_i f text
    unfold Files.textOf at text
    split at text
    · cases text
    · rename_i undecodable
      exact .encoding undecodable

end Defect

/-- Loading a file returns a tree if the file has no defects, and fails at its first defect
otherwise, whatever was read before. So it returns a tree or fails with a fault of format just if
the first defect, if there is any, is one of format; and that is so wherever the bytes are UTF-8,
the text has no integer of too many digits and is not nested too deeply, and no variables, metadata,
start node or operators are of a kind that these cannot be. -/
theorem Reading.file_outcome {fs : Files} {p : FilePath} {b : ByteArray}
    (there : fs.bytes p = .ok b) (r : Reading) :
    let loads := ∃ t r', file fs p r = .ok t r'
    let documented := ∃ flaw r', file fs p r = .error (.format flaw) r'
    (Defect.inFile b = [] → loads) ∧
      (∀ d ds, Defect.inFile b = d :: ds → ∃ r', file fs p r = .error d.fault r') ∧
      (loads ∨ documented ↔ ∀ d ∈ (Defect.inFile b).head?, d.isDocumented = true) ∧
      (¬ Defect.Escapes b → loads ∨ documented) := by
  intro loads documented
  have ends := Defect.file_meets there r
  have told : loads ∨ documented ↔ ∀ d ∈ (Defect.inFile b).head?, d.isDocumented = true := by
    rcases hd : Defect.inFile b with _ | ⟨d, ds⟩
    · rw [hd] at ends
      exact iff_of_true (.inl ends) nofun
    · rw [hd] at ends
      obtain ⟨r', he⟩ := ends
      have fails : ¬ loads := by
        rintro ⟨t, r₁, ht⟩
        exact absurd (he.symm.trans ht) nofun
      have one : documented ↔ ∃ flaw, d.fault = .format flaw := by
        constructor
        · rintro ⟨flaw, r₁, hf⟩
          obtain ⟨hf, -⟩ := EStateM.Result.error.inj (he.symm.trans hf)
          exact ⟨flaw, hf⟩
        · rintro ⟨flaw, hf⟩
          exact ⟨flaw, r', hf ▸ he⟩
      rw [or_iff_right fails, one, ← Defect.isDocumented_iff]
      simp
  refine ⟨fun hd => ?_, fun d ds hd => ?_, told, fun none => told.2 fun d hd => ?_⟩
  · rw [hd] at ends
    exact ends
  · rw [hd] at ends
    exact ends
  · by_contra other
    exact none (Defect.escapes_of_mem (List.mem_of_mem_head? hd) (Bool.eq_false_iff.2 other))

end defects

namespace Reading

attribute [local instance] Text.noHalves

/-- A folder with one file. -/
def tray (b : ByteArray) : Files := { top := .folder [("t.json", .file b)] }

theorem bytes_tray (b : ByteArray) : (tray b).bytes (.ofText "t.json") = .ok b := by
  have found : (tray b).locate (.ofText "t.json") = .file ["t.json"] := rfl
  unfold Files.bytes
  rw [found]
  rfl

/-- An empty object is a tree, and a list in place of the nodes is a fault of format. -/
theorem file_outcome_tray :
    (tray "\x7b\x7d".toUTF8).bytes (.ofText "t.json") = .ok "\x7b\x7d".toUTF8 ∧
      (∀ r, ∃ t r', file (tray "\x7b\x7d".toUTF8) (.ofText "t.json") r = .ok t r') ∧
      ∀ r, ∃ r', file (tray "\x7b\"nodes\": [0]\x7d".toUTF8) (.ofText "t.json") r =
        .error (.format .nodes) r' := by
  refine ⟨bytes_tray _, fun r => ?_, fun r => ?_⟩
  · obtain ⟨loads, -⟩ := file_outcome (bytes_tray "\x7b\x7d".toUTF8) r
    exact loads (by decide +kernel)
  · obtain ⟨-, fails, -⟩ := file_outcome (bytes_tray "\x7b\"nodes\": [0]\x7d".toUTF8) r
    exact fails (.shape .nodes) [] (by decide +kernel)

/-- Bytes that are not UTF-8 are no tree, and no fault of format either. -/
theorem file_undecodable :
    (tray ⟨#[0xff]⟩).bytes (.ofText "t.json") = .ok ⟨#[0xff]⟩ ∧
      ∀ r, file (tray ⟨#[0xff]⟩) (.ofText "t.json") r = .error .notUtf8 r := by
  have undecodable : Files.textOf ⟨#[0xff]⟩ = .error .notUtf8 := by decide +kernel
  refine ⟨bytes_tray _, fun r => ?_⟩
  rw [file, Files.read, bytes_tray]
  simp only [undecodable]
  rfl

end Reading

end Colloquy
