import Colloquy.Proofs.Rereading
import Colloquy.Proofs.Stored
import Colloquy.Tree.File

/-!
# Trees are restored from text and from files

What a tree is written as holds plain scalars only if the data does that the tree was read from
(`Reading.tree_plain`): its defaults are plain, and so is a text that stands for an id. So the text
of a tree is read again at any indentation, and so is a file that it was saved to, if lists and
tables are nested no deeper than can be read (`Tree.restored`).
-/

namespace Colloquy

section plain
variable [Text.Halves]

/-! ## Plain data -/

/-- Whether a value is one that JSON can hold, with plain scalars only. -/
structure Datum.IsPlain (d : Datum) : Prop where
  json : d.IsJson
  scalars : d.HoldsOnly Scalar.IsPlain

namespace Datum

omit [Text.Halves] in
theorem itemsJson_iff {xs : List Datum} : ItemsJson xs ↔ ∀ x ∈ xs, x.IsJson := by
  induction xs with
  | nil => simp [ItemsJson]
  | cons x xs ih => rw [ItemsJson, ih, List.forall_mem_cons]

omit [Text.Halves] in
theorem entriesJson_iff {es : List (Scalar × Datum)} :
    EntriesJson es ↔ ∀ e ∈ es, e.2.IsJson := by
  induction es with
  | nil => simp [EntriesJson]
  | cons e es ih => rw [EntriesJson, ih, List.forall_mem_cons]

omit [Text.Halves] in
theorem itemsHoldOnly_iff {P : Scalar → Prop} {xs : List Datum} :
    ItemsHoldOnly P xs ↔ ∀ x ∈ xs, x.HoldsOnly P := by
  induction xs with
  | nil => simp [ItemsHoldOnly]
  | cons x xs ih => rw [ItemsHoldOnly, ih, List.forall_mem_cons]

omit [Text.Halves] in
theorem entriesHoldOnly_iff {P : Scalar → Prop} {es : List (Scalar × Datum)} :
    EntriesHoldOnly P es ↔ ∀ e ∈ es, P e.1 ∧ e.2.HoldsOnly P := by
  induction es with
  | nil => simp [EntriesHoldOnly]
  | cons e es ih => rw [EntriesHoldOnly, ih, List.forall_mem_cons, and_assoc]

theorem isPlain_scalar {s : Scalar} : (Datum.scalar s).IsPlain ↔ s.IsPlain :=
  ⟨fun h => by simpa [HoldsOnly] using h.scalars,
    fun h => ⟨trivial, by rwa [HoldsOnly]⟩⟩

theorem isPlain_list {xs : List Datum} : (Datum.list xs).IsPlain ↔ ∀ x ∈ xs, x.IsPlain := by
  constructor
  · rintro ⟨json, scalars⟩ x hx
    rw [IsJson, itemsJson_iff] at json
    rw [HoldsOnly, itemsHoldOnly_iff] at scalars
    exact ⟨json x hx, scalars x hx⟩
  · intro h
    refine ⟨?_, ?_⟩
    · rw [IsJson, itemsJson_iff]
      exact fun x hx => (h x hx).json
    · rw [HoldsOnly, itemsHoldOnly_iff]
      exact fun x hx => (h x hx).scalars

theorem isPlain_map {es : List (Scalar × Datum)} : (Datum.map es).IsPlain ↔
    (∀ e ∈ es, ∃ s, e.1 = .text s ∧ Text.isWhole s = true) ∧ Table.Keyed es ∧
      ∀ e ∈ es, e.2.IsPlain := by
  constructor
  · rintro ⟨json, scalars⟩
    rw [IsJson, entriesJson_iff] at json
    rw [HoldsOnly, entriesHoldOnly_iff] at scalars
    refine ⟨fun e he => ?_, json.2.1, fun e he => ⟨json.2.2 e he, (scalars e he).2⟩⟩
    obtain ⟨s, hs⟩ := json.1 e he
    have hk := (scalars e he).1
    rw [hs] at hk
    exact ⟨s, hs, hk⟩
  · rintro ⟨keys, keyed, plain⟩
    refine ⟨?_, ?_⟩
    · rw [IsJson, entriesJson_iff]
      exact ⟨fun e he => (keys e he).imp fun s hs => hs.1, keyed, fun e he => (plain e he).json⟩
    · rw [HoldsOnly, entriesHoldOnly_iff]
      refine fun e he => ⟨?_, (plain e he).scalars⟩
      obtain ⟨s, hs, whole⟩ := keys e he
      rw [hs]
      exact whole

omit [Text.Halves] in
theorem keyed_object {es : List (String × Datum)} (distinct : (es.map (·.1)).Nodup) :
    Table.Keyed (es.map fun (k, d) => (Scalar.text k, d)) := by
  rw [Table.Keyed, List.map_map]
  rw [List.Nodup, List.pairwise_map] at distinct
  refine List.pairwise_map.2 (distinct.imp fun {a b} hab => ?_)
  rw [Bool.eq_false_iff]
  intro h
  exact hab (Scalar.text.inj (Scalar.alike_text_iff.1 h))

/-- A table with names in ASCII, each of them once. -/
theorem isPlain_object {es : List (String × Datum)} (names : List String)
    (h : names.Nodup ∧ (names.all fun s => Text.isBasic s.toList) = true)
    (named : es.map (·.1) = names) (plain : es.Forall fun e => e.2.IsPlain) :
    (object es).IsPlain := by
  obtain ⟨distinct, ascii⟩ := h
  rw [← named] at distinct ascii
  rw [List.all_eq_true, List.forall_mem_map] at ascii
  refine isPlain_map.2 ⟨?_, keyed_object distinct, ?_⟩
  · refine List.forall_mem_map.2 fun e he => ⟨e.1, rfl, ?_⟩
    exact Text.isWhole_of_lasts (Text.lasts_ascii (ascii e he))
  · exact List.forall_mem_map.2 (List.forall_iff_forall_mem.1 plain)

theorem IsPlain.field {es : Table Datum} (h : (Datum.map es).IsPlain) (name : String) :
    (Table.field es name).IsPlain := by
  unfold Table.field
  rcases hd : es.get? (.text name) with _ | d
  · exact isPlain_scalar.2 trivial
  · obtain ⟨k, hk⟩ := Table.mem_of_get? hd
    exact (isPlain_map.1 h).2.2 (k, d) hk

theorem IsPlain.orElse {d e : Datum} (hd : d.IsPlain) (he : e.IsPlain) : (d.orElse e).IsPlain := by
  unfold Datum.orElse
  split_ifs
  · exact hd
  · exact he

/-! ### What fields get in place of what is missing -/

theorem isPlain_null : Datum.null.IsPlain := isPlain_scalar.2 trivial

theorem isPlain_bool (b : Bool) : (Datum.bool b).IsPlain := isPlain_scalar.2 trivial

theorem isPlain_zero : (Datum.int 0).IsPlain :=
  isPlain_scalar.2 (by decide +kernel : 0 < integerBound)

theorem isPlain_ascii {s : String} (h : Text.isBasic s.toList = true) : (Datum.text s).IsPlain :=
  isPlain_scalar.2 (Text.isWhole_of_lasts (Text.lasts_ascii h))

theorem isPlain_nil : (Datum.list []).IsPlain := isPlain_list.2 (List.forall_mem_nil _)

theorem isPlain_empty : (Datum.map []).IsPlain :=
  isPlain_map.2 ⟨List.forall_mem_nil _, Table.keyed_nil, List.forall_mem_nil _⟩

theorem IsPlain.itemsJson {xs : List Datum} (h : (Datum.list xs).IsPlain) : ItemsJson xs :=
  itemsJson_iff.2 fun x hx => (isPlain_list.1 h x hx).json

theorem IsPlain.entriesJson {es : List (Scalar × Datum)} (h : (Datum.map es).IsPlain) :
    EntriesJson es :=
  entriesJson_iff.2 fun e he => ((isPlain_map.1 h).2.2 e he).json

theorem isPlain_itemsOf {d : Datum} (h : d.IsPlain) : ∀ x ∈ Reading.itemsOf d, x.IsPlain := by
  unfold Reading.itemsOf
  split
  · exact List.forall_mem_nil _
  · exact isPlain_list.1 h
  · exact List.forall_mem_singleton.2 h

/-- A table, or null in place of one. -/
def IsObject (d : Datum) : Prop := d = .null ∨ ∃ es, d = .map es

/-- Whether the variables and the metadata of what a tree is read from are tables or missing. -/
def HasTables (d : Datum) : Prop :=
  ∀ es, d = .map es →
    (Table.field es "variables").IsObject ∧ (Table.field es "metadata").IsObject

end Datum

/-! ## Trees that are read from plain data -/

theorem Choice.IsRead.toDatum_mono {h h' : Heap} {c : Choice} (hc : c.IsRead h)
    (H : h.Extends h') : c.toDatum h' = c.toDatum h := by
  rw [toDatum, toDatum, Deed.views_eq hc.deeds, Deed.views_eq (hc.mono H).deeds]

theorem Node.IsRead.toDatum_mono {h h' : Heap} {n : Node} (hn : n.IsRead h)
    (H : h.Extends h') : n.toDatum h' = n.toDatum h := by
  have hcs : n.choices.map (·.toDatum h') = n.choices.map (·.toDatum h) :=
    List.map_congr_left fun c hc => (hn.choices c hc).toDatum_mono H
  rw [toDatum, toDatum, Deed.views_eq hn.deeds, Deed.views_eq (hn.mono H).deeds, hcs]

namespace Reading

open Datum

omit [Text.Halves] in
theorem mapM_source {β : Type} {f : Datum → Step β} {source : β → Datum}
    (hf : ∀ {d r b r'}, f d r = .ok b r' → source b = d) : ∀ {ds : List Datum} {bs : List β}
      {r r' : Reading}, ds.mapM f r = .ok bs r' → bs.map source = ds
  | [], _, _, _, h => by
    cases h
    rfl
  | d :: ds, bs, r, r', h => by
    rw [List.mapM_cons] at h
    obtain ⟨b, r₁, hb, h⟩ := bind_ok h
    obtain ⟨bs', r₂, hbs, h⟩ := bind_ok h
    cases h
    rw [List.map_cons, hf hb, mapM_source hf hbs]

theorem guard_source {d : Datum} {r r' : Reading} {g : Guard} (h : guard d r = .ok g r') :
    g.source = d := by
  unfold guard at h
  rcases hc : Condition.ofDatum d with f | c
  all_goals rw [hc] at h
  · cases h
  · obtain ⟨_, r₁, hn, h⟩ := bind_ok h
    cases h
    rfl

theorem deed_source {d : Datum} {r r' : Reading} {a : Deed} (h : deed d r = .ok a r') :
    a.source = d := by
  cases h
  rfl

/-- The fields that choices and nodes share. -/
theorem sources_plain {es : Table Datum} (plain : (Datum.map es).IsPlain) {r r₁ r₂ : Reading}
    {guards : List Guard} {deeds : List Deed}
    (hg : (itemsOf (es.field "conditions")).mapM guard r = .ok guards r₁)
    (hd : (itemsOf (es.field "effects")).mapM deed r₁ = .ok deeds r₂) :
    (Datum.list (guards.map (·.source))).IsPlain ∧
      (Datum.list (deeds.map (·.view r₂.heap))).IsPlain := by
  have hread := (deeds_read (plain.field "effects").json hd).2
  rw [Deed.views_eq hread, mapM_source guard_source hg, mapM_source deed_source hd,
    Datum.isPlain_list, Datum.isPlain_list]
  exact ⟨Datum.isPlain_itemsOf (plain.field _), Datum.isPlain_itemsOf (plain.field _)⟩

theorem choice_plain {es : Table Datum} (plain : (Datum.map es).IsPlain) {r r' : Reading}
    {c : Choice} (h : choice es r = .ok c r') : (c.toDatum r'.heap).IsPlain := by
  obtain ⟨guards, r₁, hg, h⟩ := bind_ok h
  obtain ⟨deeds, r₂, hd, h⟩ := bind_ok h
  cases h
  obtain ⟨hguards, hdeeds⟩ := sources_plain plain hg hd
  exact isPlain_object ["text", "goto", "conditions", "effects", "priority", "once",
    "requirements"] (by decide) rfl ⟨(plain.field "text").orElse (isPlain_ascii rfl),
      (plain.field "goto").orElse isPlain_null, hguards, hdeeds,
      (plain.field "priority").orElse isPlain_zero, isPlain_bool _,
      isPlain_list.2 (isPlain_itemsOf (plain.field "requirements"))⟩

theorem choices_plain {id : String} : ∀ {i : ℕ} {ds : List Datum}, (Datum.list ds).IsPlain →
    ∀ {r r' : Reading} {cs : List Choice}, choices id i ds r = .ok cs r' →
      ∀ c ∈ cs, (c.toDatum r'.heap).IsPlain
  | _, [], _, _, _, _, h => by
    cases h
    exact List.forall_mem_nil _
  | i, .map es :: ds, plain, r, r', cs, h => by
    obtain ⟨hes, hds⟩ := List.forall_mem_cons.1 (isPlain_list.1 plain)
    obtain ⟨c, r₁, hc, h⟩ := bind_ok h
    obtain ⟨cs', r₂, hcs, h⟩ := bind_ok h
    cases h
    have hread := (choice_reads hes.entriesJson hc).2
    have H := (choices_read (isPlain_list.2 hds).itemsJson hcs).1
    refine List.forall_mem_cons.2 ⟨?_, choices_plain (isPlain_list.2 hds) hcs⟩
    rw [hread.toDatum_mono H]
    exact choice_plain hes hc
  | _, .scalar _ :: _, _, _, _, _, h => by cases h
  | _, .list _ :: _, _, _, _, _, h => by cases h
  | _, .back _ :: _, _, _, _, _, h => by cases h

theorem nodeWith_plain {id : Scalar} {cs : List Choice} {es : Table Datum}
    (plain : (Datum.map es).IsPlain) {r r' : Reading} {n : Node} (hread : ∀ c ∈ cs, c.IsRead r.heap)
    (hcs : ∀ c ∈ cs, (c.toDatum r.heap).IsPlain) (h : nodeWith id cs es r = .ok n r') :
    (n.toDatum r'.heap).IsPlain := by
  obtain ⟨guards, r₁, hg, h⟩ := bind_ok h
  obtain ⟨deeds, r₂, hd, h⟩ := bind_ok h
  cases h
  obtain ⟨hguards, hdeeds⟩ := sources_plain plain hg hd
  have H := (guards_read hg).1.trans (deeds_read (plain.field "effects").json hd).1
  have hchoices : (Datum.list (cs.map (·.toDatum r'.heap))).IsPlain := by
    refine isPlain_list.2 (List.forall_mem_map.2 fun c hc => ?_)
    rw [(hread c hc).toDatum_mono H]
    exact hcs c hc
  exact isPlain_object ["text", "speaker", "portrait", "choices", "autoAdvance", "nextNode",
    "voiceLine", "conditions", "effects", "tags", "priority"] (by decide) rfl
    ⟨(plain.field "text").orElse (isPlain_ascii rfl),
      (plain.field "speaker").orElse (isPlain_ascii rfl), plain.field "portrait", hchoices,
      isPlain_bool _, (plain.field "nextNode").orElse isPlain_null, plain.field "voiceLine",
      hguards, hdeeds, isPlain_list.2 (isPlain_itemsOf (plain.field "tags")),
      (plain.field "priority").orElse isPlain_zero⟩

theorem node_plain {id : Scalar} {d : Datum} (plain : d.IsPlain) {r r' : Reading} {n : Node}
    (h : node id d r = .ok n r') : (n.toDatum r'.heap).IsPlain := by
  rcases d with _ | _ | es | _
  case map =>
    unfold node at h
    rcases hc : (Table.field es "choices").orElse (.list []) with _ | ds | _ | _
    all_goals simp only [hc] at h
    case list =>
      have hds : (Datum.list ds).IsPlain := hc ▸ (plain.field "choices").orElse isPlain_nil
      obtain ⟨cs, r₁, hcs, h⟩ := bind_ok h
      have hread := (choices_read hds.itemsJson hcs).2
      exact nodeWith_plain plain hread (choices_plain hds hcs) h
    all_goals cases h
  all_goals cases h

theorem nodes_plain : ∀ {raw : List (Scalar × Datum)}, (∀ e ∈ raw, e.2.IsPlain) →
    ∀ {r r' : Reading} {ns : List Node}, nodes raw r = .ok ns r' →
      ∀ n ∈ ns, (n.toDatum r'.heap).IsPlain
  | [], _, _, _, _, h => by
    cases h
    exact List.forall_mem_nil _
  | (k, d) :: raw, plain, r, r', ns, h => by
    rw [List.forall_mem_cons] at plain
    obtain ⟨n, r₁, hn, h⟩ := bind_ok h
    obtain ⟨ns', r₂, hns, h⟩ := bind_ok h
    cases h
    have hread := (node_reads plain.1.json hn).2
    have H := (nodes_read (entriesJson_iff.2 fun e he => (plain.2 e he).json) hns).1
    refine List.forall_mem_cons.2 ⟨?_, nodes_plain plain.2 hns⟩
    rw [hread.toDatum_mono H]
    exact node_plain plain.1 hn

/-- The table of the nodes has the keys that it was read from. -/
theorem nodes_table_plain {raw : Table Datum} (plain : (Datum.map raw).IsPlain)
    {r r' : Reading} {ns : List Node} (h : nodes raw r = .ok ns r') :
    (Datum.map (ns.map fun n => (n.id, n.toDatum r'.heap))).IsPlain := by
  obtain ⟨keys, keyed, values⟩ := isPlain_map.1 plain
  have hids := nodes_ids h
  refine isPlain_map.2 ⟨?_, Table.keyed_congr ?_ keyed, ?_⟩
  · refine List.forall_mem_map.2 fun n hn => ?_
    have hid : n.id ∈ raw.map (·.1) := hids ▸ List.mem_map_of_mem hn
    obtain ⟨e, he, hid⟩ := List.mem_map.1 hid
    obtain ⟨s, hs, whole⟩ := keys e he
    exact ⟨s, hid.symm.trans hs, whole⟩
  · rw [List.map_map]
    exact hids.symm
  · exact List.forall_mem_map.2 (nodes_plain values h)

omit [Text.Halves] in
/-- An object, or an empty one in place of none, is read as the table that it is. -/
theorem table_object {d : Datum} (json : d.IsJson) (object : d.IsObject) {r r' : Reading}
    {t : Table Datum} (h : table d r = .ok t r') : d.orElse (.map []) = .map t := by
  obtain ⟨es, hes⟩ : ∃ es, d.orElse (.map []) = .map es := by
    rcases object with rfl | ⟨es, rfl⟩
    · exact ⟨[], rfl⟩
    · exact ⟨es, orElse_map es⟩
  have keyed : Table.Keyed es := by
    have hes' := hes ▸ Datum.isJson_orElse json Datum.isJson_empty
    rw [IsJson] at hes'
    exact hes'.2.1
  have hagain : table d r = .ok es r := by
    rw [← table_again keyed r, table, table, hes, orElse_map]
  rw [hagain] at h
  cases h
  exact hes

theorem table_plain {d : Datum} (plain : d.IsPlain) (object : d.IsObject) {r r' : Reading}
    {t : Table Datum} (h : table d r = .ok t r') : (Datum.map t).IsPlain :=
  table_object plain.json object h ▸ plain.orElse isPlain_empty

/-- What a tree is written as has plain scalars only if the data has that it was read from. -/
theorem tree_plain {d : Datum} (plain : d.IsPlain) (tables : d.HasTables) {r r' : Reading}
    {t : Tree} (h : tree d r = .ok t r') : (t.toDatum r'.heap).IsPlain := by
  rcases d with _ | _ | es | _
  case map =>
    obtain ⟨held, marks⟩ := tables es rfl
    unfold tree at h
    rcases hraw : (Table.field es "nodes").orElse (.map []) with _ | _ | raw | _
    all_goals simp only [hraw] at h
    case map =>
      have hplain : (Datum.map raw).IsPlain := hraw ▸ (plain.field "nodes").orElse isPlain_empty
      obtain ⟨initial, r₁, hi, h⟩ := bind_ok h
      obtain ⟨meta_, r₂, hm, h⟩ := bind_ok h
      obtain ⟨ns, r₃, hns, h⟩ := bind_ok h
      obtain ⟨hheap, rfl, -⟩ := treeWith_reads h
      rw [hheap]
      have hid := isWhole_plain ((plain.field "id").orElse (isPlain_ascii (s := "") rfl)).scalars
      exact isPlain_object ["id", "title", "description", "startNode", "nodes", "variables",
        "metadata"] (by decide) rfl ⟨isPlain_scalar.2 hid,
          (plain.field "title").orElse (isPlain_ascii rfl),
          (plain.field "description").orElse (isPlain_ascii rfl),
          (plain.field "startNode").orElse (isPlain_ascii rfl), nodes_table_plain hplain hns,
          table_plain (plain.field "variables") held hi,
          table_plain (plain.field "metadata") marks hm⟩
    all_goals cases h
  all_goals cases h

/-- Text that is JSON is read as the tree that the JSON describes. -/
theorem text_eq {s : String} {d : Datum} (h : Json.read s = .ok d) (r : Reading) :
    text s r = tree d r := by
  rw [text, h]

theorem text_tooDeep {s : String} (h : Json.read s = .error .tooDeep) (r : Reading) :
    text s r = .error .tooDeep r := by
  rw [text, h]
  rfl

end Reading

/-! ## Trees that are read again -/

/-- Whether a tree is read that is the same as another one, up to the cells of the values of its
effects, and that is written as that one is. -/
def Tree.IsRestored (h : Heap) (t : Tree) (o : EStateM.Result Fault Reading Tree) : Prop :=
  ∃ t' r, o = .ok t' r ∧ t.Agrees h r.heap t' ∧ t'.toDatum r.heap = t.toDatum h

namespace Reading

variable {d : Datum} {t : Tree} {r₀ r₁ : Reading}

/-- The text of a tree, at any indentation, is read as the tree again. -/
theorem text_restored (plain : d.IsPlain) (tables : d.HasTables) (h : tree d r₀ = .ok t r₁)
    (shallow : (t.toDatum r₁.heap).depth ≤ Json.depthLimit) (indent : Option ℕ) :
    ∃ s, Json.write? (.spaced indent) (t.toDatum r₁.heap) = some s ∧
      ∀ r, t.IsRestored r₁.heap (text s r) := by
  have hplain := tree_plain plain tables h
  obtain ⟨s, hs, hread⟩ := Json.read_write? indent hplain.json hplain.scalars
  rw [if_pos shallow] at hread
  refine ⟨s, hs, fun r => ?_⟩
  obtain ⟨t', r', ht, agrees, shown⟩ := tree_reread plain.json h r
  exact ⟨t', r', (text_eq hread r).trans ht, agrees, shown⟩

/-- A tree with an id keeps it when it is read from a file. -/
theorem file_restored {h : Heap} {fs : Files} {p : FilePath} {s : String} {r : Reading}
    (id : t.id.isTrue = true) (hs : fs.read p = .ok s) (restored : t.IsRestored h (text s r)) :
    t.IsRestored h (file fs p r) := by
  obtain ⟨t', r', ht, agrees, shown⟩ := restored
  have hid : t'.id = t.id := by rw [agrees.fields]
  have hfile : file fs p r = .ok t' r' := by
    unfold file
    rw [hs]
    simp only [bind_eq ht, hid, id, if_true]
    rfl
  exact ⟨t', r', hfile, agrees, shown⟩

end Reading

namespace Tree

variable {d : Datum} {t : Tree} {h h' : Heap}

theorem exists_of_ofDatum (loaded : ofDatum h d = .ok (t, h')) :
    ∃ r, Reading.tree d { heap := h } = .ok t r ∧ r.heap = h' := by
  unfold ofDatum at loaded
  split at loaded
  case h_1 r hr =>
    cases loaded
    exact ⟨r, hr, rfl⟩
  case h_2 => cases loaded

theorem IsRead.id_isTrue (read : t.IsRead h) (named : t.id ≠ .text "") : t.id.isTrue = true := by
  obtain ⟨s, hs⟩ : ∃ s, t.id = .text s := ⟨_, read.id.symm⟩
  rw [hs] at named ⊢
  have hne : s ≠ "" := by
    rintro rfl
    exact named rfl
  simp [Datum.isTrue, Scalar.isTrue, hne]

theorem toJson?_eq (h : Heap) (t : Tree) :
    t.toJson? h = Json.write? (.spaced (some 2)) (t.toDatum h) := rfl

theorem save_eq {s : String} (hs : t.toJson? h = some s) (fs : Files) (p : FilePath) :
    t.save h fs p = fs.save p [s] := by
  unfold save
  rw [hs]
  rfl

/-- A tree can be saved where an empty file can. -/
theorem save_fault (plain : (t.toDatum h).IsPlain) (fs : Files) (p : FilePath) :
    (t.save h fs p).2 = (fs.save p []).2 := by
  obtain ⟨s, hs, -⟩ := Json.read_write? (some 2) plain.json plain.scalars
  have whole := Text.isWhole_of_lasts (Json.lasts_write? plain.scalars hs)
  rw [save_eq hs]
  exact Files.save_fault (List.forall_mem_singleton.2 whole) fs p

/-- The file that a tree was saved to holds its text. -/
theorem read_save (plain : (t.toDatum h).IsPlain) {fs : Files} (g : fs.Grounded) {p : FilePath}
    (saved : (t.save h fs p).2 = none) {s : String} (hs : t.toJson? h = some s) :
    (t.save h fs p).1.read p = .ok s := by
  rw [save_eq hs] at saved ⊢
  rw [toJson?_eq] at hs
  exact Files.read_save g (Json.lasts_write? plain.scalars hs) saved

/-- The text of a tree with more lists and tables inside each other is not read. -/
theorem text_refused (plain : d.IsPlain) (tables : d.HasTables)
    (loaded : ofDatum h d = .ok (t, h')) (deep : Json.depthLimit < (t.toDatum h').depth)
    (indent : Option ℕ) : ∃ s, Json.write? (.spaced indent) (t.toDatum h') = some s ∧
      ∀ r, Reading.text s r = .error .tooDeep r := by
  obtain ⟨r₁, hr, rfl⟩ := exists_of_ofDatum loaded
  have hplain := Reading.tree_plain plain tables hr
  obtain ⟨s, hs, hread⟩ := Json.read_write? indent hplain.json hplain.scalars
  rw [if_neg (by omega)] at hread
  exact ⟨s, hs, Reading.text_tooDeep hread⟩

/-- A tree that was read from JSON with plain scalars is restored from its text, whatever the
indentation, and if it has an id, from a file that it was saved to, which can be any that an empty
file can be saved to. Its lists and tables must not be nested deeper than can be read. -/
theorem restored (plain : d.IsPlain) (tables : d.HasTables)
    (loaded : ofDatum h d = .ok (t, h')) (shallow : (t.toDatum h').depth ≤ Json.depthLimit) :
    (∀ indent : Option ℕ, ∃ s, Json.write? (.spaced indent) (t.toDatum h') = some s ∧
      ∀ r, t.IsRestored h' (Reading.text s r)) ∧
    (t.id ≠ .text "" → ∀ (fs : Files) (p : FilePath), fs.Grounded →
      (t.save h' fs p).2 = (fs.save p []).2 ∧
      ((t.save h' fs p).2 = none →
        ∀ r, t.IsRestored h' (Reading.file (t.save h' fs p).1 p r))) := by
  obtain ⟨r₁, hr, rfl⟩ := exists_of_ofDatum loaded
  have hplain := Reading.tree_plain plain tables hr
  refine ⟨Reading.text_restored plain tables hr shallow, fun named fs p g => ?_⟩
  refine ⟨save_fault hplain fs p, fun saved r => ?_⟩
  obtain ⟨s, hs, hread⟩ := Reading.text_restored plain tables hr shallow (some 2)
  have id := (Reading.tree_reads plain.json hr).id_isTrue named
  exact Reading.file_restored id (read_save hplain g saved hs) (hread r)

end Tree

end plain

attribute [local instance] Text.noHalves

/-- Lists inside each other, to a given depth below the first. -/
def shaft : ℕ → Datum
  | 0 => .list []
  | n + 1 => .list [shaft n]

/-- A file with a variable that is nested to a given depth. -/
def cavern (n : ℕ) : Datum :=
  .object [("id", .text "cavern"), ("variables", .object [("shaft", shaft n)]),
    ("nodes", .object [("start", .object [("text", .text "“Hé!”\n\t…"), ("tags", .int (-7))])])]

theorem depth_shaft (n : ℕ) : (shaft n).depth = n + 1 := by
  induction n with
  | zero => rfl
  | succ n ih => simp [shaft, Datum.depth, Datum.depthOfItems, ih]

theorem shaft_plain (n : ℕ) : (shaft n).IsPlain := by
  induction n with
  | zero => exact Datum.isPlain_nil
  | succ n ih => exact Datum.isPlain_list.2 (List.forall_mem_singleton.2 ih)

theorem cavern_plain (n : ℕ) : (cavern n).IsPlain := by
  have line : (Datum.text "“Hé!”\n\t…").IsPlain :=
    Datum.isPlain_scalar.2 (by decide +kernel : Text.isWhole "“Hé!”\n\t…" = true)
  have tag : (Datum.int (-7)).IsPlain :=
    Datum.isPlain_scalar.2 (by decide +kernel : (-7 : ℤ).natAbs < integerBound)
  have start : (Datum.object [("text", .text "“Hé!”\n\t…"), ("tags", .int (-7))]).IsPlain :=
    Datum.isPlain_object ["text", "tags"] (by decide) rfl ⟨line, tag⟩
  refine Datum.isPlain_object ["id", "variables", "nodes"] (by decide) rfl
    ⟨Datum.isPlain_ascii rfl, ?_, ?_⟩
  · exact Datum.isPlain_object ["shaft"] (by decide) rfl (shaft_plain n)
  · exact Datum.isPlain_object ["start"] (by decide) rfl start

theorem cavern_tables (n : ℕ) : (cavern n).HasTables := by
  rintro es ⟨⟩
  exact ⟨.inr ⟨_, rfl⟩, .inl rfl⟩

theorem cavern_loaded (n : ℕ) : ∃ t h, Tree.ofDatum #[] (cavern n) = .ok (t, h) ∧
    t.id = .text "cavern" ∧ (t.toDatum h).depth = max 4 (n + 3) := by
  refine ⟨_, _, rfl, rfl, ?_⟩
  change max 0 (max 0 (max 0 (max 0 (max 3
    (max (max (shaft n).depth 0 + 1) (max 1 0)))))) + 1 = max 4 (n + 3)
  rw [depth_shaft]
  omega

/-- With three lists more, and saved where there are no files, the tree is restored. -/
theorem Tree.restored_cavern : ∃ t h, ofDatum #[] (cavern 3) = .ok (t, h) ∧
    (∃ s, Json.write? (.spaced none) (t.toDatum h) = some s ∧
      ∀ r, t.IsRestored h (Reading.text s r)) ∧
    (t.save h {} (.ofText "a/b.json")).2 = none ∧
    ∀ r, t.IsRestored h
      (Reading.file (t.save h {} (.ofText "a/b.json")).1 (.ofText "a/b.json") r) := by
  obtain ⟨t, h, hload, hid, hdepth⟩ := cavern_loaded 3
  have shallow : (t.toDatum h).depth ≤ Json.depthLimit := by
    rw [hdepth]
    decide
  obtain ⟨texts, files⟩ := Tree.restored (cavern_plain 3) (cavern_tables 3) hload shallow
  have named : t.id ≠ .text "" := by simp [hid]
  obtain ⟨fault, file⟩ := files named {} (.ofText "a/b.json") ⟨[], rfl⟩
  have saved : (t.save h {} (.ofText "a/b.json")).2 = none := by
    rw [fault]
    decide +kernel
  exact ⟨t, h, hload, texts none, saved, file saved⟩

/-- With so many lists inside each other, the tree is restored from no text of its own. -/
theorem Tree.refused_cavern : (cavern 6000).IsPlain ∧ (cavern 6000).HasTables ∧
    ∃ t h, ofDatum #[] (cavern 6000) = .ok (t, h) ∧ ∀ indent : Option ℕ, ∃ s,
      Json.write? (.spaced indent) (t.toDatum h) = some s ∧
        ∀ r, ¬ t.IsRestored h (Reading.text s r) := by
  obtain ⟨t, h, hload, -, hdepth⟩ := cavern_loaded 6000
  have deep : Json.depthLimit < (t.toDatum h).depth := by
    rw [hdepth]
    decide
  refine ⟨cavern_plain _, cavern_tables _, t, h, hload, fun indent => ?_⟩
  obtain ⟨s, hs, refused⟩ := Tree.text_refused (cavern_plain _) (cavern_tables _) hload deep indent
  refine ⟨s, hs, fun r restored => ?_⟩
  obtain ⟨t', r', ht, -⟩ := restored
  rw [refused r] at ht
  cases ht

end Colloquy
