import Colloquy.Proofs.Loaded
import Colloquy.Proofs.Shown
import Mathlib.Data.List.Forall2

/-!
# Trees are read again as they were

What is read has every field in a form that its rule leaves alone, and conditions and effects that
are those of the data beside them (`Tree.IsRead`, `Reading.tree_reads`). While the heap only grows,
the value of an effect is shown as it was given, so a tree is written with the data that its effects
were read from (`Deed.IsRead.view_eq`). Read again from there, on any heap, it is the same in every
field, up to the cells that hold the values of its effects (`Reading.tree_again`).
-/

namespace Colloquy

theorem Datum.orElse_orElse (d e : Datum) : (d.orElse e).orElse e = d.orElse e := by
  unfold orElse
  by_cases hd : d.isTrue
  · rw [if_pos hd, if_pos hd]
  · rw [if_neg hd, ite_self]

/-- A text that was taken in place of a value stays as it is. -/
theorem Datum.plain_orElse_text [Text.Halves] (s : String) :
    Datum.text ((Datum.text s).orElse (.text "")).plain = .text s := by
  unfold orElse
  split
  · rfl
  · rename_i hs
    have h0 : s = "" := by simpa [isTrue, Scalar.isTrue] using hs
    rw [h0]
    rfl

theorem Datum.orElse_list (xs : List Datum) : (Datum.list xs).orElse (.list []) = .list xs := by
  cases xs with
  | nil => rfl
  | cons => rfl

theorem Datum.orElse_map (es : List (Scalar × Datum)) :
    (Datum.map es).orElse (.map []) = .map es := by
  cases es with
  | nil => rfl
  | cons => rfl

section reading
variable [Text.Halves]

/-! ## Conditions and effects -/

/-- A condition that is read from the data beside it. -/
def Guard.IsRead (g : Guard) : Prop := Condition.ofDatum g.source = .ok g.condition

/-- An effect that was read from the data beside it, before a heap came to be as it is. -/
def Deed.IsRead (h : Heap) (a : Deed) : Prop :=
  a.source.IsJson ∧ ∃ g, (Effect.ofDatum g a.source).1.Extends h ∧
    (Effect.ofDatum g a.source).2 = a.effect

theorem Deed.IsRead.mono {h h' : Heap} {a : Deed} (ha : a.IsRead h) (H : h.Extends h') :
    a.IsRead h' := by
  obtain ⟨json, g, hg, he⟩ := ha
  exact ⟨json, g, hg.trans H, he⟩

namespace Effect

omit [Text.Halves] in
theorem isJson_value {es : Table Datum} {fs : List (Scalar × Datum)} (json : (Datum.map es).IsJson)
    (value : Table.field es "value" = .map fs) : (Datum.map fs).IsJson := by
  rw [Datum.IsJson] at json
  exact value ▸ Datum.isJson_field json.2.2 "value"

theorem ofDatum_extends (g : Heap) {d : Datum} (json : d.IsJson) : g.Extends (ofDatum g d).1 := by
  rcases ofDatum_cases d with ⟨e, -, h⟩ | ⟨es, fs, path, op, rfl, hv, h⟩
  · rw [h]
    exact .refl g
  · rw [h]
    exact (Heap.hold_shows _ g (isJson_value json hv)).1

/-- Two effects that are the same but for the cells of the tables that they write, which are shown
as the same. -/
inductive Agrees (h h' : Heap) : Effect → Effect → Prop
  | same (e : Effect) (plain : e.ref? = none) : Agrees h h' e e
  | held {path : String} {op : Operation} {r r' : Ref}
      (shown : h.view (.map r) = h'.view (.map r')) :
      Agrees h h' (.write path op (.value (.map r))) (.write path op (.value (.map r')))

end Effect

namespace Deed

variable {h : Heap} {a : Deed}

/-- What an effect that was read writes is shown as the value in its data. -/
theorem IsRead.shows (ha : a.IsRead h) {es fs : Table Datum} {path : String} {op : Operation}
    (source : a.source = .map es) (value : Table.field es "value" = .map fs)
    (read : ∀ g, Effect.ofDatum g a.source =
      ((g.hold (.map fs)).1, .write path op (.value (g.hold (.map fs)).2))) :
    ∃ r, a.effect = .write path op (.value (.map r)) ∧ h.view (.map r) = .map fs := by
  obtain ⟨json, g, hg, he⟩ := ha
  rw [read] at he hg
  rw [source] at json
  have hs := (Heap.hold_shows _ g (Effect.isJson_value json value)).2.1.mono hg
  exact ⟨_, he.symm, hs.view_eq⟩

/-- An effect is shown as the data that it was read from. -/
theorem IsRead.view_eq (ha : a.IsRead h) : a.view h = a.source := by
  rcases Effect.ofDatum_cases a.source with ⟨e, hr, all⟩ | ⟨es, fs, path, op, hes, hv, all⟩
  · obtain ⟨-, g, -, he⟩ := ha
    rw [all] at he
    obtain rfl : e = a.effect := he
    unfold Deed.view
    split
    · rename_i heff
      rw [heff] at hr
      cases hr
    · rfl
  · obtain ⟨r, he, hs⟩ := ha.shows hes hv all
    have hget : Table.get? es (.text "value") = some (.map fs) := by
      unfold Table.field at hv
      rcases hg : Table.get? es (.text "value") with _ | d
      · rw [hg] at hv
        cases hv
      · rw [hg] at hv
        exact congrArg some hv
    rw [Deed.view, hes, he]
    simp only [hs, Table.put_get? hget]

theorem views_eq {as : List Deed} (has : ∀ a ∈ as, a.IsRead h) :
    as.map (·.view h) = as.map (·.source) :=
  List.map_congr_left fun a ha => (has a ha).view_eq

/-- Two effects that are read from the same data are the same, up to the cells of their values. -/
theorem IsRead.agrees {h' : Heap} {a' : Deed} (ha : a.IsRead h) (ha' : a'.IsRead h')
    (source : a'.source = a.source) : Effect.Agrees h h' a.effect a'.effect := by
  rcases Effect.ofDatum_cases a.source with ⟨e, hr, all⟩ | ⟨es, fs, path, op, hes, hv, all⟩
  · obtain ⟨-, g, -, he⟩ := ha
    obtain ⟨-, g', -, he'⟩ := ha'
    rw [all] at he
    rw [source, all] at he'
    rw [← show e = a.effect from he, ← show e = a'.effect from he']
    exact .same e hr
  · obtain ⟨r, he, hs⟩ := ha.shows hes hv all
    obtain ⟨r', he', hs'⟩ := ha'.shows (source.trans hes) hv (source ▸ all)
    rw [he, he']
    exact .held (hs.trans hs'.symm)

end Deed

/-- Two effects with the data beside them, which are the same up to the cells of their values. -/
structure Deed.Agrees (h h' : Heap) (a a' : Deed) : Prop where
  source : a'.source = a.source
  effect : Effect.Agrees h h' a.effect a'.effect

/-! ## What is read -/

/-- A choice with all fields in the form that their rules give them. -/
structure Choice.IsRead (h : Heap) (c : Choice) : Prop where
  text : c.text.orElse (.text "") = c.text
  goto : c.goto.orElse .null = c.goto
  guards : ∀ g ∈ c.guards, g.IsRead
  deeds : ∀ a ∈ c.deeds, a.IsRead h
  priority : c.priority.orElse (.int 0) = c.priority

/-- A node with all fields in the form that their rules give them. -/
structure Node.IsRead (h : Heap) (n : Node) : Prop where
  text : n.text.orElse (.text "") = n.text
  speaker : n.speaker.orElse (.text "") = n.speaker
  choices : ∀ c ∈ n.choices, c.IsRead h
  autoAdvance : .bool n.autoAdvance.isTrue = n.autoAdvance
  next : n.next.orElse .null = n.next
  guards : ∀ g ∈ n.guards, g.IsRead
  deeds : ∀ a ∈ n.deeds, a.IsRead h
  priority : n.priority.orElse (.int 0) = n.priority

/-- A tree with all fields in the form that their rules give them. -/
structure Tree.IsRead (h : Heap) (t : Tree) : Prop where
  id : .text (t.id.orElse (.text "")).plain = t.id
  title : t.title.orElse (.text "") = t.title
  description : t.description.orElse (.text "") = t.description
  start : t.start.orElse (.text "start") = t.start
  found : (t.lookup t.start).isOk = true
  nodes : ∀ n ∈ t.nodes, n.IsRead h
  initial : t.initial.Keyed
  metadata : t.metadata.Keyed

theorem Choice.IsRead.mono {h h' : Heap} {c : Choice} (hc : c.IsRead h) (H : h.Extends h') :
    c.IsRead h' :=
  ⟨hc.text, hc.goto, hc.guards, fun a ha => (hc.deeds a ha).mono H, hc.priority⟩

theorem Node.IsRead.mono {h h' : Heap} {n : Node} (hn : n.IsRead h) (H : h.Extends h') :
    n.IsRead h' :=
  ⟨hn.text, hn.speaker, fun c hc => (hn.choices c hc).mono H, hn.autoAdvance, hn.next, hn.guards,
    fun a ha => (hn.deeds a ha).mono H, hn.priority⟩

namespace Reading

omit [Text.Halves] in
/-- Reading one after the other keeps what each reading brings about. -/
theorem mapM_reads {α β : Type} {f : α → Step β} (P : Heap → β → Prop)
    (mono : ∀ {h h' b}, P h b → h.Extends h' → P h' b) : ∀ {ds : List α},
      (∀ d ∈ ds, ∀ {r b r'}, f d r = .ok b r' → r.heap.Extends r'.heap ∧ P r'.heap b) →
        ∀ {bs r r'}, ds.mapM f r = .ok bs r' → r.heap.Extends r'.heap ∧ ∀ b ∈ bs, P r'.heap b
  | [], _, _, _, _, h => by
    cases h
    exact ⟨.refl _, List.forall_mem_nil _⟩
  | d :: ds, hf, bs, r, r', h => by
    rw [List.forall_mem_cons] at hf
    rw [List.mapM_cons] at h
    obtain ⟨b, r₁, hb, h⟩ := bind_ok h
    obtain ⟨bs', r₂, hbs, h⟩ := bind_ok h
    cases h
    obtain ⟨H, hP⟩ := hf.1 hb
    obtain ⟨H', hPs⟩ := mapM_reads P mono hf.2 hbs
    exact ⟨H.trans H', List.forall_mem_cons.2 ⟨mono hP H', hPs⟩⟩

theorem guard_reads {d : Datum} {r r' : Reading} {g : Guard} (h : guard d r = .ok g r') :
    r.heap.Extends r'.heap ∧ g.IsRead := by
  unfold guard at h
  rcases hc : Condition.ofDatum d with f | c
  all_goals rw [hc] at h
  · cases h
  · obtain ⟨_, r₁, hn, h⟩ := bind_ok h
    cases hn
    cases h
    exact ⟨.refl _, hc⟩

theorem deed_reads {d : Datum} (json : d.IsJson) {r r' : Reading} {a : Deed}
    (h : deed d r = .ok a r') : r.heap.Extends r'.heap ∧ a.IsRead r'.heap := by
  cases h
  exact ⟨Effect.ofDatum_extends r.heap json, json, r.heap, .refl _, rfl⟩

omit [Text.Halves] in
theorem isJson_itemsOf {d : Datum} (json : d.IsJson) : ∀ x ∈ itemsOf d, x.IsJson := by
  have items : ∀ {xs : List Datum}, Datum.ItemsJson xs → ∀ x ∈ xs, x.IsJson := by
    intro xs hxs
    induction xs with
    | nil => exact List.forall_mem_nil _
    | cons x xs ih => exact List.forall_mem_cons.2 ⟨hxs.1, ih hxs.2⟩
  unfold itemsOf
  split
  · exact List.forall_mem_nil _
  · rw [Datum.IsJson] at json
    exact items json
  · exact List.forall_mem_singleton.2 json

theorem guards_read {d : Datum} {r r' : Reading} {gs : List Guard}
    (h : (itemsOf d).mapM guard r = .ok gs r') : r.heap.Extends r'.heap ∧ ∀ g ∈ gs, g.IsRead :=
  mapM_reads (fun _ g => g.IsRead) (fun hg _ => hg) (fun _ _ => guard_reads) h

theorem deeds_read {d : Datum} (json : d.IsJson) {r r' : Reading} {as : List Deed}
    (h : (itemsOf d).mapM deed r = .ok as r') :
    r.heap.Extends r'.heap ∧ ∀ a ∈ as, a.IsRead r'.heap :=
  mapM_reads (fun h a => a.IsRead h) Deed.IsRead.mono
    (fun x hx => deed_reads (isJson_itemsOf json x hx)) h

theorem choice_reads {es : Table Datum} (json : Datum.EntriesJson es) {r r' : Reading} {c : Choice}
    (h : choice es r = .ok c r') : r.heap.Extends r'.heap ∧ c.IsRead r'.heap := by
  obtain ⟨guards, r₁, hg, h⟩ := bind_ok h
  obtain ⟨deeds, r₂, hd, h⟩ := bind_ok h
  cases h
  obtain ⟨H, hgs⟩ := guards_read hg
  obtain ⟨H', hds⟩ := deeds_read (Datum.isJson_field json "effects") hd
  exact ⟨H.trans H', Datum.orElse_orElse _ _, Datum.orElse_orElse _ _, hgs, hds,
    Datum.orElse_orElse _ _⟩

theorem choices_read {id : String} : ∀ {i : ℕ} {ds : List Datum}, Datum.ItemsJson ds →
    ∀ {r r' : Reading} {cs : List Choice}, choices id i ds r = .ok cs r' →
      r.heap.Extends r'.heap ∧ ∀ c ∈ cs, c.IsRead r'.heap
  | _, [], _, _, _, _, h => by
    cases h
    exact ⟨.refl _, List.forall_mem_nil _⟩
  | i, .map es :: ds, json, r, r', cs, h => by
    rw [Datum.ItemsJson, Datum.IsJson] at json
    obtain ⟨c, r₁, hc, h⟩ := bind_ok h
    obtain ⟨cs', r₂, hcs, h⟩ := bind_ok h
    cases h
    obtain ⟨H, hread⟩ := choice_reads json.1.2.2 hc
    obtain ⟨H', hreads⟩ := choices_read json.2 hcs
    exact ⟨H.trans H', List.forall_mem_cons.2 ⟨hread.mono H', hreads⟩⟩
  | _, .scalar _ :: _, _, _, _, _, h => by cases h
  | _, .list _ :: _, _, _, _, _, h => by cases h
  | _, .back _ :: _, _, _, _, _, h => by cases h

theorem nodeWith_reads {id : Scalar} {cs : List Choice} {es : Table Datum}
    (json : Datum.EntriesJson es) {r r' : Reading} {n : Node}
    (hcs : ∀ c ∈ cs, c.IsRead r.heap) (h : nodeWith id cs es r = .ok n r') :
    r.heap.Extends r'.heap ∧ n.IsRead r'.heap := by
  obtain ⟨guards, r₁, hg, h⟩ := bind_ok h
  obtain ⟨deeds, r₂, hd, h⟩ := bind_ok h
  cases h
  obtain ⟨H, hgs⟩ := guards_read hg
  obtain ⟨H', hds⟩ := deeds_read (Datum.isJson_field json "effects") hd
  exact ⟨H.trans H', Datum.orElse_orElse _ _, Datum.orElse_orElse _ _,
    fun c hc => (hcs c hc).mono (H.trans H'), rfl, Datum.orElse_orElse _ _, hgs, hds,
    Datum.orElse_orElse _ _⟩

theorem node_reads {id : Scalar} {d : Datum} (json : d.IsJson) {r r' : Reading} {n : Node}
    (h : node id d r = .ok n r') : r.heap.Extends r'.heap ∧ n.IsRead r'.heap := by
  rcases d with _ | _ | es | _
  case map =>
    rw [Datum.IsJson] at json
    unfold node at h
    rcases hc : (Table.field es "choices").orElse (.list []) with _ | ds | _ | _
    all_goals simp only [hc] at h
    case list =>
      have hds : (Datum.list ds).IsJson := hc ▸ Datum.isJson_orElse
        (Datum.isJson_field json.2.2 "choices") (by rw [Datum.IsJson]; trivial)
      rw [Datum.IsJson] at hds
      obtain ⟨cs, r₁, hcs, h⟩ := bind_ok h
      obtain ⟨H, hreads⟩ := choices_read hds hcs
      obtain ⟨H', hread⟩ := nodeWith_reads json.2.2 hreads h
      exact ⟨H.trans H', hread⟩
    all_goals cases h
  all_goals cases h

theorem nodes_read : ∀ {raw : List (Scalar × Datum)}, Datum.EntriesJson raw →
    ∀ {r r' : Reading} {ns : List Node}, nodes raw r = .ok ns r' →
      r.heap.Extends r'.heap ∧ ∀ n ∈ ns, n.IsRead r'.heap
  | [], _, _, _, _, h => by
    cases h
    exact ⟨.refl _, List.forall_mem_nil _⟩
  | (k, d) :: raw, json, r, r', ns, h => by
    rw [Datum.EntriesJson] at json
    obtain ⟨n, r₁, hn, h⟩ := bind_ok h
    obtain ⟨ns', r₂, hns, h⟩ := bind_ok h
    cases h
    obtain ⟨H, hread⟩ := node_reads json.1 hn
    obtain ⟨H', hreads⟩ := nodes_read json.2 hns
    exact ⟨H.trans H', List.forall_mem_cons.2 ⟨hread.mono H', hreads⟩⟩

omit [Text.Halves] in
theorem table_reads {d : Datum} (json : d.IsJson) {r r' : Reading} {t : Table Datum}
    (h : table d r = .ok t r') : r' = r ∧ t.Keyed := by
  have keyed : (d.orElse (.map [])).Keyed :=
    (Datum.isJson_orElse json Datum.isJson_empty).keyed
  unfold table at h
  rcases ht : Table.ofDatum (d.orElse (.map [])) with f | u
  all_goals rw [ht] at h
  · cases h
  · cases h
    refine ⟨rfl, ?_⟩
    have hk := (Table.keyed_update keyed).1
    unfold Table.ofDatum at ht
    split at ht
    · rename_i he
      rw [he] at hk
      exact Except.ok.inj ht ▸ hk
    · cases ht

omit [Text.Halves] in
theorem isOk_lookup {t : Tree} {d : Datum} : (t.lookup d).isOk = true ↔ ∃ s, d = .scalar s := by
  unfold Tree.lookup
  split
  · exact ⟨fun _ => ⟨.null, rfl⟩, fun _ => rfl⟩
  · exact ⟨fun _ => ⟨_, rfl⟩, fun _ => rfl⟩
  · rename_i hn
    exact ⟨nofun, fun ⟨s, hs⟩ => absurd hs (hn s)⟩

theorem treeWith_reads {initial metadata : Table Datum} {ns : List Node} {es : Table Datum}
    {t : Tree} {r r' : Reading} (h : treeWith initial metadata ns es r = .ok t r') :
    r'.heap = r.heap ∧ t = {
      id := .text ((Table.field es "id").orElse (.text "")).plain
      title := (Table.field es "title").orElse (.text "")
      description := (Table.field es "description").orElse (.text "")
      start := (Table.field es "startNode").orElse (.text "start")
      nodes := ns, initial, metadata } ∧ (t.lookup t.start).isOk = true := by
  unfold treeWith at h
  generalize hl : Tree.lookup _ _ = found at h
  rcases found with f | _ | n
  · cases h
  · obtain ⟨_, r₁, hn, h⟩ := bind_ok h
    cases hn
    cases h
    exact ⟨rfl, rfl, by rw [hl]; rfl⟩
  · cases h
    exact ⟨rfl, rfl, by rw [hl]; rfl⟩

/-- What is read as a tree has all fields in the form that their rules give them. -/
theorem tree_reads {d : Datum} (json : d.IsJson) {r r' : Reading} {t : Tree}
    (h : tree d r = .ok t r') : t.IsRead r'.heap := by
  rcases d with _ | _ | es | _
  case map =>
    rw [Datum.IsJson] at json
    unfold tree at h
    rcases hraw : (Table.field es "nodes").orElse (.map []) with _ | _ | raw | _
    all_goals simp only [hraw] at h
    case map =>
      have hj : (Datum.map raw).IsJson := hraw ▸ Datum.isJson_orElse
        (Datum.isJson_field json.2.2 "nodes") Datum.isJson_empty
      rw [Datum.IsJson] at hj
      obtain ⟨initial, r₁, hi, h⟩ := bind_ok h
      obtain ⟨metadata, r₂, hm, h⟩ := bind_ok h
      obtain ⟨ns, r₃, hns, h⟩ := bind_ok h
      obtain ⟨-, hi⟩ := table_reads (Datum.isJson_field json.2.2 "variables") hi
      obtain ⟨-, hm⟩ := table_reads (Datum.isJson_field json.2.2 "metadata") hm
      obtain ⟨-, hreads⟩ := nodes_read hj.2.2 hns
      obtain ⟨hheap, rfl, hok⟩ := treeWith_reads h
      rw [hheap]
      refine ⟨?_, Datum.orElse_orElse _ _, Datum.orElse_orElse _ _, Datum.orElse_orElse _ _, hok,
        hreads, hi, hm⟩
      exact Datum.plain_orElse_text _
    all_goals cases h
  all_goals cases h

end Reading

/-! ## What is read again -/

/-- Choices that are the same but for the effects that were read from the data beside them. -/
def Choice.Alike (c c' : Choice) : Prop :=
  c' = { c with deeds := c'.deeds } ∧
    List.Forall₂ (fun a a' => a'.source = a.source) c.deeds c'.deeds

/-- Nodes that are the same but for the effects that were read from the data beside them. -/
def Node.Alike (n n' : Node) : Prop :=
  n' = { n with choices := n'.choices, deeds := n'.deeds } ∧
    List.Forall₂ Choice.Alike n.choices n'.choices ∧
      List.Forall₂ (fun a a' => a'.source = a.source) n.deeds n'.deeds

omit [Text.Halves] in
/-- The fields of a choice as it is written. -/
theorem Choice.fields (h : Heap) (c : Choice) : ∃ es, c.toDatum h = .map es ∧
    Table.field es "text" = c.text ∧ Table.field es "goto" = c.goto ∧
    Table.field es "conditions" = .list (c.guards.map (·.source)) ∧
    Table.field es "effects" = .list (c.deeds.map (·.view h)) ∧
    Table.field es "priority" = c.priority ∧ Table.field es "once" = .bool c.once ∧
    Table.field es "requirements" = .list c.requirements :=
  ⟨_, rfl, rfl, rfl, rfl, rfl, rfl, rfl, rfl⟩

omit [Text.Halves] in
/-- The fields of a node as it is written. -/
theorem Node.fields (h : Heap) (n : Node) : ∃ es, n.toDatum h = .map es ∧
    Table.field es "text" = n.text ∧ Table.field es "speaker" = n.speaker ∧
    Table.field es "portrait" = n.portrait ∧
    Table.field es "choices" = .list (n.choices.map (·.toDatum h)) ∧
    Table.field es "autoAdvance" = n.autoAdvance ∧ Table.field es "nextNode" = n.next ∧
    Table.field es "voiceLine" = n.voiceLine ∧
    Table.field es "conditions" = .list (n.guards.map (·.source)) ∧
    Table.field es "effects" = .list (n.deeds.map (·.view h)) ∧
    Table.field es "tags" = .list n.tags ∧ Table.field es "priority" = n.priority :=
  ⟨_, rfl, rfl, rfl, rfl, rfl, rfl, rfl, rfl, rfl, rfl, rfl, rfl⟩

omit [Text.Halves] in
/-- The fields of a tree as it is written. -/
theorem Tree.fields (h : Heap) (t : Tree) : ∃ es, t.toDatum h = .map es ∧
    Table.field es "id" = t.id ∧ Table.field es "title" = t.title ∧
    Table.field es "description" = t.description ∧ Table.field es "startNode" = t.start ∧
    Table.field es "nodes" = .map (t.nodes.map fun n => (n.id, n.toDatum h)) ∧
    Table.field es "variables" = .map t.initial ∧ Table.field es "metadata" = .map t.metadata :=
  ⟨_, rfl, rfl, rfl, rfl, rfl, rfl, rfl, rfl⟩

namespace Reading

omit [Text.Halves] in
theorem bind_eq {α β : Type} {m : Step α} {k : α → Step β} {r r₁ : Reading} {a : α}
    (h : m r = .ok a r₁) : (m >>= k) r = k a r₁ := by
  simp only [Bind.bind, EStateM.bind, h]

omit [Text.Halves] in
theorem mapM_again {α β γ : Type} (f : β → Step γ) (g : α → β) (R : α → γ → Prop) :
    ∀ {as : List α}, (∀ a ∈ as, ∀ s, ∃ c s', f (g a) s = .ok c s' ∧ R a c) →
      ∀ s, ∃ cs s', (as.map g).mapM f s = .ok cs s' ∧ List.Forall₂ R as cs
  | [], _, s => ⟨[], s, rfl, .nil⟩
  | a :: as, h, s => by
    rw [List.forall_mem_cons] at h
    obtain ⟨c, s₁, hc, hR⟩ := h.1 s
    obtain ⟨cs, s₂, hcs, hRs⟩ := mapM_again f g R h.2 s₁
    refine ⟨c :: cs, s₂, ?_, .cons hR hRs⟩
    rw [List.map_cons, List.mapM_cons, bind_eq hc, bind_eq hcs]
    rfl

theorem guard_again {g : Guard} (hg : g.IsRead) (s : Reading) :
    ∃ g' s', guard g.source s = .ok g' s' ∧ g = g' := by
  unfold guard
  rw [show Condition.ofDatum g.source = .ok g.condition from hg]
  exact ⟨g, _, rfl, rfl⟩

theorem guards_again {gs : List Guard} (hgs : ∀ g ∈ gs, g.IsRead) (s : Reading) :
    ∃ s', (itemsOf (.list (gs.map (·.source)))).mapM guard s = .ok gs s' ∧
      s.heap.Extends s'.heap := by
  obtain ⟨gs', s', h, he⟩ :=
    mapM_again guard Guard.source (· = ·) (fun g hg => guard_again (hgs g hg)) s
  obtain rfl := List.forall₂_eq_eq_eq ▸ he
  exact ⟨s', h, (mapM_reads (fun _ g => g.IsRead) (fun hg _ => hg) (fun _ _ => guard_reads) h).1⟩

theorem deeds_again {h : Heap} {as : List Deed} (has : ∀ a ∈ as, a.IsRead h) (s : Reading) :
    ∃ as' s', (itemsOf (.list (as.map (·.view h)))).mapM deed s = .ok as' s' ∧
      s.heap.Extends s'.heap ∧ (∀ a ∈ as', a.IsRead s'.heap) ∧
        List.Forall₂ (fun a a' => a'.source = a.source) as as' := by
  rw [Deed.views_eq has]
  obtain ⟨as', s', hread, hall⟩ := mapM_again deed Deed.source
    (fun a a' : Deed => a'.source = a.source) (fun a _ s => ⟨_, _, rfl, rfl⟩) s
  have json : ∀ d ∈ as.map (·.source), d.IsJson := by
    rw [List.forall_mem_map]
    exact fun a ha => (has a ha).1
  obtain ⟨H, hs⟩ := mapM_reads (fun h (a : Deed) => a.IsRead h) Deed.IsRead.mono
    (fun x hx => deed_reads (json x hx)) hread
  exact ⟨as', s', hread, H, hs, hall⟩

theorem choice_again {h : Heap} {c : Choice} (hc : c.IsRead h) : ∃ es, c.toDatum h = .map es ∧
    ∀ s : Reading, ∃ c' s', choice es s = .ok c' s' ∧ s.heap.Extends s'.heap ∧
      c'.IsRead s'.heap ∧ c.Alike c' := by
  obtain ⟨es, hes, htext, hgoto, hguards, hdeeds, hpriority, honce, hreq⟩ := c.fields h
  refine ⟨es, hes, fun s => ?_⟩
  obtain ⟨s₁, hgs, H⟩ := guards_again hc.guards s
  obtain ⟨as, s₂, has, H', hread, hall⟩ := deeds_again hc.deeds s₁
  have he : choice es s = .ok { c with deeds := as } s₂ := by
    unfold choice
    rw [hguards, bind_eq hgs, hdeeds, bind_eq has, htext, hgoto, hpriority, honce, hreq, hc.text,
      hc.goto, hc.priority]
    rfl
  exact ⟨_, s₂, he, H.trans H', ⟨hc.text, hc.goto, hc.guards, hread, hc.priority⟩, rfl, hall⟩

theorem choices_again {h : Heap} (id : String) : ∀ {cs : List Choice}, (∀ c ∈ cs, c.IsRead h) →
    ∀ (i : ℕ) (s : Reading), ∃ cs' s', choices id i (cs.map (·.toDatum h)) s = .ok cs' s' ∧
      s.heap.Extends s'.heap ∧ (∀ c ∈ cs', c.IsRead s'.heap) ∧ List.Forall₂ Choice.Alike cs cs'
  | [], _, _, s => ⟨[], s, rfl, .refl _, List.forall_mem_nil _, .nil⟩
  | c :: cs, hcs, i, s => by
    rw [List.forall_mem_cons] at hcs
    obtain ⟨es, hes, hagain⟩ := choice_again hcs.1
    obtain ⟨c', s₁, hc', H, hread, ha⟩ := hagain s
    obtain ⟨cs', s₂, hcs', H', hreads, has⟩ := choices_again id hcs.2 (i + 1) s₁
    refine ⟨c' :: cs', s₂, ?_, H.trans H', List.forall_mem_cons.2 ⟨hread.mono H', hreads⟩,
      .cons ha has⟩
    rw [List.map_cons, hes, choices, bind_eq hc', bind_eq hcs']
    rfl

theorem node_again {h : Heap} {n : Node} (hn : n.IsRead h) (s : Reading) :
    ∃ n' s', node n.id (n.toDatum h) s = .ok n' s' ∧ s.heap.Extends s'.heap ∧
      n'.IsRead s'.heap ∧ n.Alike n' := by
  obtain ⟨es, hes, htext, hspeaker, hportrait, hchoices, hauto, hnext, hvoice, hguards, hdeeds,
    htags, hpriority⟩ := n.fields h
  obtain ⟨cs, s₁, hcs, H, hreads, has⟩ :=
    choices_again (Datum.scalar n.id).plain hn.choices 0 s
  obtain ⟨s₂, hgs, H'⟩ := guards_again hn.guards s₁
  obtain ⟨as, s₃, hds, H'', hread, hall⟩ := deeds_again hn.deeds s₂
  have he : node n.id (n.toDatum h) s = .ok { n with choices := cs, deeds := as } s₃ := by
    rw [hes]
    simp only [node, hchoices, Datum.orElse_list]
    rw [bind_eq hcs]
    unfold nodeWith
    rw [hguards, bind_eq hgs, hdeeds, bind_eq hds, htext, hspeaker, hportrait, hauto, hnext,
      hvoice, htags, hpriority, hn.text, hn.speaker, hn.autoAdvance, hn.next, hn.priority]
    rfl
  exact ⟨_, s₃, he, (H.trans H').trans H'', ⟨hn.text, hn.speaker,
    fun c hc => (hreads c hc).mono (H'.trans H''), hn.autoAdvance, hn.next, hn.guards, hread,
    hn.priority⟩, rfl, has, hall⟩

theorem nodes_again {h : Heap} : ∀ {ns : List Node}, (∀ n ∈ ns, n.IsRead h) → ∀ s : Reading,
    ∃ ns' s', nodes (ns.map fun n => (n.id, n.toDatum h)) s = .ok ns' s' ∧
      s.heap.Extends s'.heap ∧ (∀ n ∈ ns', n.IsRead s'.heap) ∧ List.Forall₂ Node.Alike ns ns'
  | [], _, s => ⟨[], s, rfl, .refl _, List.forall_mem_nil _, .nil⟩
  | n :: ns, hns, s => by
    rw [List.forall_mem_cons] at hns
    obtain ⟨n', s₁, hn', H, hread, ha⟩ := node_again hns.1 s
    obtain ⟨ns', s₂, hns', H', hreads, has⟩ := nodes_again hns.2 s₁
    refine ⟨n' :: ns', s₂, ?_, H.trans H', List.forall_mem_cons.2 ⟨hread.mono H', hreads⟩,
      .cons ha has⟩
    rw [List.map_cons, nodes, bind_eq hn', bind_eq hns']
    rfl

omit [Text.Halves] in
theorem table_again {t : Table Datum} (ht : t.Keyed) (s : Reading) :
    table (.map t) s = .ok t s := by
  have he : Table.ofDatum (.map t) = .ok t := congrArg Except.ok (Table.ofList_eq ht)
  rw [table, Datum.orElse_map, he]
  rfl

/-- A tree is read again from how it is written, on any heap. -/
theorem tree_again {h : Heap} {t : Tree} (ht : t.IsRead h) (s : Reading) :
    ∃ ns s', tree (t.toDatum h) s = .ok { t with nodes := ns } s' ∧
      (∀ n ∈ ns, n.IsRead s'.heap) ∧ List.Forall₂ Node.Alike t.nodes ns := by
  obtain ⟨es, hes, hid, htitle, hdescription, hstart, hnodes, hinitial, hmetadata⟩ := t.fields h
  obtain ⟨ns, s₁, hns, -, hreads, has⟩ := nodes_again ht.nodes s
  obtain ⟨start, hscalar⟩ := isOk_lookup.1 ht.found
  have he : ∃ s', tree (t.toDatum h) s = .ok { t with nodes := ns } s' ∧ s'.heap = s₁.heap := by
    rw [hes]
    simp only [tree, hnodes, Datum.orElse_map]
    rw [hinitial, bind_eq (table_again ht.initial s), hmetadata,
      bind_eq (table_again ht.metadata s), bind_eq hns]
    unfold treeWith
    rw [hid, htitle, hdescription, hstart, ht.id, ht.title, ht.description, ht.start]
    simp only
    generalize hl : Tree.lookup _ t.start = found
    rcases found with f | _ | n
    · have hok : ({ t with nodes := ns }.lookup t.start).isOk = true :=
        isOk_lookup.2 ⟨start, hscalar⟩
      rw [hl] at hok
      cases hok
    · exact ⟨_, rfl, rfl⟩
    · exact ⟨_, rfl, rfl⟩
  obtain ⟨s', hread, hheap⟩ := he
  exact ⟨ns, s', hread, hheap ▸ hreads, has⟩

end Reading

/-! ## The same tree -/

/-- Two choices that are the same, up to the cells of the values of their effects. -/
structure Choice.Agrees (h h' : Heap) (c c' : Choice) : Prop where
  fields : c' = { c with deeds := c'.deeds }
  deeds : List.Forall₂ (Deed.Agrees h h') c.deeds c'.deeds

/-- Two nodes that are the same, up to the cells of the values of their effects. -/
structure Node.Agrees (h h' : Heap) (n n' : Node) : Prop where
  fields : n' = { n with choices := n'.choices, deeds := n'.deeds }
  choices : List.Forall₂ (Choice.Agrees h h') n.choices n'.choices
  deeds : List.Forall₂ (Deed.Agrees h h') n.deeds n'.deeds

/-- Two trees that are the same, up to the cells of the values of their effects. -/
structure Tree.Agrees (h h' : Heap) (t t' : Tree) : Prop where
  fields : t' = { t with nodes := t'.nodes }
  nodes : List.Forall₂ (Node.Agrees h h') t.nodes t'.nodes

omit [Text.Halves] in
theorem forall₂_of_mem {α β : Type} {R S : α → β → Prop} {P : α → Prop} {Q : β → Prop}
    (hS : ∀ a b, R a b → P a → Q b → S a b) {as : List α} {bs : List β}
    (h : List.Forall₂ R as bs) (ha : ∀ a ∈ as, P a) (hb : ∀ b ∈ bs, Q b) :
    List.Forall₂ S as bs := by
  induction h with
  | nil => exact .nil
  | cons hR _ ih =>
    rw [List.forall_mem_cons] at ha hb
    exact .cons (hS _ _ hR ha.1 hb.1) (ih ha.2 hb.2)

omit [Text.Halves] in
theorem map_eq_of_forall₂ {α β γ : Type} {f : α → γ} {g : β → γ} {as : List α} {bs : List β}
    (h : List.Forall₂ (fun a b => g b = f a) as bs) : bs.map g = as.map f := by
  induction h with
  | nil => rfl
  | cons he _ ih => rw [List.map_cons, List.map_cons, he, ih]

section alike
variable {h h' : Heap}

theorem deeds_agree {as as' : List Deed}
    (has : List.Forall₂ (fun a a' => a'.source = a.source) as as') (ha : ∀ a ∈ as, a.IsRead h)
    (ha' : ∀ a ∈ as', a.IsRead h') :
    List.Forall₂ (Deed.Agrees h h') as as' ∧ as'.map (·.view h') = as.map (·.view h) := by
  refine ⟨forall₂_of_mem (fun a a' hs hr hr' => ⟨hs, hr.agrees hr' hs⟩) has ha ha', ?_⟩
  refine map_eq_of_forall₂ (forall₂_of_mem (fun a a' hs hr hr' => ?_) has ha ha')
  exact (Deed.IsRead.view_eq hr').trans (hs.trans (Deed.IsRead.view_eq hr).symm)

theorem Choice.Alike.agrees {c c' : Choice} (ha : c.Alike c') (hc : c.IsRead h)
    (hc' : c'.IsRead h') : c.Agrees h h' c' ∧ c'.toDatum h' = c.toDatum h := by
  obtain ⟨fields, sources⟩ := ha
  obtain ⟨hdeeds, hview⟩ := deeds_agree sources hc.deeds hc'.deeds
  refine ⟨⟨fields, hdeeds⟩, ?_⟩
  unfold toDatum
  rw [hview, fields]

theorem Node.Alike.agrees {n n' : Node} (ha : n.Alike n') (hn : n.IsRead h)
    (hn' : n'.IsRead h') : n.Agrees h h' n' ∧ n'.toDatum h' = n.toDatum h := by
  obtain ⟨fields, halike, sources⟩ := ha
  obtain ⟨hdeeds, hview⟩ := deeds_agree sources hn.deeds hn'.deeds
  have hchoices : n'.choices.map (·.toDatum h') = n.choices.map (·.toDatum h) :=
    map_eq_of_forall₂ (forall₂_of_mem (fun c c' ha hr hr' => (ha.agrees hr hr').2) halike
      hn.choices hn'.choices)
  refine ⟨⟨fields, ?_, hdeeds⟩, ?_⟩
  · exact forall₂_of_mem (fun c c' ha hr hr' => (ha.agrees hr hr').1) halike hn.choices hn'.choices
  · unfold toDatum
    rw [hview, hchoices, fields]

end alike

/-- A tree that is read from JSON is read again from how it is written, whatever has been read in
between. -/
theorem Reading.tree_reread {d : Datum} {t : Tree} {r r' : Reading} (json : d.IsJson)
    (h : tree d r = .ok t r') (s : Reading) :
    ∃ t' s', tree (t.toDatum r'.heap) s = .ok t' s' ∧ t.Agrees r'.heap s'.heap t' ∧
      t'.toDatum s'.heap = t.toDatum r'.heap := by
  have ht := tree_reads json h
  obtain ⟨ns, s', hread, hreads, halike⟩ := tree_again ht s
  refine ⟨{ t with nodes := ns }, s', hread, ⟨rfl, ?_⟩, ?_⟩
  · exact forall₂_of_mem (fun n n' ha hn hn' => (ha.agrees hn hn').1) halike ht.nodes hreads
  · have hnodes : ns.map (fun n => (n.id, n.toDatum s'.heap)) =
        t.nodes.map fun n => (n.id, n.toDatum r'.heap) := by
      refine map_eq_of_forall₂ (forall₂_of_mem (fun n n' ha hn hn' => ?_) halike ht.nodes hreads)
      have hid : n'.id = n.id := by rw [ha.1]
      rw [hid, (ha.agrees hn hn').2]
    unfold Tree.toDatum
    rw [hnodes]

/-- A tree that is read from JSON is read again from how it is written, on any heap: it is the same
in every field, conditions and effects included, up to the cells that hold the values of effects,
and it is written as before. -/
theorem Tree.ofDatum_reread {h h' : Heap} {d : Datum} {t : Tree} (json : d.IsJson)
    (loaded : ofDatum h d = .ok (t, h')) (g : Heap) :
    ∃ t' g', ofDatum g (t.toDatum h') = .ok (t', g') ∧ t.Agrees h' g' t' ∧
      t'.toDatum g' = t.toDatum h' := by
  unfold ofDatum at loaded
  split at loaded
  case h_2 => cases loaded
  rename_i t₁ r hr
  cases loaded
  obtain ⟨t', s', hread, agrees, shown⟩ := Reading.tree_reread json hr { heap := g }
  exact ⟨t', s'.heap, by rw [ofDatum, hread], agrees, shown⟩

end reading

attribute [local instance] Text.noHalves

/-- A file with a node that has one condition, an effect that writes a table, and a choice whose
fields are not in the form that their rules give them. -/
def chest : Datum :=
  .object [("id", .int 7), ("nodes", .object [
    ("start", .object [
      ("conditions", .text "flag.met"),
      ("effects", .object [("type", .text "context"), ("action", .text "set"),
        ("key", .text "chest"), ("value", .object [("gold", .int 10)])]),
      ("choices", .list [.object [("text", .int 0), ("once", .text "yes"),
        ("requirements", .text "a key")]])])])]

theorem Tree.ofDatum_reread_chest : ∃ t h t' g, Tree.ofDatum #[] chest = .ok (t, h) ∧
    (t.nodes.map fun n => n.effects.map (·.ref?)) = [[some 0]] ∧
    Tree.ofDatum h (t.toDatum h) = .ok (t', g) ∧ t.Agrees h g t' ∧
    t'.toDatum g = t.toDatum h := by
  have json : chest.IsJson := by
    simp [chest, Datum.object, Datum.IsJson, Datum.EntriesJson, Datum.ItemsJson, Table.Keyed,
      Scalar.alike, Scalar.same]
  obtain ⟨⟨t, h⟩, hl⟩ := Session.ok_of_isOk (o := Tree.ofDatum #[] chest) (by decide +kernel)
  have href : (Tree.ofDatum #[] chest).map
      (fun l => l.1.nodes.map fun n => n.effects.map (·.ref?)) = .ok [[some 0]] := by
    decide +kernel
  rw [hl] at href
  obtain ⟨t', g, hread, agrees, shown⟩ := Tree.ofDatum_reread json hl h
  exact ⟨t, h, t', g, hl, Except.ok.inj href, hread, agrees, shown⟩

end Colloquy
