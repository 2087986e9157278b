import Colloquy.Proofs.Boxed
import Colloquy.Proofs.Restored

/-!
# What can be said

A stream takes no halves of surrogate pairs, and anything else takes every text (`Text.Sayable`).
The marks that the player draws are characters, and all that it adds to a text when it is wrapped or
boxed are blanks (`Text.Sayable.wrap`, `Box.sayable_frame`). So whatever is shown of a tree that is
written with plain scalars only can be said (`Tree.isSayable`).
-/

namespace Colloquy

variable [Text.Halves]

namespace Text

/-- Whether a text can be said, to a stream or to something else. -/
def Sayable (stream : Bool) (cs : List Char) : Prop :=
  stream = true → ∀ c ∈ cs, Half.isHalf c = false

variable {stream : Bool} {cs ds : List Char}

theorem sayable_isWhole {s : String} (h : stream = true → isWhole s = true) :
    Sayable stream s.toList := fun hs => isHalf_of_isWhole (h hs)

theorem Sayable.isWhole {s : String} (h : Sayable stream s.toList) (hs : stream = true) :
    isWhole s = true := by
  simpa [Text.isWhole] using h hs

/-- Whether all characters of a text are in planes that hold characters. -/
def isDrawn (cs : List Char) : Bool := cs.all fun c => c.toNat < Half.emptyPlanes

theorem sayable_drawn (h : isDrawn cs = true) : Sayable stream cs := by
  intro _ c hc
  have low : c.toNat < Half.emptyPlanes := of_decide_eq_true (List.all_eq_true.1 h c hc)
  rw [Half.isHalf, Half.place?, if_pos low, Option.isSome_none]

@[simp] theorem sayable_append :
    Sayable stream (cs ++ ds) ↔ Sayable stream cs ∧ Sayable stream ds := by
  simp only [Sayable, List.forall_mem_append, ← imp_and]

theorem Sayable.append {s t : String} (hs : Sayable stream s.toList)
    (ht : Sayable stream t.toList) : Sayable stream (s ++ t).toList := by
  rw [String.toList_append, sayable_append]
  exact ⟨hs, ht⟩

/-- What has only characters of a text and drawn ones can be said if the text can. -/
theorem Sayable.of_mem (h : Sayable stream cs)
    (from_ : ∀ d ∈ ds, d ∈ cs ∨ isDrawn [d] = true) : Sayable stream ds := by
  intro hs d hd
  rcases from_ d hd with hc | low
  · exact h hs d hc
  · exact sayable_drawn low hs d (List.mem_singleton_self d)

theorem sayable_rule {mark : Char} (h : isDrawn [mark] = true) (n : ℕ) :
    Sayable stream (rule mark n).toList := by
  rw [rule, String.toList_ofList]
  exact (sayable_drawn h).of_mem fun d hd =>
    .inl (List.mem_singleton.2 (List.eq_of_mem_replicate hd))

theorem sayable_ofNat (n : ℕ) : Sayable stream (ofNat n).toList := by
  rw [ofNat, String.toList_ofList]
  exact fun _ c hc => (lasts_toDigits (by omega) (by omega) n c hc).1

theorem sayable_join {sep : List Char} (hs : Sayable stream sep) : ∀ {parts : List (List Char)},
    (∀ part ∈ parts, Sayable stream part) → Sayable stream (join sep parts)
  | [], _ => sayable_drawn rfl
  | [part], h => h part List.mem_cons_self
  | part :: next :: parts, h => by
    rw [List.forall_mem_cons] at h
    rw [Json.join_cons_cons, sayable_append, sayable_append]
    exact ⟨⟨h.1, hs⟩, sayable_join hs h.2⟩

theorem sayable_intercalate {sep : String} (hs : Sayable stream sep.toList) :
    ∀ {parts : List String}, (∀ s ∈ parts, Sayable stream s.toList) →
      Sayable stream (sep.intercalate parts).toList
  | [], _ => sayable_drawn rfl
  | [s], h => by
    rw [String.intercalate_singleton]
    exact h s List.mem_cons_self
  | s :: t :: parts, h => by
    rw [List.forall_mem_cons] at h
    rw [String.intercalate_cons_cons]
    exact (h.1.append hs).append (sayable_intercalate hs h.2)

omit [Halves] in
theorem mem_expandTabs {c : Char} : ∀ (cs : List Char) {column : ℕ}, c ∈ expandTabs column cs →
    c ∈ cs ∨ c = ' ' := by
  intro cs
  induction cs with
  | nil => exact fun h => absurd h List.not_mem_nil
  | cons d r ih =>
    intro column h
    by_cases tab : d = '\t'
    · subst tab
      rw [expandTabs, List.mem_append] at h
      rcases h with h | h
      · exact .inr (List.eq_of_mem_replicate h)
      · exact (ih h).imp_left (List.mem_cons_of_mem _)
    · rw [expandTabs.eq_3 _ _ _ tab, List.mem_cons] at h
      rcases h with rfl | h
      · exact .inl List.mem_cons_self
      · exact (ih h).imp_left (List.mem_cons_of_mem _)

/-- The lines of a paragraph have characters of it and blanks. -/
theorem Sayable.wrap {width : ℕ} (pos : 0 < width) (h : Sayable stream cs) :
    Sayable stream (Text.wrap width cs).flatten := by
  refine h.of_mem fun d hd => ?_
  obtain ⟨c, hc, hd⟩ := List.mem_map.1 (wrap_subset pos cs hd)
  split_ifs at hd
  · exact .inr (hd ▸ rfl)
  · subst hd
    exact (mem_expandTabs cs hc).imp_right fun blank => by rw [blank]; rfl

omit [Halves] in
theorem subset_of_mem_splitAt {sep : Char} : ∀ {cs piece : List Char}, piece ∈ splitAt sep cs →
    piece ⊆ cs := by
  intro cs
  induction cs with
  | nil =>
    intro piece hp
    rw [List.mem_singleton.1 hp]
    exact List.Subset.refl []
  | cons c r ih =>
    intro piece hp
    rw [splitAt] at hp
    split_ifs at hp
    · rcases List.mem_cons.1 hp with rfl | hp
      · exact List.nil_subset _
      · exact List.subset_cons_of_subset c (ih hp)
    · obtain ⟨first, more, hs⟩ := List.exists_cons_of_ne_nil (splitAt_ne_nil sep r)
      rw [hs] at hp ih
      rcases List.mem_cons.1 hp with rfl | hp
      · exact List.cons_subset_cons c (ih List.mem_cons_self)
      · exact List.subset_cons_of_subset c (ih (List.mem_cons_of_mem _ hp))

end Text

namespace Ink
open Text

variable {stream : Bool}

theorem sayable_mark (i : Ink) : Sayable stream i.mark.toList := by
  cases i <;> exact sayable_drawn rfl

theorem sayable_paint {inks : List Ink} {s : String} (h : Sayable stream s.toList) :
    Sayable stream (paint inks s).toList := by
  have marks : Sayable stream (String.join (inks.map mark)).toList := by
    rw [String.toList_join, List.flatMap_map]
    intro hs c hc
    obtain ⟨i, -, hc⟩ := List.mem_flatMap.1 hc
    exact sayable_mark i hs c hc
  exact (marks.append h).append (sayable_mark _)

end Ink

namespace Box
open Text

variable {stream : Bool} {name text color : String}

theorem sayable_rows {width : ℕ} (pos : 0 < width) (h : Sayable stream text.toList) :
    ∀ r ∈ rows width text, Sayable stream r := by
  intro r hr
  obtain ⟨paragraph, hp, hr⟩ := List.mem_flatMap.1 hr
  split_ifs at hr
  · rw [List.mem_singleton.1 hr]
    exact sayable_drawn rfl
  · exact ((h.of_mem fun d hd => .inl (subset_of_mem_splitAt hp hd)).wrap pos).of_mem
      fun d hd => .inl (List.mem_flatten_of_mem hr hd)

theorem sayable_frame (hn : Sayable stream name.toList) (hc : Sayable stream color.toList)
    {rs : List (List Char)} (hr : ∀ r ∈ rs, Sayable stream r) (n : ℕ) :
    Sayable stream (frame color name n rs).toList := by
  have edge : ∀ k, Sayable stream (rule '─' k).toList := sayable_rule rfl
  have reset := @Ink.sayable_mark _ stream .reset
  have drawn : ∀ {cs}, isDrawn cs = true → Sayable stream cs := sayable_drawn
  refine sayable_intercalate (sayable_drawn rfl) ?_
  intro line hl
  rw [List.mem_append, List.mem_append, List.mem_singleton, List.mem_singleton, List.mem_map] at hl
  rcases hl with (rfl | ⟨r, hr', rfl⟩) | rfl
  · simp only [upperEdge, String.toList_append, sayable_append, and_assoc]
    exact ⟨drawn rfl, hc, drawn rfl, hn, drawn rfl, edge _, drawn rfl, reset⟩
  · have padded : Sayable stream (padEnd (interior rs n) r) := by
      rw [padEnd, sayable_append]
      have blank : Sayable stream [' '] := drawn rfl
      refine ⟨hr r hr', blank.of_mem fun d hd => .inl ?_⟩
      exact List.mem_singleton.2 (List.eq_of_mem_replicate hd)
    simp only [side, String.toList_append, String.toList_ofList, sayable_append, and_assoc]
    exact ⟨drawn rfl, hc, drawn rfl, reset, drawn rfl, padded, drawn rfl, hc, drawn rfl, reset⟩
  · simp only [lowerEdge, String.toList_append, sayable_append, and_assoc]
    exact ⟨drawn rfl, hc, drawn rfl, edge _, drawn rfl, reset⟩

end Box

/-! ## Trees -/

namespace Datum

omit [Text.Halves] in
theorem HoldsOnly.of_mem {P : Scalar → Prop} {es : List (Scalar × Datum)}
    (h : (Datum.map es).HoldsOnly P) {e : Scalar × Datum} (he : e ∈ es) :
    P e.1 ∧ e.2.HoldsOnly P := by
  rw [HoldsOnly, entriesHoldOnly_iff] at h
  exact h e he

omit [Text.Halves] in
theorem HoldsOnly.of_mem_items {P : Scalar → Prop} {xs : List Datum}
    (h : (Datum.list xs).HoldsOnly P) {x : Datum} (hx : x ∈ xs) : x.HoldsOnly P := by
  rw [HoldsOnly, itemsHoldOnly_iff] at h
  exact h x hx

theorem HoldsOnly.field {es : Table Datum} (h : (Datum.map es).HoldsOnly Scalar.IsPlain)
    (name : String) : (Table.field es name).HoldsOnly Scalar.IsPlain := by
  unfold Table.field
  rcases hd : es.get? (.text name) with _ | d
  · exact isPlain_null.scalars
  · obtain ⟨k, hk⟩ := Table.mem_of_get? hd
    exact (h.of_mem hk).2

/-- Whether a value can be said, where it stands for a text. -/
def IsSayable (stream : Bool) (d : Datum) : Prop := Text.Sayable stream d.plain.toList

end Datum

/-- A choice whose texts can be said. -/
structure Choice.IsSayable (stream : Bool) (c : Choice) : Prop where
  text : c.text.IsSayable stream
  requirements : ∀ d ∈ c.requirements, d.IsSayable stream

/-- A node whose texts can be said. -/
structure Node.IsSayable (stream : Bool) (n : Node) : Prop where
  name : Text.Sayable stream n.name.toList
  text : n.text.IsSayable stream
  speaker : n.speaker.IsSayable stream
  choices : ∀ c ∈ n.choices, c.IsSayable stream

/-- A tree whose texts and variables can be said. -/
structure Tree.IsSayable (stream : Bool) (t : Tree) : Prop where
  title : (t.title.orElse t.id).IsSayable stream
  nodes : ∀ n ∈ t.nodes, n.IsSayable stream
  initial : ∀ e ∈ t.initial, (Datum.scalar e.1).IsSayable stream ∧ e.2.IsSayable stream

theorem Datum.HoldsOnly.isSayable {stream : Bool} {d : Datum} (h : d.HoldsOnly Scalar.IsPlain) :
    d.IsSayable stream :=
  Text.sayable_isWhole fun _ => Datum.isWhole_plain h

variable {stream : Bool} {h : Heap}

theorem Choice.isSayable {c : Choice} (plain : (c.toDatum h).HoldsOnly Scalar.IsPlain) :
    c.IsSayable stream := by
  obtain ⟨es, written, text, -, -, -, -, -, requirements⟩ := c.fields h
  rw [written] at plain
  have wanted := requirements ▸ plain.field "requirements"
  exact ⟨(text ▸ plain.field "text").isSayable, fun d hd => (wanted.of_mem_items hd).isSayable⟩

theorem Node.isSayable {n : Node} (name : n.id.IsPlain)
    (plain : (n.toDatum h).HoldsOnly Scalar.IsPlain) : n.IsSayable stream := by
  obtain ⟨es, written, text, speaker, -, choices, -⟩ := n.fields h
  rw [written] at plain
  have offered := choices ▸ plain.field "choices"
  exact ⟨(Datum.isPlain_scalar.2 name).scalars.isSayable, (text ▸ plain.field "text").isSayable,
    (speaker ▸ plain.field "speaker").isSayable,
    fun c hc => Choice.isSayable (offered.of_mem_items (List.mem_map_of_mem hc))⟩

/-- What is in a tree that is written with plain scalars only can be said. -/
theorem Tree.isSayable {t : Tree} (plain : (t.toDatum h).HoldsOnly Scalar.IsPlain) :
    t.IsSayable stream := by
  obtain ⟨es, written, id, title, -, -, nodes, initial, -⟩ := t.fields h
  rw [written] at plain
  have nodes := nodes ▸ plain.field "nodes"
  have initial := initial ▸ plain.field "variables"
  refine ⟨?_, fun n hn => ?_, fun e he => ?_⟩
  · unfold Datum.orElse
    split_ifs
    · exact (title ▸ plain.field "title").isSayable
    · exact (id ▸ plain.field "id").isSayable
  · obtain ⟨name, node⟩ := nodes.of_mem (List.mem_map_of_mem hn)
    exact Node.isSayable name node
  · obtain ⟨key, value⟩ := initial.of_mem he
    exact ⟨(Datum.isPlain_scalar.2 key).scalars.isSayable, value.isSayable⟩

/-- Where nothing is a stream, everything can be said. -/
theorem Tree.isSayable_false (t : Tree) : t.IsSayable false := by
  have free : ∀ {cs}, Text.Sayable false cs := nofun
  exact ⟨free, fun n _ => ⟨free, free, free, fun c _ => ⟨free, fun d _ => free⟩⟩,
    fun e _ => ⟨free, free⟩⟩

end Colloquy
