import Colloquy.Proofs.Knots
import Colloquy.Proofs.Restored

/-!
# Stores that can be written

A store made from data has tables with texts as keys, and values as JSON has them, and effects that
are read keep it so (`Store.Filed.apply`). What a context without a table inside itself looks like
is finite then (`Heap.viewBelow_json`), so the store can be written as JSON and is read again as
what it was (`Store.serializable`).
-/

namespace Colloquy

/-- The keys of a table are texts, each of them once. -/
structure Table.IsNamed {α : Type} (t : Table α) : Prop where
  texts : ∀ k ∈ t.map (·.1), ∃ s, k = .text s
  keyed : t.Keyed

namespace Table

variable {α β : Type}

theorem IsNamed.congr {t : Table α} {u : Table β} (H : t.IsNamed)
    (same : t.map (·.1) = u.map (·.1)) : u.IsNamed :=
  ⟨same ▸ H.texts, keyed_congr same H.keyed⟩

theorem isNamed_nil : IsNamed ([] : Table α) := ⟨List.forall_mem_nil _, keyed_nil⟩

theorem IsNamed.put {t : Table α} (H : t.IsNamed) (name : String) (a : α) :
    (t.put (.text name) a).IsNamed := by
  refine ⟨?_, keyed_put H.keyed _ a⟩
  rw [keys_put]
  split_ifs
  · exact H.texts
  · exact List.forall_mem_append.2 ⟨H.texts, List.forall_mem_singleton.2 ⟨name, rfl⟩⟩

end Table

/-- A value is as JSON has it, whatever its table holds. -/
def Value.IsJson : Value → Prop
  | .list xs => (Datum.list xs).IsJson
  | _ => True

namespace Datum

theorem isJson_map {es : List (Scalar × Datum)} :
    (Datum.map es).IsJson ↔ Table.IsNamed es ∧ ∀ e ∈ es, e.2.IsJson := by
  rw [IsJson, entriesJson_iff]
  constructor
  · rintro ⟨texts, keyed, json⟩
    exact ⟨⟨List.forall_mem_map.2 texts, keyed⟩, json⟩
  · rintro ⟨⟨texts, keyed⟩, json⟩
    exact ⟨fun e he => texts e.1 (List.mem_map_of_mem he), keyed, json⟩

theorem isJson_object {es : List (String × Datum)} (distinct : (es.map (·.1)).Nodup)
    (json : ∀ e ∈ es, e.2.IsJson) : (object es).IsJson := by
  refine isJson_map.2 ⟨⟨List.forall_mem_map.2 ?_, keyed_object distinct⟩, ?_⟩
  · exact List.forall_mem_map.2 fun e _ => ⟨e.1, rfl⟩
  · exact List.forall_mem_map.2 json

theorem isJson_pairOf? {d x : Datum} {k : Scalar} (hd : d.IsJson) (h : pairOf? d = .ok (k, x)) :
    x.IsJson := by
  unfold pairOf? at h
  split at h
  case h_1 =>
    obtain ⟨rfl, rfl⟩ := Prod.mk.inj (Except.ok.inj h)
    exact hd.2.1
  case h_4 =>
    obtain ⟨-, rfl⟩ := Prod.mk.inj (Except.ok.inj h)
    trivial
  case h_6 =>
    split at h
    · obtain ⟨-, rfl⟩ := Prod.mk.inj (Except.ok.inj h)
      trivial
    · exact absurd h nofun
  all_goals exact absurd h nofun

end Datum

namespace Table

theorem json_put {t : Table Datum} (ht : ∀ e ∈ t, e.2.IsJson) (key : Scalar) {d : Datum}
    (hd : d.IsJson) : ∀ e ∈ t.put key d, e.2.IsJson := fun e he =>
  (mem_put he).elim (ht e) fun he => he ▸ hd

theorem json_putPairs : ∀ (ds : List Datum) {t : Table Datum}, (∀ e ∈ t, e.2.IsJson) →
    (∀ d ∈ ds, d.IsJson) → ∀ e ∈ (t.putPairs ds).1, e.2.IsJson
  | [], _, ht, _ => ht
  | d :: ds, t, ht, hd => by
    rw [List.forall_mem_cons] at hd
    unfold putPairs
    rcases hp : pairOf? d with f | ⟨k, x⟩
    · exact ht
    · exact json_putPairs ds (json_put ht k (Datum.isJson_pairOf? hd.1 hp)) hd.2

theorem json_update {d : Datum} (hd : d.IsJson) : ∀ e ∈ (update [] d).1, e.2.IsJson := by
  unfold update
  split
  · rw [Datum.isJson_map] at hd
    intro e he
    rcases mem_putAll he with he | ⟨e', he', heq⟩
    · exact absurd he List.not_mem_nil
    · exact heq ▸ hd.2 e' he'
  · rw [Datum.IsJson, Datum.itemsJson_iff] at hd
    exact json_putPairs _ (List.forall_mem_nil _) hd
  · refine json_putPairs _ (List.forall_mem_nil _) fun x hx => ?_
    obtain ⟨c, -, rfl⟩ := List.mem_map.1 hx
    trivial
  · exact List.forall_mem_nil _
  · exact List.forall_mem_nil _

end Table

/-! ## Heaps -/

namespace Heap

/-- Some cells are tables as JSON has them. -/
def JsonOn (G : Ref → Prop) (h : Heap) : Prop :=
  ∀ r, G r → (h.cell r).IsNamed ∧ ∀ e ∈ h.cell r, e.2.IsJson

variable {G : Ref → Prop} {h : Heap}

theorem jsonOn_size (h : Heap) : JsonOn (h.size ≤ ·) h := fun r hr => by
  rw [cell_of_size_le hr]
  exact ⟨Table.isNamed_nil, List.forall_mem_nil _⟩

theorem JsonOn.setIfInBounds (H : JsonOn G h) (r : Ref) {t : Table Value} (named : t.IsNamed)
    (json : ∀ e ∈ t, e.2.IsJson) : JsonOn G (h.setIfInBounds r t) := fun q hq => by
  rw [cell_setIfInBounds]
  split_ifs
  · exact ⟨named, json⟩
  · exact H q hq

theorem JsonOn.alloc (H : JsonOn G h) {t : Table Value} (named : t.IsNamed)
    (json : ∀ e ∈ t, e.2.IsJson) : JsonOn G (h.alloc t).1 := fun r hr => by
  rcases cell_alloc_cases h t r with ⟨-, he⟩ | ⟨-, he⟩
  · rw [he]
    exact ⟨named, json⟩
  · rw [he]
    exact H r hr

theorem JsonOn.putField (H : JsonOn G h) {r : Ref} (hr : G r) (name : String) {v : Value}
    (hv : v.IsJson) : JsonOn G (h.putField r name v) :=
  H.setIfInBounds r ((H r hr).1.put name v) fun e he =>
    (Table.mem_put he).elim ((H r hr).2 e) fun he => he ▸ hv

mutual

theorem hold_json : ∀ (d : Datum) {h : Heap}, d.IsJson → JsonOn G h →
    JsonOn G (h.hold d).1 ∧ (h.hold d).2.IsJson
  | .scalar _, _, _, H => ⟨H, trivial⟩
  | .list _, _, hd, H => ⟨H, hd⟩
  | .back _, _, _, H => ⟨H, trivial⟩
  | .map es, h, hd, H => by
    rw [Datum.IsJson] at hd
    obtain ⟨H', ht⟩ := holdEntries_json es hd.2.2 H
    have named : Table.IsNamed es := (Datum.isJson_map.1 (by rwa [Datum.IsJson])).1
    exact ⟨H'.alloc (named.congr (keys_holdEntries es h).symm) ht, trivial⟩

theorem holdEntries_json : ∀ (es : List (Scalar × Datum)) {h : Heap}, Datum.EntriesJson es →
    JsonOn G h → JsonOn G (h.holdEntries es).1 ∧ ∀ e ∈ (h.holdEntries es).2, e.2.IsJson
  | [], _, _, H => ⟨H, List.forall_mem_nil _⟩
  | (k, d) :: es, h, hd, H => by
    rw [Datum.EntriesJson] at hd
    obtain ⟨H₁, hv⟩ := hold_json d hd.1 H
    obtain ⟨H₂, ht⟩ := holdEntries_json es hd.2 H₁
    exact ⟨H₂, List.forall_mem_cons.2 ⟨hv, ht⟩⟩

end

/-- What a value looks like that leads to no table inside itself is as JSON has it. The tables on
the way to it lead to it, so it is none of them. -/
theorem viewBelow_json (acyclic : AcyclicOn G h) (hG : Fenced G h) (json : JsonOn G h) :
    ∀ (n : ℕ) {path : List Ref} {v : Value}, v.IsJson → v.In G →
      (∀ p ∈ path, G p ∧ ∀ r, v.ref? = some r → ∃ q ∈ refsOf (h.cell p), h.Leads q r) →
        (h.viewBelow n path v).IsJson
  | 0, _, .scalar _, _, _, _ => trivial
  | _ + 1, _, .scalar _, _, _, _ => trivial
  | 0, _, .list _, hv, _, _ => hv
  | _ + 1, _, .list _, hv, _, _ => hv
  | 0, _, .map _, _, _, _ => Datum.isJson_empty
  | n + 1, path, .map r, _, hin, way => by
    have hr : G r := hin r rfl
    have away : path.idxOf? r = none := by
      rw [List.idxOf?_eq_none_iff]
      intro hmem
      obtain ⟨q, hq, hl⟩ := (way r hmem).2 r rfl
      exact acyclic r hr q hq hl
    simp only [viewBelow, away]
    obtain ⟨named, hvalues⟩ := json r hr
    refine Datum.isJson_map.2 ⟨named.congr (by simp), List.forall_mem_map.2 fun e he => ?_⟩
    refine viewBelow_json acyclic hG json n (hvalues e he) (fun q hq => ?_)
      (List.forall_mem_cons.2 ⟨⟨hr, fun q hq => ?_⟩, fun p hp => ⟨(way p hp).1, fun q hq => ?_⟩⟩)
    · exact (hG.closed r hr q (mem_refsOf.2 ⟨e, he, hq⟩)).1
    · exact ⟨q, mem_refsOf.2 ⟨e, he, hq⟩, .refl h q⟩
    · obtain ⟨x, hx, hl⟩ := (way p hp).2 r rfl
      exact ⟨x, hx, hl.next (mem_refsOf.2 ⟨e, he, hq⟩)⟩

end Heap

namespace Context

open Heap

theorem write_json {G : Ref → Prop} : ∀ (p : Path) {h : Heap} {r : Ref} {v : Value},
    JsonOn G h → Heap.Fenced G h → G r → v.IsJson → JsonOn G (write h r p v).1
  | [], _, _, _, H, _, _, _ => H
  | [key], _, _, _, H, _, hr, hv => H.putField hr key hv
  | key :: k :: rest, h, r, v, H, hG, hr, hv => by
    by_cases hc : ∃ child, (h.cell r).get? (.text key) = some (.map child)
    · obtain ⟨child, hc⟩ := hc
      rw [write_through hc]
      have hchild := (hG.closed r hr child (mem_refsOf_of_get? hc rfl)).1
      exact write_json (k :: rest) H hG hchild hv
    · rw [write_grow (not_exists.1 hc)]
      have H' : JsonOn G (grow h r key) :=
        (H.alloc Table.isNamed_nil (List.forall_mem_nil _)).putField hr key trivial
      exact write_json (k :: rest) H' (grow_fenced hG hr) (hG.fresh _ le_rfl) hv

theorem walk_json {G : Ref → Prop} {h : Heap} (H : JsonOn G h) (hG : Heap.Fenced G h) :
    ∀ (p : Path) {v w : Value}, v.In G → v.IsJson → walk h v p = some w → w.IsJson
  | [], v, w, _, hv, hw => by
    rw [walk_nil] at hw
    cases hw
    exact hv
  | key :: rest, v, w, hin, _, hw => by
    rcases v with _ | _ | r
    · cases hw
    · cases hw
    · rw [walk] at hw
      rcases hc : (h.cell r).get? (.text key) with _ | u
      · rw [hc] at hw
        cases hw
      · rw [hc] at hw
        obtain ⟨k, hk⟩ := Table.mem_of_get? hc
        have hr := hin r rfl
        exact walk_json H hG rest
          (fun q hq => (hG.closed r hr q (mem_refsOf_of_get? hc hq)).1) ((H r hr).2 (k, u) hk) hw

end Context

/-! ## Effects -/

namespace Quest

/-- The times of a quest record are values as JSON has them. -/
structure IsJson (q : Quest) : Prop where
  started : q.started.IsJson
  completed : q.completed.IsJson
  failed : q.failed.IsJson

theorem IsJson.move {old : Option Quest} (H : ∀ q, old = some q → q.IsJson) (status : Status)
    {time : Datum} (ht : time.IsJson) : (Quest.move old status time).IsJson := by
  have hold : (old.getD { status }).IsJson := by
    rcases old with _ | q
    · exact ⟨trivial, trivial, trivial⟩
    · exact H q rfl
  cases status with
  | active => exact ⟨ht, trivial, trivial⟩
  | completed => exact ⟨hold.started, ht, hold.failed⟩
  | failed => exact ⟨hold.started, hold.completed, ht⟩

theorem IsJson.toDatum {q : Quest} (H : q.IsJson) : q.toDatum.IsJson := by
  refine Datum.isJson_object (by simp) ?_
  simp only [List.forall_mem_cons]
  exact ⟨trivial, H.started, H.completed, H.failed, List.forall_mem_nil _⟩

theorem isJson_ofDatum {d : Datum} (hd : d.IsJson) {q : Quest} (h : ofDatum d = .ok q) :
    q.IsJson := by
  rcases d with _ | _ | es | _
  case map =>
    rw [Datum.IsJson] at hd
    simp only [ofDatum] at h
    split at h
    · cases h
      exact ⟨Datum.isJson_field hd.2.2 _, Datum.isJson_field hd.2.2 _, Datum.isJson_field hd.2.2 _⟩
    · cases h
  all_goals cases h

end Quest

namespace Store

/-- A store has tables with texts as keys, and values as JSON has them. -/
structure Filed (G : Ref → Prop) (s : Store) : Prop where
  flags : (Datum.map s.flags).IsJson
  context : s.context.heap.JsonOn G
  quests : Table.IsNamed s.quests
  records : ∀ e ∈ s.quests, e.2.IsJson

theorem questsOf_json : ∀ (es : List (Scalar × Datum)) {t : Table Quest},
    (∀ e ∈ es, e.2.IsJson) → questsOf es = .ok t →
      t.map (·.1) = es.map (·.1) ∧ ∀ e ∈ t, e.2.IsJson := by
  intro es
  induction es with
  | nil =>
    intro t _ h
    cases h
    exact ⟨rfl, List.forall_mem_nil _⟩
  | cons e es ih =>
    intro t hes h
    rw [List.forall_mem_cons] at hes
    obtain ⟨k, d⟩ := e
    unfold questsOf at h
    rcases hq : Quest.ofDatum d with f | q
    · rw [hq] at h
      cases h
    · rw [hq] at h
      rcases hu : questsOf es with f | u
      · rw [hu] at h
        cases h
      · rw [hu] at h
        cases h
        obtain ⟨keys, json⟩ := ih hes.2 hu
        refine ⟨by simp only [List.map_cons, keys], ?_⟩
        exact List.forall_mem_cons.2 ⟨Quest.isJson_ofDatum hes.1 hq, json⟩

theorem readQuests_json {d : Datum} (hd : d.IsJson) {t : Table Quest}
    (h : readQuests d = .ok t) : Table.IsNamed t ∧ ∀ e ∈ t, e.2.IsJson := by
  rcases d with _ | _ | es | _
  case map =>
    rw [Datum.isJson_map] at hd
    obtain ⟨keys, json⟩ := questsOf_json es hd.2 h
    exact ⟨hd.1.congr keys.symm, json⟩
  all_goals cases h

/-- The keys of the flags and of the context of a store are texts. They may not be if data gives
them as lists of pairs. -/
structure HasNames (s : Store) : Prop where
  flags : ∀ k ∈ s.flags.map (·.1), ∃ name, k = .text name
  context : ∀ k ∈ s.context.entries.map (·.1), ∃ name, k = .text name

theorem Filed.toDatum {G : Ref → Prop} {s : Store} (H : s.Filed G) (hG : s.context.Fenced G)
    (acyclic : s.context.heap.AcyclicOn G) {r : Ref} (hr : s.context.root = .map r) :
    s.toDatum.IsJson := by
  have hroot : G r := (hG.root r (by rw [hr]; rfl)).1
  have hcontext : s.context.view.IsJson := by
    obtain ⟨named, json⟩ := H.context r hroot
    simp only [Context.view, Context.entries, hr, Heap.viewTable]
    refine Datum.isJson_map.2 ⟨named.congr (by simp), List.forall_mem_map.2 fun e he => ?_⟩
    refine Heap.viewBelow_json acyclic hG.heap H.context _ (json e he) (fun q hq => ?_)
      (List.forall_mem_nil _)
    exact (hG.heap.closed r hroot q (Heap.mem_refsOf.2 ⟨e, he, hq⟩)).1
  have hquests : (Datum.map (s.quests.map fun p => (p.1, p.2.toDatum))).IsJson :=
    Datum.isJson_map.2 ⟨H.quests.congr (by simp),
      List.forall_mem_map.2 fun e he => (H.records e he).toDatum⟩
  refine Datum.isJson_object (by simp) ?_
  simp only [List.forall_mem_cons]
  exact ⟨H.flags, hcontext, hquests, List.forall_mem_nil _⟩

theorem entries_loadData (h : Heap) (t : Table Datum) :
    ((Context.empty h).loadData t).entries = ((Context.empty h).heap.holdEntries t).2 := by
  have hs : h.size < ((Context.empty h).heap.holdEntries t).1.size :=
    (Context.empty_loose h).2.1.trans_le (Heap.holdEntries_atop t (.refl _)).2.1
  change Heap.cell (Array.setIfInBounds _ h.size _) h.size = _
  rw [Heap.cell_setIfInBounds, if_pos ⟨rfl, hs⟩]

theorem loadDatum_filed {h : Heap} {d : Datum} (json : d.IsJson) {c : Context}
    (hc : (Context.empty h).loadDatum d = (c, none))
    (names : ∀ k ∈ c.entries.map (·.1), ∃ name, k = .text name) :
    c.heap.JsonOn (h.size ≤ ·) := by
  rw [Context.loadDatum_empty] at hc
  split_ifs at hc
  · obtain ⟨rfl, -⟩ := Prod.mk.inj hc
    rw [entries_loadData] at names
    obtain ⟨keyed, -⟩ := Table.keyed_update json.keyed
    obtain ⟨H, ht⟩ := Heap.holdEntries_json (Table.update [] d).1
      (Datum.entriesJson_iff.2 (Table.json_update json))
      ((Heap.jsonOn_size h).alloc Table.isNamed_nil (List.forall_mem_nil _))
    have hkeyed := Table.keyed_congr (Heap.keys_holdEntries (Table.update [] d).1
      (Context.empty h).heap).symm keyed
    exact H.setIfInBounds h.size ⟨names, hkeyed⟩ ht
  · cases hc

theorem isJson_part {es : Table Datum} (json : (Datum.map es).IsJson) (name : String) :
    (part es name).IsJson := by
  rw [Datum.IsJson] at json
  unfold part
  rcases hg : Table.get? es (.text name) with _ | x
  · exact Datum.isJson_empty
  · exact Datum.isJson_get? json.2.2 hg

theorem ofDatum_filed {h : Heap} {d : Datum} {s : Store} (json : d.IsJson)
    (hs : ofDatum h d = .ok s) (names : s.HasNames) : s.Filed (h.size ≤ ·) := by
  obtain ⟨es, rfl, hquests, hflags, hcontext⟩ := ofDatum_parts hs
  have hpart : ∀ name, (part es name).IsJson := isJson_part json
  obtain ⟨keyed, -⟩ := Table.keyed_update (hpart "flags").keyed
  have hvalues := Table.json_update (hpart "flags")
  rw [hflags] at keyed hvalues
  obtain ⟨hquests, hrecords⟩ := readQuests_json (hpart "quests") hquests
  exact ⟨Datum.isJson_map.2 ⟨⟨names.flags, keyed⟩, hvalues⟩,
    loadDatum_filed (hpart "context") hcontext names.context, hquests, hrecords⟩

end Store

namespace Effect

/-- A value that an effect writes is as JSON has it. -/
def IsJson : Effect → Prop
  | .write _ _ (.value v) => v.IsJson
  | _ => True

theorem GivesScalar.isJson : ∀ {e : Effect}, e.GivesScalar → e.IsJson
  | .write _ _ (.value _), ⟨_, rfl⟩ => trivial
  | .write _ _ (.flag _), _ => trivial
  | .write _ _ (.context _), _ => trivial
  | .setFlag _ _, _ => trivial
  | .toggleFlag _, _ => trivial
  | .moveQuest _ _, _ => trivial
  | .malformed _ _, _ => trivial

variable {G : Ref → Prop}

theorem ofAction_json [Text.Halves] {h : Heap} (H : h.JsonOn G) {es : Table Datum}
    (json : Datum.EntriesJson es) (space : Space) (key : String) :
    (ofAction h es space key).1.JsonOn G ∧ (ofAction h es space key).2.IsJson := by
  cases space with
  | flag =>
    simp only [ofAction]
    split
    all_goals exact ⟨H, trivial⟩
  | quest =>
    simp only [ofAction]
    split
    all_goals exact ⟨H, trivial⟩
  | context =>
    simp only [ofAction]
    split
    · exact Heap.hold_json _ (Datum.isJson_field json "value") H
    · exact ⟨H, trivial⟩

theorem ofDatum_json [Text.Halves] {h : Heap} (H : h.JsonOn G) {d : Datum} (json : d.IsJson) :
    (ofDatum h d).1.JsonOn G ∧ (ofDatum h d).2.IsJson := by
  unfold ofDatum
  split
  · exact ⟨H, (givesScalar_ofText _).isJson⟩
  · rw [Datum.IsJson] at json
    unfold ofTable
    split
    · exact ⟨H, trivial⟩
    · split_ifs
      · exact ⟨H, trivial⟩
      · exact ofAction_json H json.2.2 _ _
    · exact ⟨H, trivial⟩
  · exact ⟨H, trivial⟩

theorem writeValue_rest (w : World) (path : String) (op : Operation) (v : Value) :
    (writeValue w path op v).1.store.flags = w.store.flags ∧
      (writeValue w path op v).1.store.quests = w.store.quests := by
  unfold writeValue World.set Store.set
  rcases w.store.context.set (Path.split path) v with f | ⟨c, replaced⟩
  · exact ⟨rfl, rfl⟩
  · simp only [Except.map]
    split_ifs
    · exact ⟨rfl, rfl⟩
    · exact ⟨rfl, rfl⟩

theorem applyWrite_rest (w : World) (path : String) (op : Operation) (source : Source) :
    (applyWrite w path op source).1.store.flags = w.store.flags ∧
      (applyWrite w path op source).1.store.quests = w.store.quests := by
  unfold applyWrite
  split
  · split
    · exact writeValue_rest _ _ _ _
    · exact ⟨rfl, rfl⟩
  · split
    · rename_i n _
      have hw := writeValue_rest (w.distinguish n).1 path op (.ofNumber (w.distinguish n).2)
      rwa [distinguish_store] at hw
    · exact ⟨rfl, rfl⟩

theorem apply_flags (w : World) (e : Effect) : (e.apply w).1.store.flags = w.store.flags ∨
    ∃ key value, (e.apply w).1.store.flags = w.store.flags.put (.text key) (.bool value) := by
  cases e with
  | setFlag key value => exact .inr ⟨key, value, rfl⟩
  | toggleFlag key => exact .inr ⟨key, _, rfl⟩
  | write path op source => exact .inl (applyWrite_rest w path op source).1
  | moveQuest key t =>
    left
    simp only [apply, World.moveQuest]
    rcases w.clock.read with f | ⟨time, clock⟩
    · rfl
    · rfl
  | malformed => exact .inl rfl

theorem apply_quests (w : World) (e : Effect) : (e.apply w).1.store.quests = w.store.quests ∨
    ∃ key status time, Datum.IsJson time ∧ (e.apply w).1.store.quests =
      w.store.quests.put (.text key) (Quest.move (w.store.quest? (.text key)) status time) := by
  cases e with
  | setFlag | toggleFlag | malformed => exact .inl rfl
  | write path op source => exact .inl (applyWrite_rest w path op source).2
  | moveQuest key t =>
    simp only [apply, World.moveQuest]
    rcases hc : w.clock.read with f | ⟨time, clock⟩
    · exact .inl rfl
    · refine .inr ⟨key, t.status, time, ?_, rfl⟩
      unfold Clock.read at hc
      split at hc
      · cases hc
        trivial
      · cases hc

theorem resolve_json {s : Store} (hG : s.context.Fenced G) (H : s.context.heap.JsonOn G)
    {path : String} {op : Operation} {source : Source} (json : (write path op source).IsJson)
    {v : Value} (hv : source.resolve s = some v) {r : Ref} (hr : s.context.root = .map r) :
    v.IsJson := by
  cases source with
  | flag key =>
    cases hv
    trivial
  | context path =>
    refine Context.walk_json H hG.heap (Path.split path) (fun q hq => (hG.root q hq).1) ?_ hv
    rw [hr]
    trivial
  | value v' =>
    cases hv
    exact json

theorem apply_filed {w : World} {e : Effect} (H : w.store.Filed G) (hG : w.store.context.Fenced G)
    (json : e.IsJson) : (e.apply w).1.store.Filed G := by
  refine ⟨?_, ?_, ?_, ?_⟩
  · rcases apply_flags w e with he | ⟨key, value, he⟩
    · rw [he]
      exact H.flags
    · rw [he]
      have hflags := Datum.isJson_map.1 H.flags
      exact Datum.isJson_map.2 ⟨hflags.1.put key _, Table.json_put hflags.2 _ trivial⟩
  · rcases apply_context w e with hc | ⟨path, op, source, v, r, rfl, hv, hr, hc⟩
    · rw [hc]
      exact H.context
    · rw [hc]
      have hroot := (hG.root r (by rw [hr]; rfl)).1
      rcases hv with ⟨n, rfl⟩ | ⟨-, hv⟩
      · exact Context.write_json _ H.context hG.heap hroot trivial
      · exact Context.write_json _ H.context hG.heap hroot (resolve_json hG H.context json hv hr)
  · rcases apply_quests w e with he | ⟨key, status, time, -, he⟩
    · rw [he]
      exact H.quests
    · rw [he]
      exact H.quests.put key _
  · rcases apply_quests w e with he | ⟨key, status, time, ht, he⟩
    · rw [he]
      exact H.records
    · rw [he]
      intro x hx
      rcases Table.mem_put hx with hx | hx
      · exact H.records x hx
      · rw [hx]
        refine Quest.IsJson.move (fun q hq => ?_) status ht
        obtain ⟨k, hk⟩ := Table.mem_of_get? hq
        exact H.records (k, q) hk

end Effect

/-! ## Scripts -/

namespace Owner

/-- An owner whose store and effects are as JSON has them. -/
structure Filed (G : Ref → Prop) (o : Owner Store) : Prop where
  store : o.store.Filed G
  effects : ∀ e ∈ o.effects, e.IsJson

variable [Text.Halves] {G : Ref → Prop} {o : Owner Store}

theorem Filed.read (H : o.Filed G) {d : Datum} (json : d.IsJson) :
    (o.act (.readEffect d)).1.Filed G := by
  obtain ⟨hheap, he⟩ := Effect.ofDatum_json H.store.context json
  refine ⟨⟨H.store.flags, hheap, H.store.quests, H.store.records⟩, ?_⟩
  exact List.forall_mem_append.2 ⟨H.effects, List.forall_mem_singleton.2 he⟩

/-- A script without an effect that puts a table into itself keeps a store as JSON has it. -/
theorem Filed.acts (H : o.Filed G) (H' : o.Untangled G) {as : List Act}
    (free : o.Plays (fun s e => ¬ e.Knots s) as) : (o.acts as).Filed G := by
  have both : (o.acts as).Filed G ∧ (o.acts as).Untangled G := by
    refine free.keeps (I := fun o => o.Filed G ∧ o.Untangled G) ?_ ?_ ⟨H, H'⟩
    · exact fun _ _ ho json => ⟨ho.1.read json, ho.2.read json⟩
    · intro o e clock payload ho he free
      refine ⟨⟨?_, ho.1.effects⟩, ho.2.apply he clock payload free⟩
      exact Effect.apply_filed (w := { store := o.store, clock, payload }) ho.1.store
        ho.2.fenced.store (ho.1.effects e he)
  exact both.1

theorem root_acts {r : Ref} (hr : o.store.context.root = .map r) {as : List Act}
    {P : Store → Effect → Prop} (plays : o.Plays P as) :
    (o.acts as).store.context.root = .map r := by
  refine plays.keeps (I := fun o => o.store.context.root = .map r) (fun _ _ ho _ => ho) ?_ hr
  exact fun o e clock payload ho _ _ => (root_after o e clock payload).trans ho

end Owner

section scripts
variable [Text.Halves]

/-- The context of a store that was made from JSON data is acyclic throughout a script if and only
if no effect of the script puts a table into itself. If none does, and all keys are texts, then the
store can be written as JSON at any indentation, and is read again as it was unless there is NaN in
it, an integer with too many digits, half a surrogate pair, or too much nesting. -/
theorem Store.serializable {h : Heap} {d : Datum} {s : Store} (json : d.IsJson)
    (made : Store.ofDatum h d = .ok s) {as : List Act}
    (plays : Owner.Plays (fun _ _ => True) { store := s } as) :
    let o : Owner Store := { store := s }
    ((∀ bs, bs <+: as → (o.acts bs).store.context.Acyclic) ↔
      o.Plays (fun s e => ¬ e.Knots s) as) ∧
    (o.Plays (fun s e => ¬ e.Knots s) as → s.HasNames →
      let x := (o.acts as).store.toDatum
      x.IsJson ∧ (x.HoldsOnly Scalar.IsPlain → ∀ indent : Option ℕ,
        ∃ text, Json.write? (.spaced indent) x = some text ∧
          Json.read text = if x.depth ≤ Json.depthLimit then .ok x else .error .tooDeep)) := by
  intro o
  obtain ⟨r, hr, hG, forest⟩ := Store.ofDatum_forest made
  have H : o.Untangled (h.size ≤ ·) := ⟨⟨hG, List.forall_mem_nil _⟩, forest.acyclic⟩
  refine ⟨Owner.acyclic_iff H plays, fun free names => ?_⟩
  have H' : o.Filed (h.size ≤ ·) :=
    ⟨Store.ofDatum_filed json made names, List.forall_mem_nil _⟩
  have Hend := H.acts free
  have hjson : (o.acts as).store.toDatum.IsJson := (H'.acts H free).store.toDatum
    Hend.fenced.store Hend.acyclic (Owner.root_acts hr free)
  exact ⟨hjson, fun plain indent => Json.read_write? indent hjson plain⟩

end scripts

namespace Store

attribute [local instance] Text.noHalves

/-- The data of a store with an empty purse in its context. -/
def satchel : Datum := .object [("context", .object [("purse", .object [])])]

/-- The store with the purse. -/
def pouch : Store := ⟨[], ⟨#[[(.text "purse", .map 1)], []], .map 0⟩, []⟩

theorem satchel_json : satchel.IsJson := by
  simp [satchel, Datum.object, Datum.IsJson, Datum.EntriesJson, Table.Keyed]

theorem pouch_made : ofDatum #[] satchel = .ok pouch := rfl

/-- The purse is shared, and coins are put into what it is shared with. -/
def sharing : List Act :=
  [.readEffect (.text "context.spare=context.purse"), .apply 0 {} 1,
    .readEffect (.text "context.spare.coins=2"), .apply 1 {} 1]

/-- The purse is put into itself. -/
def knotting : List Act :=
  [.readEffect (.text "context.purse.inner=context.purse"), .apply 0 {} 1]

theorem sharing_free :
    Owner.Plays (fun s e => ¬ e.Knots s) { store := pouch } sharing := by
  refine ⟨trivial, .cons_apply (e := .write "spare" .set (.context "purse")) (by decide +kernel) ?_
    ⟨trivial, .cons_apply (e := .write "spare.coins" .set (.value (.scalar (.int 2))))
      (by decide +kernel) ?_ trivial⟩⟩
  · rintro ⟨r, u, hr, hu, hl⟩
    cases hr
    cases hu
    exact absurd (hl.eq_of_nil rfl) (by decide +kernel)
  · rintro ⟨r, u, -, hu, -⟩
    cases hu

/-- The data of the store with coins in the purse, which it holds twice. -/
def filled : Datum :=
  .object [("flags", .object []), ("context", .object [
    ("purse", .object [("coins", .int 2)]), ("spare", .object [("coins", .int 2)])]),
    ("quests", .object [])]

theorem filled_plain : filled.IsPlain := by
  have two : (Datum.int 2).IsPlain :=
    Datum.isPlain_scalar.2 (by decide +kernel : (2 : ℤ).natAbs < integerBound)
  have coins : (Datum.object [("coins", .int 2)]).IsPlain :=
    Datum.isPlain_object ["coins"] (by decide) rfl two
  have context : (Datum.object [("purse", .object [("coins", .int 2)]),
      ("spare", .object [("coins", .int 2)])]).IsPlain :=
    Datum.isPlain_object ["purse", "spare"] (by decide) rfl ⟨coins, coins⟩
  exact Datum.isPlain_object ["flags", "context", "quests"] (by decide) rfl
    ⟨Datum.isPlain_empty, context, Datum.isPlain_empty⟩

theorem serializable_satchel : satchel.IsJson ∧ ofDatum #[] satchel = .ok pouch ∧
    (∀ bs, bs <+: sharing → (Owner.acts { store := pouch } bs).store.context.Acyclic) ∧
    ∃ text, Json.write? (.spaced none) (Owner.acts { store := pouch } sharing).store.toDatum =
        some text ∧
      Json.read text = .ok (.object [("flags", .object []), ("context", .object [
        ("purse", .object [("coins", .int 2)]), ("spare", .object [("coins", .int 2)])]),
        ("quests", .object [])]) := by
  have plays : Owner.Plays (fun _ _ => True) { store := pouch } sharing :=
    ⟨trivial, fun _ _ => trivial, trivial, fun _ _ => trivial, trivial⟩
  have names : pouch.HasNames := by
    refine ⟨List.forall_mem_nil _, ?_⟩
    exact List.forall_mem_singleton.2 ⟨"purse", rfl⟩
  have shown : (Owner.acts { store := pouch } sharing).store.toDatum = filled := by
    decide +kernel
  obtain ⟨acyclic, written⟩ := serializable satchel_json pouch_made plays
  obtain ⟨-, written⟩ := written sharing_free names
  rw [shown] at written ⊢
  obtain ⟨text, hw, hread⟩ := written filled_plain.scalars none
  refine ⟨satchel_json, pouch_made, acyclic.2 sharing_free, text, hw, hread.trans ?_⟩
  rfl

/-- A store with a table inside itself cannot be written as JSON. -/
theorem serializable_knotted : satchel.IsJson ∧ ofDatum #[] satchel = .ok pouch ∧
    Owner.Plays (fun _ _ => True) { store := pouch } knotting ∧
    ¬ (Owner.acts { store := pouch } knotting).store.context.Acyclic ∧
    ∀ indent : Option ℕ, Json.write? (.spaced indent)
      (Owner.acts { store := pouch } knotting).store.toDatum = none := by
  have shown : (Owner.acts { store := pouch } knotting).store.toDatum =
      .object [("flags", .object []), ("context", .object [
        ("purse", .object [("inner", .back 1)])]), ("quests", .object [])] := by decide +kernel
  have context : (Owner.acts { store := pouch } knotting).store.context =
      ⟨#[[(.text "purse", .map 1)], [(.text "inner", .map 1)]], .map 0⟩ := rfl
  refine ⟨satchel_json, pouch_made, ⟨trivial, fun _ _ => trivial, trivial⟩, fun acyclic => ?_,
    fun indent => ?_⟩
  · rw [context] at acyclic
    exact acyclic 1 (.step (.here rfl) (by decide +kernel)) 1 (by decide +kernel) (.refl _ 1)
  · rw [shown]
    rfl

end Store

end Colloquy
