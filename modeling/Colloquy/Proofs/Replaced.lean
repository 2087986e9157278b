import Colloquy.Proofs.Beside
import Colloquy.Proofs.Serial

/-!
# Stores that are replaced in place

Restoring a store from data reads all quest records before it replaces anything, so data with a bad
record is refused and leaves the store alone (`Store.restoreData_refused`). Flags and context are
read while they are replaced: where one of them stops, it is left with the entries in front of that
(`Datum.front`), and what comes after it is as it was (`Store.IsTorn`). So restoring is all or
nothing for the data that is refused, and for the data whose flags and context can be taken, for no
other (`Store.restoreData_keeps_iff`).
-/

namespace Colloquy

namespace Datum

/-- Data that is an entry: a list of a key and a value, a table of two keys or a text of two
characters. -/
inductive IsEntry : Datum → Scalar × Datum → Prop
  | list (k : Scalar) (d : Datum) : IsEntry (.list [.scalar k, d]) (k, d)
  | map (k l : Scalar) (d e : Datum) : IsEntry (.map [(k, d), (l, e)]) (k, .scalar l)
  | text (a b : Char) : IsEntry (.text (String.ofList [a, b]))
      (.text (String.singleton a), .text (String.singleton b))

/-- Data that a table can be made of. -/
def IsEntries : Datum → Prop
  | .map _ => True
  | .list ds => ∀ d ∈ ds, ∃ e, d.IsEntry e
  | .text s => s = ""
  | _ => False

/-- The entries among the items of a list, in front of the first item that is none. -/
def frontOf (ds : List Datum) : List (Scalar × Datum) :=
  ((ds.map fun d => (pairOf? d).toOption).takeWhile Option.isSome).filterMap id

/-- The entries that data gives, in front of the first thing that is none. -/
def front : Datum → List (Scalar × Datum)
  | .map es => es
  | .list ds => frontOf ds
  | _ => []

/-- Data that is a quest record: if it has a status, that is the name of one. -/
def IsQuest : Datum → Prop
  | .map es => ∀ d, Table.get? es (.text "status") = some d → ∃ s : Quest.Status, d = .text s.name
  | _ => False

def AreQuests : Datum → Prop
  | .map es => ∀ e ∈ es, e.2.IsQuest
  | _ => False

/-- Data that a store is not replaced by at all: it is no table, or its quests are no records. -/
def IsRefused : Datum → Prop
  | .map es => ¬ (Store.part es "quests").AreQuests
  | _ => True

/-- Data whose flags and context can be taken. -/
def Fits : Datum → Prop
  | .map es => (Store.part es "flags").IsEntries ∧ (Store.part es "context").IsEntries ∧
      (Store.part es "context").depth ≤ Context.copyLimit
  | _ => False

/-! ## Entries -/

theorem pairOf?_eq_ok_iff {d : Datum} {e : Scalar × Datum} : pairOf? d = .ok e ↔ d.IsEntry e := by
  constructor
  · intro h
    unfold pairOf? at h
    split at h
    case h_1 k d =>
      cases h
      exact .list k d
    case h_4 k x l y =>
      cases h
      exact .map k l x y
    case h_6 s =>
      split at h
      case h_1 a b hs =>
        cases h
        obtain rfl : s = String.ofList [a, b] := by rw [← hs, String.ofList_toList]
        exact .text a b
      case h_2 => cases h
    all_goals cases h
  · rintro (⟨k, d⟩ | ⟨k, l, d, e⟩ | ⟨a, b⟩)
    · rfl
    · rfl
    · simp only [pairOf?, String.toList_ofList]

theorem frontOf_cons_ok {d : Datum} {e : Scalar × Datum} (h : pairOf? d = .ok e)
    (ds : List Datum) : frontOf (d :: ds) = e :: frontOf ds := by
  simp [frontOf, h, Except.toOption]

theorem frontOf_cons_error {d : Datum} {f : Fault} (h : pairOf? d = .error f)
    (ds : List Datum) : frontOf (d :: ds) = [] := by
  simp [frontOf, h, Except.toOption]

theorem pairOf?_singleton (c : Char) :
    pairOf? (.text (String.singleton c)) = .error .wrongValue := by
  simp only [pairOf?, String.toList_singleton]

theorem not_isEntry_singleton (c : Char) (e : Scalar × Datum) :
    ¬ (Datum.text (String.singleton c)).IsEntry e := by
  intro h
  have hp := pairOf?_eq_ok_iff.2 h
  rw [pairOf?_singleton] at hp
  cases hp

end Datum

namespace Table

theorem putPairs_fst (ds : List Datum) (t : Table Datum) :
    (t.putPairs ds).1 = t.putAll (Datum.frontOf ds) := by
  induction ds generalizing t with
  | nil => rfl
  | cons d ds ih =>
    unfold putPairs
    rcases hp : pairOf? d with f | ⟨k, x⟩
    · rw [Datum.frontOf_cons_error hp]
      rfl
    · rw [Datum.frontOf_cons_ok hp]
      exact ih _

theorem putPairs_eq_none_iff (ds : List Datum) (t : Table Datum) :
    (t.putPairs ds).2 = none ↔ ∀ d ∈ ds, ∃ e, d.IsEntry e := by
  induction ds generalizing t with
  | nil => exact iff_of_true rfl (List.forall_mem_nil _)
  | cons d ds ih =>
    rw [List.forall_mem_cons]
    unfold putPairs
    rcases hp : pairOf? d with f | ⟨k, x⟩
    · refine iff_of_false (Option.some_ne_none f) fun h => ?_
      obtain ⟨e, he⟩ := h.1
      rw [Datum.pairOf?_eq_ok_iff.2 he] at hp
      cases hp
    · exact (ih _).trans (and_iff_right ⟨_, Datum.pairOf?_eq_ok_iff.1 hp⟩).symm

/-- A table is made of the entries in front of the first thing that is none. -/
theorem update_fst (d : Datum) : (update [] d).1 = ofList d.front := by
  rcases d with (_ | _ | _ | _ | s) | ds | es | n
  case scalar.text =>
    change (putPairs [] _).1 = _
    rw [putPairs_fst]
    rcases s.toList with _ | ⟨c, cs⟩
    · rfl
    · rw [List.map_cons, Datum.frontOf_cons_error (Datum.pairOf?_singleton c)]
      rfl
  case list => exact putPairs_fst ds []
  all_goals rfl

/-- It is made of all of the data if that is entries and nothing else. -/
theorem update_eq_none_iff {d : Datum} : (update [] d).2 = none ↔ d.IsEntries := by
  rcases d with (_ | _ | _ | _ | s) | ds | es | n
  case scalar.text =>
    change (putPairs [] _).2 = none ↔ s = ""
    rw [putPairs_eq_none_iff, List.forall_mem_map]
    constructor
    · intro h
      rw [← String.toList_eq_nil_iff, List.eq_nil_iff_forall_not_mem]
      intro c hc
      obtain ⟨e, he⟩ := h c hc
      exact Datum.not_isEntry_singleton c e he
    · rintro rfl c hc
      exact absurd hc List.not_mem_nil
  case list => exact putPairs_eq_none_iff ds []
  case map => exact iff_of_true rfl trivial
  all_goals simp [update, Datum.IsEntries]

end Table

/-! ## Quest records -/

theorem Quest.Status.ofDatum?_eq_some_iff {d : Datum} {s : Status} :
    ofDatum? d = some s ↔ d = .text s.name := by
  constructor
  · intro h
    unfold ofDatum? at h
    split at h
    case h_4 => cases h
    all_goals
      cases h
      rfl
  · rintro rfl
    exact ofDatum?_name s

theorem Quest.ofDatum_ok_iff {d : Datum} : (∃ q, ofDatum d = .ok q) ↔ d.IsQuest := by
  rcases d with _ | _ | es | _
  case map =>
    change _ ↔ ∀ d, Table.get? es (.text "status") = some d → _
    simp only [ofDatum]
    rcases Table.get? es (.text "status") with _ | x
    · exact iff_of_true ⟨_, rfl⟩ fun d h => absurd h (Option.some_ne_none d).symm
    · simp only [Option.getD_some, Option.some.injEq, forall_eq', ← Status.ofDatum?_eq_some_iff]
      rcases Status.ofDatum? x with _ | s
      · simp
      · simp
  all_goals simp [ofDatum, Datum.IsQuest]

namespace Store

theorem questsOf_ok_iff {es : List (Scalar × Datum)} :
    (∃ t, questsOf es = .ok t) ↔ ∀ e ∈ es, e.2.IsQuest := by
  induction es with
  | nil => exact iff_of_true ⟨[], rfl⟩ (List.forall_mem_nil _)
  | cons e es ih =>
    rw [List.forall_mem_cons, ← ih, ← Quest.ofDatum_ok_iff, questsOf]
    rcases Quest.ofDatum e.2 with f | q
    · simp
    · rcases questsOf es with f | t
      · simp
      · simp

theorem readQuests_ok_iff {d : Datum} : (∃ t, readQuests d = .ok t) ↔ d.AreQuests := by
  rcases d with _ | _ | es | _
  case map => exact questsOf_ok_iff
  all_goals simp [readQuests, Datum.AreQuests]

end Store

/-! ## Contexts -/

namespace Heap

variable {N : Ref → Prop} {h h' : Heap}

mutual

/-- What data looks like on a heap it looks like on another one with the same cells for it. -/
theorem Shows.same (closed : ∀ r, N r → ∀ q ∈ refsOf (h.cell r), N q) (same : Same N h h')
    (size : h.size ≤ h'.size) : ∀ {d : Datum} {v : Value}, h.Shows d v → v.In N → h'.Shows d v
  | .scalar _, _, hs, _ => by rwa [Shows] at *
  | .list _, _, hs, _ => by rwa [Shows] at *
  | .back _, _, hs, _ => by rw [Shows] at hs; exact hs.elim
  | .map es, v, hs, hv => by
    rw [Shows] at *
    obtain ⟨r, hr, rfl, he⟩ := hs
    have hN := hv r rfl
    have he' := ShowsEntries.same closed same size he (closed r hN)
    exact ⟨r, hr.trans_le size, rfl, (same r hN).symm ▸ he'⟩

theorem ShowsEntries.same (closed : ∀ r, N r → ∀ q ∈ refsOf (h.cell r), N q) (same : Same N h h')
    (size : h.size ≤ h'.size) {bound : Ref} : ∀ {es : List (Scalar × Datum)} {t : Table Value},
    h.ShowsEntries bound es t → (∀ q ∈ refsOf t, N q) → h'.ShowsEntries bound es t
  | [], _, hs, _ => by rwa [ShowsEntries] at *
  | (k, d) :: es, t, hs, ht => by
    rw [ShowsEntries] at *
    obtain ⟨v, u, rfl, hd, hv, he⟩ := hs
    refine ⟨v, u, rfl, Shows.same closed same size hd fun q hq => ?_, hv,
      ShowsEntries.same closed same size he fun q hq => ?_⟩
    · exact ht q (mem_refsOf.2 ⟨_, List.mem_cons_self, hq⟩)
    · obtain ⟨e, hm, hr⟩ := mem_refsOf.1 hq
      exact ht q (mem_refsOf.2 ⟨e, List.mem_cons_of_mem _ hm, hr⟩)

end

end Heap

namespace Context

variable {c : Context} {r : Ref}

theorem root_loadData (hr : c.root = .map r) (t : Table Datum) : (c.loadData t).root = .map r := by
  simp only [loadData, setEntries, hr]

/-- The entries that are loaded into a context look like the data. -/
theorem loadData_shows (hr : c.root = .map r) (there : r < c.heap.size) {t : Table Datum}
    (json : ∀ e ∈ t, e.2.IsJson) : (c.loadData t).heap.ShowsEntries (c.loadData t).heap.size t
      (c.loadData t).entries := by
  obtain ⟨-, shown⟩ := Heap.holdEntries_shows t c.heap (Datum.entriesJson_iff.2 json)
  obtain ⟨top, hs, news⟩ := Heap.holdEntries_atop t (.refl c.heap)
  have heap : (c.loadData t).heap =
      (c.heap.holdEntries t).1.setIfInBounds r (c.heap.holdEntries t).2 := by
    simp only [loadData, setEntries, hr]
  have entries : (c.loadData t).entries = (c.heap.holdEntries t).2 := by
    rw [Context.entries, root_loadData hr, heap]
    simp only [Heap.cell_setIfInBounds, there.trans_le hs, and_self, if_true]
  have size : (c.loadData t).heap.size = (c.heap.holdEntries t).1.size :=
    heap ▸ Array.size_setIfInBounds
  -- The new values do not refer to the cell that they are put into, which is an old one.
  have same : Heap.Same (c.heap.size ≤ ·) (c.heap.holdEntries t).1 (c.loadData t).heap :=
    fun q hq => by
      have hne : r ≠ q := (there.trans_le hq).ne
      rw [heap, Heap.cell_setIfInBounds, if_neg fun h => hne h.1]
  rw [entries, size]
  refine shown.same (fun q hq p hp => ?_) same size.ge fun q hq => (news q hq).1
  exact (top.new.closed q hq p hp).1

/-- A context into which data is loaded shows that data. -/
theorem view_loadData (hr : c.root = .map r) (there : r < c.heap.size) {t : Table Datum}
    (json : ∀ e ∈ t, e.2.IsJson) : (c.loadData t).view = .map t := by
  have held : (c.loadData t).heap.viewTable (c.loadData t).entries = t :=
    (loadData_shows hr there json).viewBelow_eq (Nat.le_succ _) (List.forall_mem_nil _)
  simp only [view, root_loadData hr, held]

theorem loadDatum_eq_none_iff (hr : c.root = .map r) {d : Datum} :
    (c.loadDatum d).2 = none ↔ d.IsEntries ∧ d.depth ≤ copyLimit := by
  rw [and_comm, ← Table.update_eq_none_iff]
  simp only [loadDatum, hr]
  split_ifs with hd
  · exact (and_iff_right hd).symm
  · exact iff_of_false id fun h => hd h.1

/-- The entries in front of the first thing that is none, unless the data is nested too deeply. -/
def taken (d : Datum) : Table Datum := if d.depth ≤ copyLimit then Table.ofList d.front else []

theorem view_loadDatum (hr : c.root = .map r) (there : r < c.heap.size) {d : Datum}
    (json : d.IsJson) : (c.loadDatum d).1.view = .map (taken d) := by
  simp only [loadDatum, hr, taken, ← Table.update_fst]
  split_ifs
  · exact view_loadData hr there (Table.json_update json)
  · exact view_loadData hr there (List.forall_mem_nil _)

end Context

/-! ## Stores -/

namespace Store

variable {d : Datum} {es : Table Datum}

/-- A store that could not be replaced to the end. Its flags are the entries that were read, its
context is too if the flags were all read, and its quests are as they were. -/
structure IsTorn (s : Store) (es : Table Datum) (s' : Store) : Prop where
  flags : s'.flags = Table.ofList (part es "flags").front
  loaded : (part es "flags").IsEntries → s'.context.view = .map (Context.taken (part es "context"))
  kept : ¬ (part es "flags").IsEntries → s'.context = s.context
  quests : s'.quests = s.quests

/-- Data that is refused leaves the store as it is. -/
theorem restoreData_refused (s : Store) (refused : d.IsRefused) :
    ∃ f, s.restoreData d = (s, some f) := by
  rcases d with _ | _ | es | _
  case map =>
    rcases hq : readQuests (part es "quests") with f | quests
    · refine ⟨f, ?_⟩
      unfold part at hq
      simp only [restoreData, hq]
    · exact absurd (readQuests_ok_iff.1 ⟨quests, hq⟩) refused
  all_goals exact ⟨_, rfl⟩

/-- Flags that stop in the middle are all that is replaced. -/
theorem restoreData_of_not_isEntries (s : Store) (accepted : (part es "quests").AreQuests)
    (flags : ¬ (part es "flags").IsEntries) : ∃ f, s.restoreData (.map es) =
      ({ s with flags := Table.ofList (part es "flags").front }, some f) := by
  obtain ⟨quests, hq⟩ := readQuests_ok_iff.2 accepted
  rw [← Table.update_eq_none_iff, ← ne_eq, Option.ne_none_iff_exists'] at flags
  obtain ⟨f, hf⟩ := flags
  have hu : Table.update [] (part es "flags") = (Table.ofList (part es "flags").front, some f) :=
    Prod.ext (Table.update_fst _) hf
  unfold part at hq hu ⊢
  exact ⟨f, by simp only [restoreData, hq, hu]⟩

/-- With all flags read, the context is replaced; the quests are only if that goes to its end. -/
theorem restoreData_of_isEntries (s : Store) (accepted : (part es "quests").AreQuests)
    (flags : (part es "flags").IsEntries) : ∃ quests, s.restoreData (.map es) =
      ({ flags := Table.ofList (part es "flags").front,
         context := (s.context.loadDatum (part es "context")).1,
         quests := if (s.context.loadDatum (part es "context")).2 = none then quests
           else s.quests },
        (s.context.loadDatum (part es "context")).2) := by
  obtain ⟨quests, hq⟩ := readQuests_ok_iff.2 accepted
  have hu : Table.update [] (part es "flags") = (Table.ofList (part es "flags").front, none) :=
    Prod.ext (Table.update_fst _) (Table.update_eq_none_iff.2 flags)
  refine ⟨quests, ?_⟩
  rcases hc : s.context.loadDatum (part es "context") with ⟨context, _ | f⟩
  · unfold part at hq hu hc ⊢
    simp only [restoreData, hq, hu, hc, if_true]
  · unfold part at hq hu hc ⊢
    simp only [restoreData, hq, hu, hc, reduceCtorEq, if_false]

/-- Data that is not refused replaces the flags at any rate. -/
theorem flags_restoreData (s : Store) (accepted : (part es "quests").AreQuests) :
    (s.restoreData (.map es)).1.flags = Table.ofList (part es "flags").front := by
  by_cases flags : (part es "flags").IsEntries
  · obtain ⟨_, he⟩ := restoreData_of_isEntries s accepted flags
    rw [he]
  · obtain ⟨_, he⟩ := restoreData_of_not_isEntries s accepted flags
    rw [he]

/-- Data that is not refused replaces a store to the end if its flags and context can be taken. -/
theorem restoreData_eq_none_iff {s : Store} {r : Ref} (hr : s.context.root = .map r)
    (accepted : ¬ d.IsRefused) : (s.restoreData d).2 = none ↔ d.Fits := by
  rcases d with _ | _ | es | _
  case map =>
    have quests : (part es "quests").AreQuests := not_not.1 accepted
    change _ ↔ (part es "flags").IsEntries ∧ _
    by_cases flags : (part es "flags").IsEntries
    · obtain ⟨_, he⟩ := restoreData_of_isEntries s quests flags
      rw [he, Context.loadDatum_eq_none_iff hr, and_iff_right flags]
    · obtain ⟨f, he⟩ := restoreData_of_not_isEntries s quests flags
      rw [he]
      exact iff_of_false (Option.some_ne_none f) fun h => flags h.1
  all_goals exact absurd trivial accepted

/-- Where it does not, the store is left half-way. -/
theorem restoreData_torn {s : Store} {r : Ref} (hr : s.context.root = .map r)
    (there : r < s.context.heap.size) (json : (part es "context").IsJson)
    (accepted : (part es "quests").AreQuests) (short : ¬ (Datum.map es).Fits) :
    s.IsTorn es (s.restoreData (.map es)).1 := by
  by_cases flags : (part es "flags").IsEntries
  · obtain ⟨quests, he⟩ := restoreData_of_isEntries s accepted flags
    have stopped : (s.context.loadDatum (part es "context")).2 ≠ none := fun h =>
      short ⟨flags, (Context.loadDatum_eq_none_iff hr).1 h⟩
    rw [he, if_neg stopped]
    exact ⟨rfl, fun _ => Context.view_loadDatum hr there json, fun h => absurd flags h, rfl⟩
  · obtain ⟨f, he⟩ := restoreData_of_not_isEntries s accepted flags
    rw [he]
    exact ⟨rfl, fun h => absurd h flags, fun _ => rfl, rfl⟩

/-- There is a store that differs in its flags from any given ones. -/
theorem exists_other_flags (flags : Table Datum) :
    ∃ s : Store, s.context.Whole ∧ s.flags ≠ flags := by
  have whole : (empty #[]).context.Whole :=
    Context.empty_whole (fun _ => Table.keyed_nil) fun _ _ hq => absurd hq List.not_mem_nil
  rcases flags with _ | ⟨e, flags⟩
  · exact ⟨(empty #[]).setFlag (.text "met") true, whole, List.cons_ne_nil _ _⟩
  · exact ⟨empty #[], whole, (List.cons_ne_nil e flags).symm⟩

/-- Data is restored all or not at all if it is refused or fits. Data that is refused leaves every
store alone, data that fits is taken by every store, and any other leaves each half-way. -/
theorem restoreData_keeps_iff (d : Datum) :
    ((∀ s : Store, s.context.Whole → (s.restoreData d).2 ≠ none →
        (s.restoreData d).1.toDatum = s.toDatum) ↔ d.IsRefused ∨ d.Fits) ∧
      ∀ s : Store, s.context.Whole →
        (d.IsRefused → (s.restoreData d).2 ≠ none ∧ (s.restoreData d).1 = s) ∧
        (¬ d.IsRefused → ((s.restoreData d).2 = none ↔ d.Fits)) ∧
        (¬ d.IsRefused → ¬ d.Fits → d.IsJson →
          ∃ es, d = .map es ∧ s.IsTorn es (s.restoreData d).1) := by
  refine ⟨⟨fun keeps => ?_, ?_⟩, fun s whole => ⟨fun refused => ?_, fun accepted => ?_,
    fun accepted short json => ?_⟩⟩
  · by_contra hn
    obtain ⟨accepted, short⟩ := not_or.1 hn
    rcases d with _ | _ | es | _
    case map =>
      obtain ⟨s, whole, hf⟩ := exists_other_flags (Table.ofList (part es "flags").front)
      obtain ⟨r, hr⟩ := whole.table
      have same := keeps s whole fun h => short ((restoreData_eq_none_iff hr accepted).1 h)
      simp only [toDatum, Datum.object, List.map_cons, Datum.map.injEq, List.cons.injEq,
        Prod.mk.injEq, true_and] at same
      exact hf (same.1.symm.trans (flags_restoreData s (not_not.1 accepted)))
    all_goals exact accepted trivial
  · rintro (refused | fits) s whole failed
    · obtain ⟨f, he⟩ := restoreData_refused s refused
      rw [he]
    · by_cases refused : d.IsRefused
      · obtain ⟨f, he⟩ := restoreData_refused s refused
        rw [he]
      · obtain ⟨r, hr⟩ := whole.table
        exact absurd ((restoreData_eq_none_iff hr refused).2 fits) failed
  · obtain ⟨f, he⟩ := restoreData_refused s refused
    rw [he]
    exact ⟨Option.some_ne_none f, rfl⟩
  · obtain ⟨r, hr⟩ := whole.table
    exact restoreData_eq_none_iff hr accepted
  · obtain ⟨r, hr⟩ := whole.table
    rcases d with _ | _ | es | _
    case map =>
      exact ⟨es, rfl, restoreData_torn hr (whole.sound.root r (by rw [hr]; rfl))
        (isJson_part json "context") (not_not.1 accepted) short⟩
    all_goals exact absurd trivial accepted

/-- A store with a flag and a value. -/
def ledger : Store :=
  ⟨[(.text "a", .bool true)], ⟨#[[(.text "x", .scalar (.int 1))]], .map 0⟩, []⟩

theorem ledger_whole : ledger.context.Whole where
  table := ⟨0, rfl⟩
  sound := {
    root := fun r hr => Option.some.inj hr ▸ Nat.zero_lt_one
    keyed := fun r => by
      rcases r with _ | r
      · exact List.pairwise_singleton _ _
      · exact Table.keyed_nil }
  tight := fun r q hq => by rcases r with _ | r <;> cases hq

/-- Data with a record of a quest that has no such status. -/
def lostErrand : Datum := .object [("flags", .object []), ("quests", .object [
  ("errand", .object [("status", .text "lost")])])]

/-- Its flags would do, but the record is read before they are, and nothing is replaced. -/
theorem restoreData_keeps_iff_lostErrand : ledger.context.Whole ∧ lostErrand.IsRefused ∧
    (ledger.restoreData lostErrand).2 ≠ none ∧
      (ledger.restoreData lostErrand).1.toDatum = ledger.toDatum := by
  have refused : lostErrand.IsRefused := fun h => by
    obtain ⟨s, hs⟩ := h _ (List.mem_singleton_self _) (.text "lost") rfl
    cases s <;> simp [Quest.Status.name] at hs
  obtain ⟨keeps, laws⟩ := restoreData_keeps_iff lostErrand
  have failed := ((laws ledger ledger_whole).1 refused).1
  exact ⟨ledger_whole, refused, failed, keeps.2 (.inl refused) ledger ledger_whole failed⟩

/-- Data whose context is a number. -/
def bareContext : Datum := .object [("context", .int 5)]

/-- It is not restored, and the store that had a flag and a value has neither of them. -/
theorem restoreData_not_atomic : bareContext.IsJson ∧ ledger.context.Whole ∧
    (ledger.restoreData bareContext).2 = some .wrongKind ∧
      ledger.toDatum = .object [("flags", .object [("a", .bool true)]),
        ("context", .object [("x", .int 1)]), ("quests", .object [])] ∧
      (ledger.restoreData bareContext).1.toDatum =
        .object [("flags", .object []), ("context", .object []), ("quests", .object [])] ∧
      (ledger.restoreData bareContext).1.toDatum ≠ ledger.toDatum := by
  refine ⟨Datum.isJson_object (by decide) ?_, ledger_whole, rfl, by decide +kernel,
    by decide +kernel, by decide +kernel⟩
  exact List.forall_mem_singleton.2 trivial

end Store

end Colloquy
