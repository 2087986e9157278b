import Colloquy.Proofs.Answered
import Colloquy.Proofs.Defects
import Colloquy.Proofs.Phrasings
import Colloquy.Proofs.Replaced
import Colloquy.Script.Given

/-!
# Conditions that are decided

The equality of two values is found out if the tables in one of them are not too deep inside each
other, whatever the other one is (`Heap.equalWithin_isSome`). What a store that is made from data
holds looks like parts of that data (`Store.get?_shows`, `Store.flag?_json`), so its context is
never too deep, and what is looked up in it fits the data (`Store.Near`). On such a store a
condition given as data is decided unless both that and the store are too deep for a comparison
(`Condition.isDecided_of_near`, `Condition.holds_decided`). Every condition can be read but for an
object with an operator that is no scalar (`Condition.ofDatum_error_iff`).
-/

namespace Colloquy

/-! ## Depths -/

namespace Datum

theorem depth_le_of_mem {es : List (Scalar × Datum)} {e : Scalar × Datum} (he : e ∈ es) :
    e.2.depth ≤ depthOfEntries es := by
  induction es with
  | nil => exact absurd he List.not_mem_nil
  | cons x es ih =>
    rw [depthOfEntries]
    rcases List.mem_cons.1 he with rfl | he
    · exact Nat.le_max_left _ _
    · exact (ih he).trans (Nat.le_max_right _ _)

theorem depth_le_of_mem_items {ds : List Datum} {d : Datum} (hd : d ∈ ds) :
    d.depth ≤ depthOfItems ds := by
  induction ds with
  | nil => exact absurd hd List.not_mem_nil
  | cons x ds ih =>
    rw [depthOfItems]
    rcases List.mem_cons.1 hd with rfl | hd
    · exact Nat.le_max_left _ _
    · exact (ih hd).trans (Nat.le_max_right _ _)

theorem depth_get? {es : Table Datum} {key : Scalar} {d : Datum} (hd : es.get? key = some d) :
    d.depth < (Datum.map es).depth := by
  obtain ⟨k, he⟩ := Table.mem_of_get? hd
  rw [depth]
  exact Nat.lt_succ_of_le (depth_le_of_mem he)

theorem depth_field (es : Table Datum) (name : String) :
    (es.field name).depth ≤ (Datum.map es).depth := by
  unfold Table.field
  rcases hd : es.get? (.text name) with _ | d
  · exact Nat.zero_le _
  · exact (depth_get? hd).le

theorem IsEntry.depth_le {d : Datum} {e : Scalar × Datum} (he : d.IsEntry e) :
    e.2.depth ≤ d.depth := by
  rcases he with ⟨k, d⟩ | _ | _
  · simp only [depth, depthOfItems]
    omega
  · exact Nat.zero_le _
  · exact Nat.zero_le _

theorem exists_of_mem_frontOf {ds : List Datum} {e : Scalar × Datum} (he : e ∈ frontOf ds) :
    ∃ d ∈ ds, d.IsEntry e := by
  induction ds with
  | nil => exact absurd he List.not_mem_nil
  | cons d ds ih =>
    rcases hp : pairOf? d with f | x
    · rw [frontOf_cons_error hp] at he
      exact absurd he List.not_mem_nil
    · rw [frontOf_cons_ok hp] at he
      rcases List.mem_cons.1 he with rfl | he
      · exact ⟨d, List.mem_cons_self, pairOf?_eq_ok_iff.1 hp⟩
      · obtain ⟨d', hd, hx⟩ := ih he
        exact ⟨d', List.mem_cons_of_mem _ hd, hx⟩

theorem depth_front {d : Datum} {e : Scalar × Datum} (he : e ∈ d.front) : e.2.depth ≤ d.depth := by
  cases d with
  | map es => exact (depth_le_of_mem he).trans (Nat.le_succ _)
  | list ds =>
    obtain ⟨x, hx, hxe⟩ := exists_of_mem_frontOf he
    exact hxe.depth_le.trans ((depth_le_of_mem_items hx).trans (Nat.le_succ _))
  | scalar | back => exact absurd he List.not_mem_nil

end Datum

/-- The entries of a table are nested no deeper than the data that they are taken from. -/
theorem Table.depth_update {d : Datum} {e : Scalar × Datum} (he : e ∈ (update [] d).1) :
    e.2.depth ≤ d.depth := by
  rw [update_fst] at he
  rcases mem_putAll he with he | ⟨x, hx, heq⟩
  · exact absurd he List.not_mem_nil
  · exact heq ▸ Datum.depth_front hx

theorem Store.depth_part (es : Table Datum) (name : String) :
    (part es name).depth ≤ (Datum.map es).depth := by
  unfold part
  rcases hd : Table.get? es (.text name) with _ | d
  · exact Nat.succ_le_succ (Nat.zero_le _)
  · exact (Datum.depth_get? hd).le

/-! ## Equality -/

theorem List.allM_isSome {α : Type} {p : α → Option Bool} {l : List α}
    (h : ∀ a ∈ l, (p a).isSome) : (l.allM p).isSome := by
  induction l with
  | nil => rfl
  | cons a l ih =>
    rw [List.forall_mem_cons] at h
    obtain ⟨b, hb⟩ := Option.isSome_iff_exists.1 h.1
    simp only [List.allM, hb, Option.bind_eq_bind, Option.bind_some]
    cases b
    · rfl
    · exact ih h.2

namespace Heap

variable {h : Heap}

/-- The tables in a value are inside each other at most so many times. -/
def Shallow (h : Heap) : ℕ → Value → Prop
  | 0, v => v.ref? = none
  | n + 1, v => ∀ r, v.ref? = some r → ∀ e ∈ h.cell r, h.Shallow n e.2

/-- Lists and tables in a value are inside each other at most so many times. -/
def Fits (h : Heap) : ℕ → Value → Prop
  | _, .scalar _ => True
  | n, .list ds => (Datum.list ds).depth ≤ n
  | 0, .map _ => False
  | n + 1, .map r => ∀ e ∈ h.cell r, h.Fits n e.2

theorem Fits.shallow {n : ℕ} {v : Value} (hv : h.Fits n v) : h.Shallow n v := by
  induction n generalizing v with
  | zero =>
    cases v with
    | scalar | list => rfl
    | map r => exact hv.elim
  | succ n ih =>
    intro r hr e he
    cases v with
    | scalar | list => cases hr
    | map q =>
      obtain rfl : q = r := Option.some.inj hr
      exact ih (hv e he)

mutual

/-- A value goes as deep as the data that it looks like. -/
theorem Shows.fits : ∀ {d : Datum} {v : Value} {n : ℕ}, h.Shows d v → d.depth ≤ n → h.Fits n v
  | .scalar _, v, n, hs, _ => by
    rw [Shows] at hs
    subst hs
    cases n <;> trivial
  | .list _, v, n, hs, hd => by
    rw [Shows] at hs
    subst hs
    cases n <;> exact hd
  | .back _, _, _, hs, _ => by rw [Shows] at hs; exact hs.elim
  | .map es, v, n, hs, hd => by
    rw [Shows] at hs
    rw [Datum.depth] at hd
    obtain ⟨r, -, rfl, he⟩ := hs
    obtain ⟨n, rfl⟩ : ∃ m, n = m + 1 := ⟨n - 1, by omega⟩
    exact ShowsEntries.fits he (Nat.le_of_succ_le_succ hd)

theorem ShowsEntries.fits {bound : Ref} : ∀ {es : List (Scalar × Datum)} {t : Table Value}
    {n : ℕ}, h.ShowsEntries bound es t → Datum.depthOfEntries es ≤ n → ∀ e ∈ t, h.Fits n e.2
  | [], _, _, hs, _ => by
    rw [ShowsEntries] at hs
    exact hs ▸ List.forall_mem_nil _
  | (k, d) :: es, t, n, hs, hd => by
    rw [ShowsEntries] at hs
    rw [Datum.depthOfEntries] at hd
    obtain ⟨v, u, rfl, hv, -, he⟩ := hs
    exact List.forall_mem_cons.2 ⟨Shows.fits hv ((Nat.le_max_left _ _).trans hd),
      ShowsEntries.fits he ((Nat.le_max_right _ _).trans hd)⟩

end

theorem Shows.shallow {d : Datum} {v : Value} {n : ℕ} (hs : h.Shows d v) (hd : d.depth ≤ n) :
    h.Shallow n v :=
  (hs.fits hd).shallow

/-- The equality of two values is found out within the depth of one of them. -/
theorem equalWithin_isSome {n : ℕ} {a b : Value} (ha : h.Shallow n a ∨ h.Shallow n b) :
    (h.equalWithin n a b).isSome := by
  induction n generalizing a b with
  | zero =>
    cases a with
    | map r =>
      cases b with
      | map q => exact absurd ha (by simp [Shallow, Value.ref?])
      | scalar | list => rfl
    | scalar | list => cases b <;> rfl
  | succ n ih =>
    cases a with
    | map r =>
      cases b with
      | map q =>
        rw [equalWithin]
        split_ifs
        · -- The sides change places in the cells.
          refine List.allM_isSome fun e he => ?_
          dsimp only
          rcases hw : (h.cell q).get? e.1 with _ | w
          · rfl
          by_cases hv : w = e.2
          · simp only [if_pos hv, Option.isSome_some]
          · simp only [if_neg hv]
            obtain ⟨k, hm⟩ := Table.mem_of_get? hw
            exact ih (ha.elim (fun ha => .inr (ha r rfl e he)) fun hb => .inl (hb q rfl _ hm))
        · rfl
      | scalar | list => rfl
    | scalar | list => cases b <;> rfl

theorem shows_scalar (h : Heap) (a : Scalar) : h.Shows (.scalar a) (.scalar a) := by
  rw [Shows]

theorem ShowsEntries.exists_of_mem {bound : Ref} : ∀ {es : List (Scalar × Datum)}
    {t : Table Value} {e : Scalar × Value}, h.ShowsEntries bound es t → e ∈ t →
      ∃ d, (e.1, d) ∈ es ∧ h.Shows d e.2 := by
  intro es
  induction es with
  | nil =>
    intro t e hs he
    rw [ShowsEntries] at hs
    exact absurd (hs ▸ he) List.not_mem_nil
  | cons x es ih =>
    intro t e hs he
    rw [ShowsEntries] at hs
    obtain ⟨v, u, rfl, hv, -, hu⟩ := hs
    rcases List.mem_cons.1 he with rfl | he
    · exact ⟨x.2, List.mem_cons_self, hv⟩
    · obtain ⟨d, hd, hs⟩ := ih hu he
      exact ⟨d, List.mem_cons_of_mem _ hd, hs⟩

end Heap

/-- What is read inside a value is a part of the data that the value looks like. -/
theorem Context.walk_shows {h : Heap} {p : Path} {v w : Value} {d : Datum} (hd : h.Shows d v)
    (hw : walk h v p = some w) : ∃ e, h.Shows e w ∧ e.depth ≤ d.depth := by
  induction p generalizing v d with
  | nil =>
    obtain rfl : v = w := Option.some.inj hw
    exact ⟨d, hd, le_rfl⟩
  | cons key p ih =>
    cases v with
    | map r =>
      rw [walk] at hw
      rcases hg : (h.cell r).get? (.text key) with _ | u
      · rw [hg] at hw
        cases hw
      · rw [hg] at hw
        cases d with
        | map es =>
          rw [Heap.Shows] at hd
          obtain ⟨q, -, hq, he⟩ := hd
          cases hq
          obtain ⟨k, hm⟩ := Table.mem_of_get? hg
          obtain ⟨e, hm, hs⟩ := he.exists_of_mem hm
          obtain ⟨x, hx, hle⟩ := ih hs hw
          exact ⟨x, hx, hle.trans ((Datum.depth_le_of_mem hm).trans (Nat.le_succ _))⟩
        | scalar | list =>
          rw [Heap.Shows] at hd
          cases hd
        | back =>
          rw [Heap.Shows] at hd
          exact hd.elim
    | scalar | list => cases hw

/-! ## Stores that are made from data -/

namespace Store

variable {h : Heap} {d : Datum} {s : Store}

/-- The entries of the context look like data that can be copied. -/
theorem entries_shows (json : d.IsJson) (made : ofDatum h d = .ok s) : ∃ t : Table Datum,
    (∀ e ∈ t, e.2.depth ≤ Context.copyLimit) ∧
      s.context.heap.ShowsEntries s.context.heap.size t s.context.entries := by
  obtain ⟨es, rfl, -, -, hc⟩ := ofDatum_parts made
  have near := (Context.loadDatum_eq_none_iff rfl).1 (congrArg Prod.snd hc)
  have loaded : (empty h).context.loadData (Table.update [] (part es "context")).1 =
      s.context := by
    have he := congrArg Prod.fst hc
    rwa [show (empty h).context = Context.empty h from rfl, Context.loadDatum_empty,
      if_pos near.2] at he
  refine ⟨_, fun e he => (Table.depth_update he).trans near.2, ?_⟩
  have shown := Context.loadData_shows (c := (empty h).context) rfl (Context.empty_loose h).2.1
    (Table.json_update (isJson_part json "context"))
  rwa [loaded] at shown

theorem get?_shows (json : d.IsJson) (made : ofDatum h d = .ok s) {path : String} {v : Value}
    (hv : s.get? path = some v) :
    ∃ e, s.context.heap.Shows e v ∧ e.depth ≤ Context.copyLimit := by
  obtain ⟨t, near, shown⟩ := entries_shows json made
  obtain ⟨r, hr, -⟩ := ofDatum_forest made
  obtain ⟨key, p, hp⟩ := List.exists_cons_of_ne_nil (Path.split_ne_nil path)
  rw [get?, Context.get?, hp, hr, Context.walk] at hv
  rw [Context.entries, hr] at shown
  rcases hg : (s.context.heap.cell r).get? (.text key) with _ | u
  · rw [hg] at hv
    cases hv
  · rw [hg] at hv
    obtain ⟨k, hm⟩ := Table.mem_of_get? hg
    obtain ⟨x, hx, hs⟩ := shown.exists_of_mem hm
    obtain ⟨e, he, hle⟩ := Context.walk_shows hs hv
    exact ⟨e, he, hle.trans (near _ hx)⟩

/-- A flag is a part of the data, and it is not looked at how deeply that is nested. -/
theorem flag?_json (json : d.IsJson) (made : ofDatum h d = .ok s) {key : Scalar} {f : Datum}
    (hf : s.flag? key = some f) : f.IsJson ∧ f.depth ≤ d.depth := by
  obtain ⟨es, rfl, -, hu, -⟩ := ofDatum_parts made
  obtain ⟨k, hm⟩ := Table.mem_of_get? hf
  have hm' : (k, f) ∈ (Table.update [] (part es "flags")).1 := by rwa [hu]
  exact ⟨Table.json_update (isJson_part json "flags") _ hm',
    (Table.depth_update hm').trans (depth_part es "flags")⟩

/-- What a store holds looks like data: what is in the context can be copied, and flags are nested
so deeply at most. -/
structure Near (s : Store) (deepest : ℕ) : Prop where
  context : ∀ {path v}, s.get? path = some v →
    ∃ e, s.context.heap.Shows e v ∧ e.depth ≤ Context.copyLimit
  flags : ∀ {key f}, s.flag? key = some f → f.IsJson ∧ f.depth ≤ deepest

theorem ofDatum_near (json : d.IsJson) (made : ofDatum h d = .ok s) : s.Near d.depth :=
  ⟨get?_shows json made, flag?_json json made⟩

end Store

/-! ## Conditions that are read -/

section conditions
variable [Text.Halves]

/-- A condition as an object that has a type and a key, and an operator that is no scalar. -/
def Datum.HasStrayOperator : Datum → Prop
  | .map es => (∃ space : Space, Table.field es "type" = .text space.name) ∧
      (∃ key ≠ "", Table.field es "key" = .text key) ∧
        ∀ op, Table.field es "operator" ≠ .scalar op
  | _ => False

omit [Text.Halves] in
theorem Space.ofDatum?_eq_some_iff {d : Datum} {space : Space} :
    ofDatum? d = some space ↔ d = .text space.name := by
  constructor
  · intro h
    unfold ofDatum? at h
    split at h
    case h_4 => cases h
    all_goals
      cases h
      rfl
  · rintro rfl
    exact ofDatum?_name space

namespace Condition

/-- All data is read as a condition but an object with an operator that is no scalar. -/
theorem ofDatum_error_iff {raw : Datum} {f : Fault} :
    ofDatum raw = .error f ↔ f = .wrongKind ∧ raw.HasStrayOperator := by
  cases raw with
  | map es =>
    change ofTable es = .error f ↔ _ ∧ (∃ space : Space, _ = _) ∧ (∃ key ≠ "", _ = _) ∧ _
    by_cases stray : ∀ op, Table.field es "operator" ≠ .scalar op
    · simp only [ofTable, ← Space.ofDatum?_eq_some_iff]
      rcases Space.ofDatum? (Table.field es "type") with _ | space
      · simp
      rcases Table.field es "key" with (_ | _ | _ | _ | key) | _ | _ | _
      case scalar.text =>
        by_cases hk : key = ""
        · simp [hk]
        rcases ho : Table.field es "operator" with op | _ | _ | _
        · exact absurd ho (stray op)
        all_goals simp [hk, eq_comm]
      all_goals simp
    · exact iff_of_false (fun h => stray (ofTable_error h).2) fun h => stray h.2.2.2
  | scalar a => cases a <;> simp [ofDatum, Datum.HasStrayOperator]
  | list | back => simp [ofDatum, Datum.HasStrayOperator]

/-- The data that an object condition tests a value against. -/
def tested? : Condition → Option Datum
  | .check _ _ _ value => some value
  | _ => none

omit [Text.Halves] in
theorem tested?_reference (source : String) {make : String → Condition}
    (h : ∀ key, (make key).tested? = none) (key : List Char) :
    (reference source make key).tested? = none := by
  unfold reference
  split
  · rfl
  · exact h _

omit [Text.Halves] in
theorem tested?_referenceIn (space : Space) (key : String) :
    (referenceIn space key).tested? = none := by
  cases space <;> rfl

omit [Text.Halves] in
theorem tested?_compared (source : String) (sign : Sign) (cs : List Char) :
    (compared source sign cs).tested? = none := by
  unfold compared
  dsimp only
  split_ifs
  · rfl
  · rfl

omit [Text.Halves] in
theorem tested?_ofText (source : String) : (ofText source).tested? = none := by
  unfold ofText
  dsimp only
  by_cases empty : Text.strip source.toList = []
  · rw [if_pos empty]
    rfl
  rw [if_neg empty]
  rcases findSign (Text.strip source.toList) with _ | sign
  · rcases Text.after? Space.flag.lead (Text.strip source.toList) with _ | key
    · rcases Text.after? Space.context.lead (Text.strip source.toList) with _ | key
      · rcases Text.after? Space.quest.lead (Text.strip source.toList) with _ | key
        · dsimp only
          split_ifs <;> rfl
        · exact tested?_reference source (fun _ => rfl) key
      · exact tested?_reference source (fun _ => rfl) key
    · exact tested?_reference source (fun _ => rfl) key
  · exact tested?_compared source sign _

/-- What an object condition tests a value against stands in the object. -/
theorem tested?_ofDatum {raw value : Datum} {c : Condition} (h : ofDatum raw = .ok c)
    (hv : c.tested? = some value) : ∃ es, raw = .map es ∧ value = Table.field es "value" := by
  cases raw with
  | map es =>
    refine ⟨es, rfl, ?_⟩
    change ofTable es = .ok c at h
    simp only [ofTable] at h
    split at h
    · cases h
      cases hv
    split at h
    · split_ifs at h
      · cases h
        cases hv
      split at h
      · cases h
        rw [tested?_referenceIn] at hv
        cases hv
      · split at h
        · cases h
          exact (Option.some.inj hv).symm
        · cases h
          cases hv
      · cases h
    · cases h
      cases hv
  | scalar a =>
    cases a with
    | text s =>
      obtain rfl : ofText s = c := Except.ok.inj h
      rw [tested?_ofText] at hv
      cases hv
    | null | bool | int | float =>
      cases h
      cases hv
  | list | back =>
    cases h
    cases hv

end Condition

/-! ## Conditions on a store -/

section stores

variable {h : Heap} {d : Datum} {s : Store} {n : ℕ}

omit [Text.Halves] in
/-- The value of an operand looks like data that can be copied. -/
theorem Operand.resolve_shows (near : s.Near n) {o : Operand} {a : Value}
    (ha : o.resolve s = some a) : ∃ e, s.context.heap.Shows e a ∧ e.depth ≤ Context.copyLimit := by
  cases o with
  | flag key =>
    obtain rfl := Option.some.inj ha
    exact ⟨_, Heap.shows_scalar _ _, Nat.zero_le _⟩
  | context path => exact near.context ha
  | quest key =>
    obtain ⟨q, -, rfl⟩ := Option.map_eq_some_iff.1 ha
    exact ⟨_, Heap.shows_scalar _ _, Nat.zero_le _⟩
  | literal v =>
    obtain rfl := Option.some.inj ha
    exact ⟨_, Heap.shows_scalar _ _, Nat.zero_le _⟩

omit [Text.Halves] in
theorem Heap.hold_extends (h : Heap) (d : Datum) : h.Extends (h.hold d).1 :=
  have top := (hold_atop d (.refl h)).1
  ⟨top.size_le, fun r hr => top.old r hr⟩

namespace Condition

omit [Text.Halves] in
/-- So does what is looked up for an object condition, but for a flag that is given as a table. -/
theorem actual_shows (near : s.Near n) {space : Space} {key : String} {g : Heap} {a : Value}
    (ha : actual s space key = some (g, a)) :
    ∃ e, g.Shows e a ∧ (e.depth ≤ Context.copyLimit ∨ e.depth ≤ n) := by
  cases space with
  | flag =>
    obtain ⟨f, hf, he⟩ := Option.map_eq_some_iff.1 ha
    obtain ⟨hj, hd⟩ := near.flags hf
    obtain ⟨-, shown, -⟩ := Heap.hold_shows f s.context.heap hj
    rw [he] at shown
    exact ⟨f, shown, .inr hd⟩
  | context =>
    obtain ⟨v, hv, he⟩ := Option.map_eq_some_iff.1 ha
    cases he
    obtain ⟨e, shown, hd⟩ := near.context hv
    exact ⟨e, shown, .inl hd⟩
  | quest =>
    obtain ⟨q, -, he⟩ := Option.map_eq_some_iff.1 ha
    cases he
    exact ⟨_, Heap.shows_scalar _ _, .inl (Nat.zero_le _)⟩

omit [Text.Halves] in
/-- A comparison goes deeper than a copy. -/
theorem copyLimit_le : Context.copyLimit ≤ Heap.depthLimit := by decide

omit [Text.Halves] in
/-- What a condition equates is found out unless both the flags and what it tests a value against
are too deep. -/
theorem isDecided_of_near (near : s.Near n) {c : Condition} (shallow : n ≤ Heap.depthLimit ∨
    ∀ value, c.tested? = some value → value.IsJson ∧ value.depth ≤ Heap.depthLimit) :
    c.isDecided s = true := by
  rw [isDecided, Option.all_eq_true]
  rintro ⟨g, a, b⟩ he
  cases c with
  | comparison left sign right =>
    simp only [equated?] at he
    split_ifs at he
    obtain ⟨a', ha, he⟩ := Option.bind_eq_some_iff.1 he
    obtain ⟨b', hb, he⟩ := Option.map_eq_some_iff.1 he
    cases he
    obtain ⟨x, hx, hd⟩ := Operand.resolve_shows near ha
    exact Heap.equalWithin_isSome (.inl (hx.shallow (hd.trans copyLimit_le)))
  | check space key test value =>
    cases test with
    | relation r =>
      simp only [equated?] at he
      split_ifs at he
      obtain ⟨⟨g', a'⟩, ha, he⟩ := Option.map_eq_some_iff.1 he
      cases he
      obtain ⟨x, hx, hd⟩ := actual_shows near ha
      have held := hx.mono (Heap.hold_extends g' value)
      rcases hd with hd | hd
      · exact Heap.equalWithin_isSome (.inl (held.shallow (hd.trans copyLimit_le)))
      rcases shallow with hn | tested
      · exact Heap.equalWithin_isSome (.inl (held.shallow (hd.trans hn)))
      · obtain ⟨json, hv⟩ := tested value rfl
        obtain ⟨-, shown, -⟩ := Heap.hold_shows value g' json
        exact Heap.equalWithin_isSome (.inr (shown.shallow hv))
    | has => cases he
  | flag | context | quest | literal | malformed => cases he

/-- A condition that is read has an answer, unless it and the store are both nested more deeply
than a comparison goes. -/
theorem holds_decided (json : d.IsJson) (made : Store.ofDatum h d = .ok s) {raw : Datum}
    (json' : raw.IsJson) {c : Condition} (hc : ofDatum raw = .ok c) :
    (∃ b, c.holds s = .ok b) ∨ c.holds s = .error .tooDeep ∧
      Heap.depthLimit < raw.depth ∧ Heap.depthLimit < d.depth := by
  have decided : raw.depth ≤ Heap.depthLimit ∨ d.depth ≤ Heap.depthLimit →
      c.isDecided s = true := by
    refine fun near => isDecided_of_near (Store.ofDatum_near json made) (near.symm.imp_right ?_)
    intro hd value hv
    obtain ⟨es, rfl, rfl⟩ := tested?_ofDatum hc hv
    rw [Datum.IsJson] at json'
    exact ⟨Datum.isJson_field json'.2.2 "value", (Datum.depth_field es "value").trans hd⟩
  rw [← holds_isOk] at decided
  rcases hh : c.holds s with f | b
  · obtain rfl := holds_error hh
    rw [hh] at decided
    have deep := not_or.1 fun near => Bool.false_ne_true (decided near)
    exact .inr ⟨rfl, Nat.lt_of_not_le deep.1, Nat.lt_of_not_le deep.2⟩
  · exact .inl ⟨b, rfl⟩

end Condition
end stores

end conditions

namespace World

attribute [local instance] Text.noHalves

/-- A store with a flag that is no truth value. -/
def oddFlag : Datum := .object [("flags", .object [("met", .object [("by", .text "night")])])]

/-- An object condition on that flag. -/
def onMet (operator : Datum) : Datum := .object [("type", .text "flag"), ("key", .text "met"),
  ("operator", operator), ("value", .object [("by", .text "night")])]

theorem oddFlag_json : oddFlag.IsJson := by
  refine Datum.isJson_object (by simp) (List.forall_mem_singleton.2 ?_)
  refine Datum.isJson_object (by simp) (List.forall_mem_singleton.2 ?_)
  exact Datum.isJson_object (by simp) (List.forall_mem_singleton.2 trivial)

theorem onMet_json {operator : Datum} (json : operator.IsJson) : (onMet operator).IsJson := by
  have value : (Datum.object [("by", .text "night")]).IsJson :=
    Datum.isJson_object (by simp) (List.forall_mem_singleton.2 trivial)
  refine Datum.isJson_object (by simp) ?_
  simp only [List.forall_mem_cons]
  exact ⟨trivial, trivial, json, value, List.forall_mem_nil _⟩

end World

end Colloquy
