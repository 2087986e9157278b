import Colloquy.Proofs.Decided

/-!
# How comparisons fit together

Two tables without alike keys are matched from either side if they are from one
(`Table.matched_symm`), so what is found to be equal is found to be so the other way round, however
deep it is (`Heap.equalWithin_symm`); stores that are made from data have no alike keys
(`Store.ofDatum_allKeyed`). Where one side comes to no answer, though, the other may still find that
the values differ: tables are looked through in the order of the side that is asked
(`Heap.equalWithin_holders`). The orders of a pair of values are those of two numbers or of two
texts, or there is none (`Value.AreOrdered`), and of numbers other than NaN and of texts just one is
before the other or they are the same (`Number.le_eq_not_lt`, `Text.notAfter_eq`). Equality takes
two texts as they are, and order takes them for the numbers that they spell (`Value.AreSpellings`).
-/

namespace Colloquy

/-! ## Tables that match -/

namespace Table

variable {α : Type}

theorem exists_of_get? {key : Scalar} {a : α} : ∀ {t : Table α}, t.get? key = some a →
    ∃ e ∈ t, e.1.alike key = true ∧ e.2 = a
  | e :: t, h => by
    rw [get?] at h
    split_ifs at h with hk
    · exact ⟨e, List.mem_cons_self, hk, Option.some.inj h⟩
    · obtain ⟨e', he, found⟩ := exists_of_get? h
      exact ⟨e', List.mem_cons_of_mem _ he, found⟩

theorem get?_of_mem {t : Table α} (keyed : t.Keyed) {e : Scalar × α} {key : Scalar} (he : e ∈ t)
    (hk : e.1.alike key = true) : t.get? key = some e.2 := by
  induction t with
  | nil => exact absurd he List.not_mem_nil
  | cons x t ih =>
    obtain ⟨apart, keyed⟩ := List.pairwise_cons.1 keyed
    rcases List.mem_cons.1 he with rfl | he
    · exact if_pos hk
    · -- the key is like that of an entry further on, so it is not like the first
      have other : x.1.alike key ≠ true := fun hx => by
        have hxe := Scalar.alike_trans hx (Scalar.alike_comm e.1 key ▸ hk)
        rw [apart e.1 (List.mem_map_of_mem he)] at hxe
        cases hxe
      rw [get?, if_neg other]
      exact ih keyed he

theorem eq_of_alike {t : Table α} (keyed : t.Keyed) {i j : Fin t.length}
    (h : (t[i]).1.alike (t[j]).1 = true) : i = j := by
  have apart : ∀ {i j : Fin t.length}, i < j → (t[i]).1.alike (t[j]).1 = false := by
    intro i j hij
    have hp := List.pairwise_iff_getElem.1 keyed i j (by simp) (by simp) hij
    simpa using hp
  rcases lt_trichotomy i j with hlt | heq | hlt
  · rw [apart hlt] at h
    cases h
  · exact heq
  · rw [Scalar.alike_comm, apart hlt] at h
    cases h

/-- If each entry of one table has its match in another one that is no longer, then so has each
entry of the other one. -/
theorem matched_symm {t u : Table α} (ht : t.Keyed) (hl : t.length = u.length)
    {R : α → α → Prop} (h : ∀ e ∈ t, ∃ b, u.get? e.1 = some b ∧ R e.2 b) :
    ∀ e ∈ u, ∃ a, t.get? e.1 = some a ∧ R a e.2 := by
  have place : ∀ i : Fin t.length, ∃ j : Fin u.length,
      (u[j]).1.alike (t[i]).1 = true ∧ R (t[i]).2 (u[j]).2 := by
    intro i
    obtain ⟨b, hb, hR⟩ := h t[i] (List.getElem_mem _)
    obtain ⟨e, he, hk, rfl⟩ := exists_of_get? hb
    obtain ⟨j, hj, rfl⟩ := List.mem_iff_getElem.1 he
    exact ⟨⟨j, hj⟩, hk, hR⟩
  choose f hf using place
  have injective : Function.Injective f := fun i i' hi => by
    refine eq_of_alike ht (Scalar.alike_trans (Scalar.alike_comm _ _ ▸ (hf i).1) ?_)
    rw [hi]
    exact (hf i').1
  -- as many places as there are entries to be matched with
  have surjective : Function.Surjective f :=
    ((Fintype.bijective_iff_injective_and_card f).2 ⟨injective, by simpa using hl⟩).2
  intro e he
  obtain ⟨j, hj, rfl⟩ := List.mem_iff_getElem.1 he
  obtain ⟨i, hi⟩ := surjective ⟨j, hj⟩
  obtain ⟨hk, hR⟩ := hf i
  rw [hi] at hk hR
  exact ⟨(t[i]).2, get?_of_mem ht (List.getElem_mem _) (Scalar.alike_comm _ _ ▸ hk), hR⟩

end Table

/-! ## Equality from either side -/

namespace Datum

theorem alikeEntries_iff {fs : Table Datum} {es : List (Scalar × Datum)} :
    alikeEntries es fs = true ↔ ∀ e ∈ es, ∃ y, fs.get? e.1 = some y ∧ e.2.alike y = true := by
  induction es with
  | nil => simp [alikeEntries]
  | cons e es ih =>
    rw [alikeEntries, Bool.and_eq_true, ih, List.forall_mem_cons]
    refine and_congr_left' ?_
    cases fs.get? e.1 <;> simp

mutual

theorem alike_symm : ∀ {d e : Datum}, d.Keyed → e.Keyed → d.alike e = true → e.alike d = true
  | .scalar a, .scalar b, _, _, h => by rwa [alike, Scalar.alike_comm]
  | .list xs, .list ys, hd, he, h => by
    rw [Keyed] at hd he
    rw [alike] at h ⊢
    exact alikeItems_symm hd he h
  | .map es, .map fs, hd, he, h => by
    rw [Keyed] at hd he
    rw [alike, Bool.and_eq_true, beq_iff_eq, alikeEntries_iff] at h ⊢
    obtain ⟨hl, h⟩ := h
    refine ⟨hl.symm, Table.matched_symm (R := fun x y => y.alike x = true) hd.1 hl fun e hm => ?_⟩
    obtain ⟨y, hy, ha⟩ := h e hm
    exact ⟨y, hy, entriesAlike_symm hd.2 e hm (Table.keyed_of_get? he.2 hy) ha⟩
  | .back m, .back n, _, _, h => by
    rw [alike, beq_iff_eq] at *
    exact h.symm
  | .scalar _, .list _, _, _, h | .scalar _, .map _, _, _, h | .scalar _, .back _, _, _, h
  | .list _, .scalar _, _, _, h | .list _, .map _, _, _, h | .list _, .back _, _, _, h
  | .map _, .scalar _, _, _, h | .map _, .list _, _, _, h | .map _, .back _, _, _, h
  | .back _, .scalar _, _, _, h | .back _, .list _, _, _, h | .back _, .map _, _, _, h => by
    simp [alike] at h

theorem alikeItems_symm : ∀ {xs ys : List Datum}, ItemsKeyed xs → ItemsKeyed ys →
    alikeItems xs ys = true → alikeItems ys xs = true
  | [], [], _, _, _ => rfl
  | x :: xs, y :: ys, hx, hy, h => by
    rw [alikeItems, Bool.and_eq_true] at h ⊢
    exact ⟨alike_symm hx.1 hy.1 h.1, alikeItems_symm hx.2 hy.2 h.2⟩
  | [], _ :: _, _, _, h | _ :: _, [], _, _, h => by simp [alikeItems] at h

theorem entriesAlike_symm : ∀ {es : List (Scalar × Datum)}, EntriesKeyed es → ∀ e ∈ es,
    ∀ {y : Datum}, y.Keyed → e.2.alike y = true → y.alike e.2 = true
  | [], _ => List.forall_mem_nil _
  | (_, _) :: _, hk => List.forall_mem_cons.2
    ⟨fun hy h => alike_symm hk.1 hy h, entriesAlike_symm hk.2⟩

end

theorem alikeItems_comm {xs ys : List Datum} (hx : ItemsKeyed xs) (hy : ItemsKeyed ys) :
    alikeItems xs ys = alikeItems ys xs :=
  Bool.eq_iff_iff.2 ⟨alikeItems_symm hx hy, alikeItems_symm hy hx⟩

end Datum

theorem List.allM_eq_some_true {α : Type} {p : α → Option Bool} {l : List α} :
    l.allM p = some true ↔ ∀ a ∈ l, p a = some true := by
  induction l with
  | nil => simp [List.allM]
  | cons a l ih =>
    rw [List.forall_mem_cons, ← ih, List.allM]
    rcases p a with _ | _ | _ <;> simp

/-! ## Heaps without alike keys -/

/-- No two keys of a table that stands in a list are alike. -/
def Value.Keyed : Value → Prop
  | .list ds => Datum.ItemsKeyed ds
  | _ => True

/-- No two keys of a table are alike, of those that are cells and of those in lists in them. -/
structure Heap.AllKeyed (h : Heap) : Prop where
  cells : h.Keyed
  values : ∀ r, ∀ e ∈ h.cell r, e.2.Keyed

namespace Heap

theorem allKeyed_iff {h : Heap} : h.AllKeyed ↔ ∀ t ∈ h, t.Keyed ∧ ∀ e ∈ t, e.2.Keyed := by
  constructor
  · intro keyed t ht
    obtain ⟨r, hr, rfl⟩ := Array.mem_iff_getElem.1 ht
    have hc : h.cell r = h[r] := by rw [cell, Array.getElem?_eq_getElem hr, Option.getD_some]
    exact ⟨hc ▸ keyed.cells r, hc ▸ keyed.values r⟩
  · intro keyed
    have cell : ∀ r, (h.cell r).Keyed ∧ ∀ e ∈ h.cell r, e.2.Keyed := by
      intro r
      rw [Heap.cell]
      rcases ht : h[r]? with _ | t
      · exact ⟨Table.keyed_nil, List.forall_mem_nil _⟩
      · exact keyed t (Array.mem_of_getElem? ht)
    exact ⟨fun r => (cell r).1, fun r => (cell r).2⟩

namespace AllKeyed

variable {h : Heap} {t : Table Value}

theorem alloc (keyed : h.AllKeyed) (ht : t.Keyed) (he : ∀ e ∈ t, e.2.Keyed) :
    (h.alloc t).1.AllKeyed := by
  rw [allKeyed_iff] at *
  intro u hu
  rcases Array.mem_push.1 hu with hu | rfl
  · exact keyed u hu
  · exact ⟨ht, he⟩

theorem setIfInBounds (keyed : h.AllKeyed) (r : Ref) (ht : t.Keyed) (he : ∀ e ∈ t, e.2.Keyed) :
    Heap.AllKeyed (h.setIfInBounds r t) := by
  refine ⟨keyed_setIfInBounds keyed.cells r ht, fun q e hm => ?_⟩
  rw [cell_setIfInBounds] at hm
  split_ifs at hm
  · exact he e hm
  · exact keyed.values q e hm

theorem putField (keyed : h.AllKeyed) (r : Ref) (name : String) {v : Value} (hv : v.Keyed) :
    (h.putField r name v).AllKeyed := by
  refine keyed.setIfInBounds r (Table.keyed_put (keyed.cells r) _ _) fun e he => ?_
  rcases Table.mem_put he with he | rfl
  · exact keyed.values r e he
  · exact hv

mutual

theorem hold : ∀ {d : Datum} {h : Heap}, h.AllKeyed → d.Keyed →
    (h.hold d).1.AllKeyed ∧ (h.hold d).2.Keyed
  | .scalar _, _, keyed, _ => ⟨keyed, trivial⟩
  | .back _, _, keyed, _ => ⟨keyed, trivial⟩
  | .list _, _, keyed, hd => ⟨keyed, hd⟩
  | .map es, h, keyed, hd => by
    rw [Datum.Keyed] at hd
    simp only [Heap.hold]
    obtain ⟨held, values⟩ := holdEntries keyed hd.2
    exact ⟨held.alloc (Table.keyed_congr (keys_holdEntries es h).symm hd.1) values, trivial⟩

theorem holdEntries : ∀ {es : List (Scalar × Datum)} {h : Heap}, h.AllKeyed →
    Datum.EntriesKeyed es →
      (h.holdEntries es).1.AllKeyed ∧ ∀ e ∈ (h.holdEntries es).2, e.2.Keyed
  | [], _, keyed, _ => ⟨keyed, List.forall_mem_nil _⟩
  | (_, d) :: es, h, keyed, hd => by
    rw [Datum.EntriesKeyed] at hd
    simp only [Heap.holdEntries]
    obtain ⟨first, value⟩ := hold (d := d) keyed hd.1
    obtain ⟨held, values⟩ := holdEntries first hd.2
    exact ⟨held, List.forall_mem_cons.2 ⟨value, values⟩⟩

end

end AllKeyed

end Heap

namespace Context

theorem write_allKeyed : ∀ (p : Path) {h : Heap} (r : Ref) {v : Value}, h.AllKeyed → v.Keyed →
    (write h r p v).1.AllKeyed
  | [], _, _, _, keyed, _ => keyed
  | [key], _, r, _, keyed, hv => keyed.putField r key hv
  | key :: k :: rest, h, r, v, keyed, hv => by
    simp only [write]
    split
    · exact write_allKeyed (k :: rest) _ keyed hv
    · have grown := keyed.alloc (t := []) Table.keyed_nil (List.forall_mem_nil _)
      exact write_allKeyed (k :: rest) _ (grown.putField r key trivial) hv

/-- A value that is written into a context leaves it without alike keys. -/
theorem set_allKeyed {c c' : Context} {p : Path} {v : Value} {replaced : List String}
    (h : c.set p v = .ok (c', replaced)) (keyed : c.heap.AllKeyed) (hv : v.Keyed) :
    c'.heap.AllKeyed := by
  unfold set at h
  split at h
  · obtain ⟨rfl, -⟩ := Prod.mk.inj (Except.ok.inj h)
    exact write_allKeyed _ _ keyed hv
  · exact absurd h nofun
  · exact absurd h nofun

theorem setEntries_allKeyed {c : Context} (keyed : c.heap.AllKeyed) {t : Table Value}
    (ht : t.Keyed) (he : ∀ e ∈ t, e.2.Keyed) : (c.setEntries t).heap.AllKeyed := by
  unfold setEntries
  split
  · exact keyed.setIfInBounds _ ht he
  · exact keyed

theorem loadData_allKeyed {c : Context} (keyed : c.heap.AllKeyed) {t : Table Datum}
    (ht : t.Keyed) (he : Datum.EntriesKeyed t) : (c.loadData t).heap.AllKeyed := by
  obtain ⟨held, values⟩ := keyed.holdEntries he
  exact setEntries_allKeyed (c := { c with heap := _ }) held
    (Table.keyed_congr (Heap.keys_holdEntries t c.heap).symm ht) values

theorem loadDatum_allKeyed {c : Context} (keyed : c.heap.AllKeyed) {d : Datum} (hd : d.Keyed) :
    (c.loadDatum d).1.heap.AllKeyed := by
  unfold loadDatum
  split
  · split_ifs
    · exact loadData_allKeyed keyed (Table.keyed_update hd).1 (Table.keyed_update hd).2
    · exact loadData_allKeyed keyed Table.keyed_nil trivial
  · exact keyed
  · exact keyed

end Context

/-- A store that is made from data has no alike keys. -/
theorem Store.ofDatum_allKeyed {h : Heap} (keyed : h.AllKeyed) {d : Datum} (hd : d.Keyed)
    {s : Store} (hs : ofDatum h d = .ok s) : s.context.heap.AllKeyed := by
  have empty : (Store.empty h).context.heap.AllKeyed :=
    keyed.alloc Table.keyed_nil (List.forall_mem_nil _)
  obtain ⟨es, rfl, -, -, hc⟩ := ofDatum_parts hs
  rw [Datum.Keyed] at hd
  have hp : (part es "context").Keyed := by
    unfold part
    rcases hg : Table.get? es (.text "context") with _ | x
    · exact ⟨Table.keyed_nil, trivial⟩
    · exact Table.keyed_of_get? hd.2 hg
  have loaded := Context.loadDatum_allKeyed empty hp
  rwa [hc] at loaded

namespace Heap

variable {h : Heap} (keyed : h.AllKeyed)
include keyed

/-- What is found to be equal is found to be so from the other side, and just as soon. -/
theorem equalWithin_symm (n : ℕ) {a b : Value} (ha : a.Keyed) (hb : b.Keyed)
    (he : h.equalWithin n a b = some true) : h.equalWithin n b a = some true := by
  induction n generalizing a b with
  | zero =>
    cases a <;> cases b <;> simp only [equalWithin, Option.some.injEq, reduceCtorEq] at he ⊢
    · rwa [Scalar.same_comm]
    · rwa [Datum.alikeItems_comm hb ha]
  | succ n ih =>
    cases a with
    | scalar x =>
      cases b <;> simp only [equalWithin, Option.some.injEq, reduceCtorEq] at he ⊢
      rwa [Scalar.same_comm]
    | list xs =>
      cases b <;> simp only [equalWithin, Option.some.injEq, reduceCtorEq] at he ⊢
      rwa [Datum.alikeItems_comm hb ha]
    | map r =>
      cases b with
      | scalar | list => simp only [equalWithin, Option.some.injEq, reduceCtorEq] at he
      | map q =>
        rw [equalWithin] at he ⊢
        by_cases hl : (h.cell r).length = (h.cell q).length
        swap
        · simp only [if_neg hl, Option.some.injEq, reduceCtorEq] at he
        rw [if_pos hl, List.allM_eq_some_true] at he
        rw [if_pos hl.symm, List.allM_eq_some_true]
        -- each entry of the one cell has its match in the other, and there are as many of them
        have matched : ∀ e ∈ h.cell q, ∃ v, (h.cell r).get? e.1 = some v ∧
            (v = e.2 ∨ h.equalWithin n v e.2 = some true) := by
          refine Table.matched_symm (R := fun v w => v = w ∨ h.equalWithin n v w = some true)
            (keyed.cells r) hl fun e hm => ?_
          have hv := he e hm
          rcases hg : (h.cell q).get? e.1 with _ | w
          · simp only [hg, Option.some.injEq, reduceCtorEq] at hv
          by_cases hw : w = e.2
          · exact ⟨w, rfl, .inl hw.symm⟩
          · simp only [hg, if_neg hw] at hv
            obtain ⟨x, hx, -, rfl⟩ := Table.exists_of_get? hg
            exact ⟨x.2, rfl, .inr (ih (keyed.values q x hx) (keyed.values r e hm) hv)⟩
        intro e hm
        obtain ⟨v, hv, same⟩ := matched e hm
        simp only [hv]
        by_cases hve : v = e.2
        · exact if_pos hve
        · rw [if_neg hve]
          exact same.resolve_left hve

/-- The answers from the two sides are the same, or there is one from one side only, and it is
no. -/
theorem equal?_cases {a b : Value} (ha : a.Keyed) (hb : b.Keyed) :
    h.equal? a b = h.equal? b a ∨ h.equal? a b = none ∧ h.equal? b a = some false ∨
      h.equal? a b = some false ∧ h.equal? b a = none := by
  have there : h.equal? a b = some true → h.equal? b a = some true :=
    equalWithin_symm keyed _ ha hb
  have back : h.equal? b a = some true → h.equal? a b = some true :=
    equalWithin_symm keyed _ hb ha
  rcases hab : h.equal? a b with _ | _ | _
  · rcases hba : h.equal? b a with _ | _ | _
    · exact .inl rfl
    · exact .inr (.inl ⟨rfl, rfl⟩)
    · exact absurd (hab.symm.trans (back hba)) nofun
  · rcases hba : h.equal? b a with _ | _ | _
    · exact .inr (.inr ⟨rfl, rfl⟩)
    · exact .inl rfl
    · exact absurd (hab.symm.trans (back hba)) nofun
  · exact .inl (there hab).symm

end Heap

/-! ## Order of two values -/

theorem Number.le_eq_not_lt {x y : Number} (hx : x.rank?.isSome) (hy : y.rank?.isSome) :
    x.le y = !y.lt x := by
  obtain ⟨i, hi⟩ := Option.isSome_iff_exists.1 hx
  obtain ⟨j, hj⟩ := Option.isSome_iff_exists.1 hy
  simp only [le, lt, same, hi, hj]
  by_cases hij : i = j
  · simp [hij, Rank.lt_irrefl]
  · rcases Rank.lt_or_lt_of_ne hij with hlt | hlt
    · simp [hlt, Rank.lt_asymm hlt]
    · simp [hlt, Rank.lt_asymm hlt, hij]

theorem Number.same_self {x : Number} (hx : x.rank?.isSome) : x.same x = true := by
  obtain ⟨i, hi⟩ := Option.isSome_iff_exists.1 hx
  rw [same, hi]
  exact beq_self_eq_true i

theorem Number.lt_of_same {x y : Number} (h : x.same y = true) : x.lt y = false := by
  unfold same at h
  unfold lt
  split at h
  · next i j hi hj =>
    rw [eq_of_beq h]
    exact Rank.lt_irrefl j
  · cases h

namespace Text

variable [Halves]

theorem notAfter_eq (s t : String) : notAfter s t = (before s t || s == t) := by
  rw [notAfter, before, before]
  rcases hst : areBefore s.toList t.toList with _ | _
  · rcases hts : areBefore t.toList s.toList with _ | _
    · rw [String.toList_inj.1 (eq_of_not_areBefore hst hts)]
      simp
    · have hne : s ≠ t := fun he => by
        rw [he, areBefore_irrefl] at hts
        cases hts
      simp [hne]
  · rcases hts : areBefore t.toList s.toList with _ | _
    · simp
    · have := areBefore_trans hst hts
      rw [areBefore_irrefl] at this
      cases this

end Text

namespace Value

variable {h : Heap} {a b : Value}

def IsNaN (v : Value) : Prop := ∃ payload, v = .scalar (.float (.nan payload))

/-- Both values read as numbers, or both are texts. -/
def AreOrdered (a b : Value) : Prop :=
  (a.number?.isSome ∧ b.number?.isSome) ∨ (a.isText = true ∧ b.isText = true)

/-- The values are two different texts that spell the same number. -/
def AreSpellings (a b : Value) : Prop :=
  ∃ s t x y, a = .text s ∧ b = .text t ∧ s ≠ t ∧ a.number? = some x ∧ b.number? = some y ∧
    x.same y = true

theorem AreOrdered.symm (order : AreOrdered a b) : AreOrdered b a :=
  order.imp And.symm And.symm

theorem exists_of_isText (ht : a.isText = true) : ∃ s, a = .text s := by
  unfold isText at ht
  split at ht
  · exact ⟨_, rfl⟩
  · cases ht

theorem exists_of_number? {x : Number} (hx : a.number? = some x) : ∃ s, a = .scalar s := by
  cases a with
  | scalar s => exact ⟨s, rfl⟩
  | list | map => cases hx

theorem rank?_isSome {x : Number} (hx : a.number? = some x) (ha : ¬ a.IsNaN) :
    x.rank?.isSome := by
  have finite : ∀ {y : Binary64}, y.isFinite = true → (Number.float y).rank?.isSome := by
    intro y hy
    cases y with
    | finite | infinite => rfl
    | nan => cases hy
  obtain ⟨s, rfl⟩ := exists_of_number? hx
  cases s with
  | text s =>
    rcases Number.Numeral.read?_cases hx with ⟨n, rfl, -⟩ | ⟨y, rfl, hy⟩
    · rfl
    · exact finite hy
  | float y =>
    cases hx
    cases y with
    | finite | infinite => rfl
    | nan p => exact absurd ⟨p, rfl⟩ ha
  | bool | int =>
    cases hx
    rfl
  | null => cases hx

/-- Numbers come first: two texts that are both numerals are ordered as numbers. -/
theorem AreOrdered.cases (order : AreOrdered a b) :
    (∃ x y, a.number? = some x ∧ b.number? = some y) ∨
      ((a.number? = none ∨ b.number? = none) ∧ ∃ s t, a = .text s ∧ b = .text t) := by
  rcases hx : a.number? with _ | x
  · rcases order with ⟨hn, -⟩ | ⟨ha, hb⟩
    · rw [hx] at hn
      cases hn
    · obtain ⟨s, rfl⟩ := exists_of_isText ha
      obtain ⟨t, rfl⟩ := exists_of_isText hb
      exact .inr ⟨.inl rfl, s, t, rfl, rfl⟩
  · rcases hy : b.number? with _ | y
    · rcases order with ⟨-, hn⟩ | ⟨ha, hb⟩
      · rw [hy] at hn
        cases hn
      · obtain ⟨s, rfl⟩ := exists_of_isText ha
        obtain ⟨t, rfl⟩ := exists_of_isText hb
        exact .inr ⟨.inr rfl, s, t, rfl, rfl⟩
    · exact .inl ⟨x, y, rfl, rfl⟩

section ordered

variable {f : Number → Number → Bool} {g : String → String → Bool}

theorem ordered_numbers {x y : Number} (hx : a.number? = some x) (hy : b.number? = some y) :
    ordered f g a b = f x y := by
  unfold ordered
  rw [hx, hy]

theorem ordered_texts {s t : String}
    (apart : (Value.text s).number? = none ∨ (Value.text t).number? = none) :
    ordered f g (.text s) (.text t) = g s t := by
  unfold ordered
  rcases hx : (Value.text s).number? with _ | x <;> rcases hy : (Value.text t).number? with _ | y
  · rfl
  · rfl
  · rfl
  · rw [hx, hy] at apart
    simp at apart

theorem ordered_apart (apart : ¬ AreOrdered a b) : ordered f g a b = false := by
  unfold ordered
  split
  · rename_i x y hx hy
    exact absurd (.inl ⟨by rw [hx]; rfl, by rw [hy]; rfl⟩) apart
  · split
    · exact absurd (.inr ⟨rfl, rfl⟩) apart
    · rfl

theorem ordered_swap (f : Number → Number → Bool) (g : String → String → Bool) (a b : Value) :
    ordered (fun x y => f y x) (fun s t => g t s) a b = ordered f g b a := by
  by_cases order : AreOrdered a b
  · rcases order.cases with ⟨x, y, hx, hy⟩ | ⟨apart, s, t, rfl, rfl⟩
    · rw [ordered_numbers hx hy, ordered_numbers hy hx]
    · rw [ordered_texts apart, ordered_texts apart.symm]
  · rw [ordered_apart order, ordered_apart (order ∘ AreOrdered.symm)]

end ordered

/-! ## Equality of two values -/

theorem numerallySame_comm (a b : Value) : numerallySame a b = numerallySame b a := by
  unfold numerallySame
  rw [bne_comm]
  congr 1
  rcases a.number? with _ | x <;> rcases b.number? with _ | y
  case some.some => exact Number.same_comm x y
  all_goals rfl

/-- Two numbers, at most one of which is a text, are equal if they are the same number. -/
theorem looselySame_numbers {x y : Number} (hx : a.number? = some x) (hy : b.number? = some y)
    (one : a.isText = false ∨ b.isText = false) : looselySame h a b = .ok (x.same y) := by
  obtain ⟨s, rfl⟩ := exists_of_number? hx
  obtain ⟨t, rfl⟩ := exists_of_number? hy
  simp only [looselySame, Heap.equal?_scalar, numerallySame, hx, hy]
  cases s <;> cases t <;> simp_all [isText, Scalar.same, number?, Scalar.number?]

theorem looselySame_texts (s t : String) :
    looselySame h (.text s) (.text t) = .ok (s == t) := by
  simp [looselySame, Heap.equal?_scalar, numerallySame, isText, Scalar.same]

/-- Only tables can be too deep, and they are no numbers. -/
theorem numerallySame_of_equal?_none (he : h.equal? a b = none) : numerallySame a b = false := by
  cases a with
  | scalar x =>
    cases b with
    | scalar y => cases he
    | list | map => simp [numerallySame, number?]
  | list | map => simp [numerallySame, number?]

theorem looselySame_cases (keyed : h.AllKeyed) (ha : a.Keyed) (hb : b.Keyed) :
    looselySame h a b = looselySame h b a ∨
      looselySame h a b = .error .tooDeep ∧ looselySame h b a = .ok false ∨
      looselySame h a b = .ok false ∧ looselySame h b a = .error .tooDeep := by
  unfold looselySame
  rw [numerallySame_comm b a]
  rcases Heap.equal?_cases keyed ha hb with he | ⟨hab, hba⟩ | ⟨hab, hba⟩
  · exact .inl (by rw [he])
  · rw [hab, hba, numerallySame_of_equal?_none hab]
    exact .inr (.inl ⟨rfl, rfl⟩)
  · rw [hab, hba, numerallySame_comm, numerallySame_of_equal?_none hba]
    exact .inr (.inr ⟨rfl, rfl⟩)

theorem looselySame_eq_ok
    (near : h.Shallow Heap.depthLimit a ∨ h.Shallow Heap.depthLimit b) :
    ∃ same, looselySame h a b = .ok same := by
  have hs : (h.equal? a b).isSome := Heap.equalWithin_isSome near
  obtain ⟨same, hs⟩ := Option.isSome_iff_exists.1 hs
  exact ⟨same || numerallySame a b, by rw [looselySame, hs]⟩

/-! ## Comparisons from either side -/

variable [Text.Halves]

/-- Of two values that have an order, one comes before the other or it does not come after it. -/
theorem ordered_weak (order : AreOrdered a b) (ha : ¬ a.IsNaN) (hb : ¬ b.IsNaN) :
    ordered Number.le Text.notAfter a b = !ordered Number.lt Text.before b a := by
  rcases order.cases with ⟨x, y, hx, hy⟩ | ⟨apart, s, t, rfl, rfl⟩
  · rw [ordered_numbers hx hy, ordered_numbers hy hx]
    exact Number.le_eq_not_lt (rank?_isSome hx ha) (rank?_isSome hy hb)
  · rw [ordered_texts apart, ordered_texts apart.symm]
    rfl

/-- How the comparisons of two values go together with those from the other side. -/
structure Fit (h : Heap) (a b : Value) : Prop where
  equals : a.compare h .equals b = b.compare h .equals a ∨
    a.compare h .equals b = .error .tooDeep ∧ b.compare h .equals a = .ok false ∨
    a.compare h .equals b = .ok false ∧ b.compare h .equals a = .error .tooDeep
  /-- No comparison is too deep if the tables in one of the values are not. -/
  decided : h.Shallow Heap.depthLimit a ∨ h.Shallow Heap.depthLimit b →
    ∃ same, a.compare h .equals b = .ok same ∧ b.compare h .equals a = .ok same
  notEquals : a.compare h .notEquals b = (a.compare h .equals b).map (!·)
  greater : a.compare h .greater b = b.compare h .less a
  greaterEquals : a.compare h .greaterEquals b = b.compare h .lessEquals a
  ordered : AreOrdered a b → ¬ a.IsNaN → ¬ b.IsNaN → ∃ above below,
    a.compare h .greater b = .ok above ∧ a.compare h .lessEquals b = .ok (!above) ∧
    a.compare h .less b = .ok below ∧ a.compare h .greaterEquals b = .ok (!below)
  apart : ¬ AreOrdered a b →
    ∀ r ∈ [Relation.greater, .less, .greaterEquals, .lessEquals], a.compare h r b = .ok false

end Value

section
attribute [local instance] Text.noHalves

/-- Two purses with the same in them, each in its own order, and one with a truth for a number. -/
def purses : Datum :=
  .object [("context", .object [
    ("mine", .object [("coins", .int 1), ("owner", .text "Ada")]),
    ("yours", .object [("owner", .text "Ada"), ("coins", .bool true)])])]

/-- The store that is made from them. -/
def pursed : Store where
  flags := []
  quests := []
  context := ⟨#[[(.text "mine", .map 1), (.text "yours", .map 2)],
    [(.text "coins", .scalar (.int 1)), (.text "owner", .text "Ada")],
    [(.text "owner", .text "Ada"), (.text "coins", .scalar (.bool true))]], .map 0⟩

end

/-! ## Ladders -/

namespace Heap

/-- Two ladders of `n` tables each, every table inside the one below it, and two tables that hold
them, the first with the ladder first and the second with it last. -/
def ladders (n : ℕ) : Heap :=
  (Array.ofFn fun i : Fin (2 * n) =>
    if i + 2 < 2 * n then [(.text "up", .map (i + 2))] else []) ++
  #[[(.text "ladder", .map 0), (.text "steps", .scalar (.int 1))],
    [(.text "steps", .scalar (.int 2)), (.text "ladder", .map 1)]]

theorem cell_ladders {n r : ℕ} (hr : r + 2 < 2 * n) :
    (ladders n).cell r = [(.text "up", .map (r + 2))] := by
  have hlt : r < 2 * n := by omega
  rw [ladders, cell_append_left (by simpa using hlt)]
  simp [cell, hlt, hr]

theorem ladders_allKeyed (n : ℕ) : (ladders n).AllKeyed := by
  refine allKeyed_iff.2 fun t ht => ?_
  rw [ladders, Array.mem_append, Array.mem_ofFn] at ht
  rcases ht with ⟨i, rfl⟩ | ht
  · split_ifs
    · exact ⟨List.pairwise_singleton _ _, by simp [Value.Keyed]⟩
    · exact ⟨Table.keyed_nil, List.forall_mem_nil _⟩
  · simp only [List.mem_toArray, List.mem_cons, List.not_mem_nil, or_false] at ht
    rcases ht with rfl | rfl
    · exact ⟨by unfold Table.Keyed; decide, by simp [Value.Keyed]⟩
    · exact ⟨by unfold Table.Keyed; decide, by simp [Value.Keyed]⟩

/-- Two ladders are not told apart within fewer steps than are left on both. -/
theorem equalWithin_ladders {n : ℕ} (k : ℕ) {r q : ℕ} (hne : r ≠ q) (hr : r + 2 * k < 2 * n)
    (hq : q + 2 * k < 2 * n) : (ladders n).equalWithin k (.map r) (.map q) = none := by
  induction k generalizing r q with
  | zero => rfl
  | succ k ih =>
    have up := ih (r := q + 2) (q := r + 2) (by omega) (by omega) (by omega)
    rw [equalWithin, cell_ladders (by omega), cell_ladders (by omega)]
    simp [List.allM, Table.get?, Scalar.alike_self, hne.symm, up]

theorem cell_holders (n : ℕ) :
    (ladders n).cell (2 * n) =
        [(.text "ladder", .map 0), (.text "steps", .scalar (.int 1))] ∧
      (ladders n).cell (2 * n + 1) =
        [(.text "steps", .scalar (.int 2)), (.text "ladder", .map 1)] := by
  constructor <;> simp [ladders, cell]

theorem equalWithin_scalar (h : Heap) (n : ℕ) (a b : Scalar) :
    h.equalWithin n (.scalar a) (.scalar b) = some (a.same b) := by
  cases n <;> rfl

/-- The ladders are looked through from the one side before the numbers of steps are seen to
differ, and from the other side after that. -/
theorem equalWithin_holders {n k : ℕ} (hk : 1 + 2 * k < 2 * n) :
    (ladders n).equalWithin (k + 1) (.map (2 * n)) (.map (2 * n + 1)) = none ∧
      (ladders n).equalWithin (k + 1) (.map (2 * n + 1)) (.map (2 * n)) = some false := by
  obtain ⟨hp, hq⟩ := cell_holders n
  have up := equalWithin_ladders (n := n) k (r := 1) (q := 0) one_ne_zero (by omega) (by omega)
  constructor
  · rw [equalWithin, hp, hq]
    simp [List.allM, Table.get?, Scalar.alike, Scalar.same, up]
  · rw [equalWithin, hp, hq]
    have other : (Number.int 1).same (.int 2) = false := by
      rw [Bool.eq_false_iff, ne_eq, Number.same_int_iff]
      decide
    simp [List.allM, Table.get?, Scalar.alike, Scalar.same, Scalar.number?, equalWithin_scalar,
      other]

end Heap

theorem Value.compare_holders [Text.Halves] {n : ℕ} (hn : Heap.depthLimit ≤ n) :
    compare (Heap.ladders n) (.map (2 * n)) .equals (.map (2 * n + 1)) = .error .tooDeep ∧
    compare (Heap.ladders n) (.map (2 * n + 1)) .equals (.map (2 * n)) = .ok false := by
  obtain ⟨k, hk⟩ : ∃ k, Heap.depthLimit = k + 1 := ⟨999, rfl⟩
  obtain ⟨there, back⟩ := Heap.equalWithin_holders (n := n) (k := k) (by omega)
  rw [← hk] at there back
  constructor
  · simp only [compare, looselySame, Heap.equal?, there]
  · simp only [compare, looselySame, Heap.equal?, back, numerallySame, isText,
      bne_self_eq_false, Bool.false_and, Bool.or_self]

section
attribute [local instance] Text.noHalves

end

/-! ## Order and equality -/

namespace Value

variable [Text.Halves] {h : Heap} {a b : Value}

theorem AreOrdered.compare_isOk (order : AreOrdered a b) (h : Heap) (r : Relation) :
    (a.compare h r b).isOk := by
  have scalars : ∃ s t, a = .scalar s ∧ b = .scalar t := by
    rcases order.cases with ⟨x, y, hx, hy⟩ | ⟨-, s, t, rfl, rfl⟩
    · obtain ⟨s, rfl⟩ := exists_of_number? hx
      obtain ⟨t, rfl⟩ := exists_of_number? hy
      exact ⟨s, t, rfl, rfl⟩
    · exact ⟨.text s, .text t, rfl, rfl⟩
  obtain ⟨s, t, rfl, rfl⟩ := scalars
  rw [Value.compare_isOk, Heap.equal?_scalar, Option.isSome_some, Bool.or_true]

/-- Two numbers are the same if the values are equal, or two texts for one number. -/
theorem same_iff {x y : Number} (hx : a.number? = some x) (hy : b.number? = some y)
    (ha : ¬ a.IsNaN) : x.same y = true ↔ a.compare h .equals b = .ok true ∨ AreSpellings a b := by
  by_cases texts : a.isText = true ∧ b.isText = true
  · obtain ⟨s, rfl⟩ := exists_of_isText texts.1
    obtain ⟨t, rfl⟩ := exists_of_isText texts.2
    rw [compare, looselySame_texts, Except.ok.injEq, beq_iff_eq]
    by_cases hst : s = t
    · subst hst
      obtain rfl := Option.some.inj (hx.symm.trans hy)
      exact iff_of_true (Number.same_self (rank?_isSome hx ha)) (.inl rfl)
    · constructor
      · exact fun same => .inr ⟨s, t, x, y, rfl, rfl, hst, hx, hy, same⟩
      · rintro (he | ⟨_, _, x', y', -, -, -, hx', hy', same⟩)
        · exact absurd he hst
        · rwa [Option.some.inj (hx.symm.trans hx'), Option.some.inj (hy.symm.trans hy')]
  · have one : a.isText = false ∨ b.isText = false := by
      rwa [not_and_or, Bool.not_eq_true, Bool.not_eq_true] at texts
    rw [compare, looselySame_numbers hx hy one, Except.ok.injEq]
    refine (or_iff_left ?_).symm
    rintro ⟨s, t, -, -, rfl, rfl, -⟩
    exact texts ⟨rfl, rfl⟩

/-- Two values that have an order are in one of the weak orders if they are in the strict one, or
are equal, or are two texts for one number. -/
theorem compare_weak (order : AreOrdered a b) (ha : ¬ a.IsNaN) (hb : ¬ b.IsNaN) :
    (a.compare h .greaterEquals b = .ok true ↔ a.compare h .greater b = .ok true ∨
      a.compare h .equals b = .ok true ∨ AreSpellings a b) ∧
    (a.compare h .lessEquals b = .ok true ↔ a.compare h .less b = .ok true ∨
      a.compare h .equals b = .ok true ∨ AreSpellings a b) ∧
    (AreSpellings a b → a.compare h .greater b = .ok false ∧
      a.compare h .less b = .ok false ∧ a.compare h .equals b = .ok false) ∧
    ∀ r, (a.compare h r b).isOk := by
  rcases order.cases with ⟨x, y, hx, hy⟩ | ⟨apart, s, t, rfl, rfl⟩
  · have same := same_iff (h := h) hx hy ha
    refine ⟨?_, ?_, ?_, ?_⟩
    · rw [← same, Number.same_comm]
      simp only [compare, ordered_numbers hx hy, Number.le, Except.ok.injEq, Bool.or_eq_true]
    · rw [← same]
      simp only [compare, ordered_numbers hx hy, Number.le, Except.ok.injEq, Bool.or_eq_true]
    · intro spelled
      have level := same.2 (.inr spelled)
      obtain ⟨s, t, -, -, rfl, rfl, hst, -⟩ := spelled
      refine ⟨?_, ?_, ?_⟩
      · rw [Number.same_comm] at level
        simp only [compare, ordered_numbers hx hy, Number.lt_of_same level]
      · simp only [compare, ordered_numbers hx hy, Number.lt_of_same level]
      · simp only [compare, looselySame_texts, beq_eq_false_iff_ne.2 hst]
    · exact fun r => order.compare_isOk h r
  · have plain : ¬ AreSpellings (.text s) (.text t) := by
      rintro ⟨_, _, x, y, -, -, -, hx, hy, -⟩
      rw [hx, hy] at apart
      simp at apart
    refine ⟨?_, ?_, fun spelled => absurd spelled plain, ?_⟩
    · simp only [compare, ordered_texts apart, looselySame_texts, Text.notAfter_eq, plain,
        Except.ok.injEq, Bool.or_eq_true, or_false, Bool.beq_comm]
    · simp only [compare, ordered_texts apart, looselySame_texts, Text.notAfter_eq, plain,
        Except.ok.injEq, Bool.or_eq_true, or_false]
    · exact fun r => order.compare_isOk h r

end Value

section
attribute [local instance] Text.noHalves

theorem Value.compare_weak_two : AreOrdered (.text "2.0") (.scalar (.int 2)) ∧
    ¬ IsNaN (.text "2.0") ∧ ¬ IsNaN (.scalar (.int 2)) ∧
    compare #[] (.text "2.0") .greaterEquals (.scalar (.int 2)) = .ok true := by
  have order : AreOrdered (.text "2.0") (.scalar (.int 2)) := .inl (by decide +kernel)
  have text : ¬ IsNaN (.text "2.0") := by rintro ⟨_, ⟨⟩⟩
  have number : ¬ IsNaN (.scalar (.int 2)) := by rintro ⟨_, ⟨⟩⟩
  refine ⟨order, text, number, (compare_weak order text number).1.2 (.inr (.inl ?_))⟩
  decide +kernel

/-- Of two spellings of a number neither is above the other, and they are not equal, but each is at
least the other. -/
theorem Value.compare_spellings : AreOrdered (.text "1") (.text "1.0") ∧
    ¬ IsNaN (.text "1") ∧ ¬ IsNaN (.text "1.0") ∧
    compare #[] (.text "1") .greaterEquals (.text "1.0") = .ok true ∧
    compare #[] (.text "1") .greater (.text "1.0") = .ok false ∧
    compare #[] (.text "1") .equals (.text "1.0") = .ok false :=
  ⟨.inr ⟨rfl, rfl⟩, by rintro ⟨_, ⟨⟩⟩, by rintro ⟨_, ⟨⟩⟩, by decide +kernel, by decide +kernel,
    by decide +kernel⟩

end

end Colloquy
