import Colloquy.Proofs.Scripts
import Colloquy.Session.Saved

/-!
# Choices taken once are saved

A key that is like the one of a choice is read back as just that key, whatever kind of number
stands for the place of the choice (`ChoiceKey.ofDatum_toDatum`). The keys of a session are sorted
when they are saved and put together again when they are read, and none is lost on the way, so a
choice that was taken once is so in every session made from what was saved (`hasTaken_ofDatum`).
-/

namespace Colloquy

/-- What is infinite does not stand on the level of the finite numbers. -/
theorem rank?_infinite {s : Bool} {u : Int} :
    (Number.float (.infinite s)).rank? ≠ some ⟨0, u⟩ := by
  intro h
  have hl : (if s then -1 else 1 : Int) = 0 := congrArg Number.Rank.level (Option.some.inj h)
  cases s with
  | false => exact absurd hl (by decide)
  | true => exact absurd hl (by decide)

theorem truncate?_of_rank {x : Binary64} {n : Int}
    (h : (Number.float x).rank? = some ⟨0, n * Binary64.one⟩) : x.truncate? = some n := by
  have h1 : (Binary64.one : Int) ≠ 0 := Int.ofNat_ne_zero.2 (Nat.ne_of_gt (twoPow_pos 1074))
  cases x with
  | nan p => exact absurd h nofun
  | infinite s => exact absurd h rank?_infinite
  | finite s u fits =>
    simp only [Number.rank?, Option.some.injEq, Number.Rank.mk.injEq, true_and] at h
    rw [Binary64.truncate?, Option.some.injEq]
    cases s with
    | false =>
      change (u : Int) = n * Binary64.one at h
      change ((u / Binary64.one : Nat) : Int) = n
      rw [Int.natCast_ediv, h, Int.mul_ediv_cancel _ h1]
    | true =>
      change -(u : Int) = n * Binary64.one at h
      have hu : (u : Int) = -n * Binary64.one := by rw [Int.neg_mul, ← h, Int.neg_neg]
      change -((u / Binary64.one : Nat) : Int) = n
      rw [Int.natCast_ediv, hu, Int.mul_ediv_cancel _ h1, Int.neg_neg]

/-- A value like an integer is read as that integer. -/
theorem toInteger_of_alike {s : Scalar} {n : Int} (h : s.alike (.int n) = true) :
    (Datum.scalar s).toInteger = .ok n := by
  cases s with
  | null => simp [Scalar.alike, Scalar.same, Scalar.number?] at h
  | text s => simp [Scalar.alike, Scalar.same, Scalar.number?] at h
  | int m => rw [Datum.toInteger, Scalar.alike_int_iff.1 h]
  | bool b =>
    have hn : (Number.int (if b then 1 else 0)).same (.int n) = true := by
      simpa [Scalar.alike, Scalar.same, Scalar.number?] using h
    rw [Datum.toInteger, Number.same_int_iff.1 hn]
  | float x =>
    have hn : (Number.float x).same (.int n) = true := by
      simpa [Scalar.alike, Scalar.same, Scalar.number?] using h
    obtain ⟨r, hx, hr⟩ := Number.same_iff.1 hn
    obtain rfl := Option.some.inj hr
    cases x with
    | nan p => cases hx
    | infinite s => exact absurd hx rank?_infinite
    | finite s u fits => simp only [Datum.toInteger, truncate?_of_rank hx]

namespace ChoiceKey

theorem parts_of_alike {k : ChoiceKey} {tree node : String} {place : Int}
    (h : k.alike (.of tree node place) = true) :
    ∃ s, k = ⟨[.text tree, .text node, s]⟩ ∧ s.alike (.int place) = true := by
  obtain ⟨parts⟩ := k
  rcases parts with _ | ⟨t, _ | ⟨n, _ | ⟨i, _ | ⟨j, rest⟩⟩⟩⟩
  all_goals simp [alike, of, areAlike, Scalar.alike_text_iff] at h
  obtain ⟨rfl, rfl, hi⟩ := h
  exact ⟨i, rfl, hi⟩

section read
variable [Text.Halves]

/-- A key like that of a choice is read back as the key of that choice. -/
theorem ofDatum_toDatum {k : ChoiceKey} {tree node : String} {place : Int}
    (h : k.alike (.of tree node place) = true) : ofDatum k.toDatum = .ok (.of tree node place) := by
  obtain ⟨s, rfl, hs⟩ := parts_of_alike h
  simp only [ofDatum, toDatum, List.map_cons, List.map_nil, Datum.parts, toInteger_of_alike hs]
  rfl

end read

theorem mem_mapM {α β : Type} {read : α → Except Fault β} {b : β} : ∀ {xs : List α} {ys : List β},
    xs.mapM read = .ok ys → ∀ {x}, x ∈ xs → read x = .ok b → b ∈ ys
  | x :: xs, ys, h, y, hy, hb => by
    rw [List.mapM_cons] at h
    rcases hx : read x with f | z
    · rw [hx] at h
      exact absurd h nofun
    · rcases hr : xs.mapM read with f | zs
      · rw [hx, hr] at h
        exact absurd h nofun
      · rw [hx, hr] at h
        obtain rfl := Except.ok.inj h
        rcases List.mem_cons.1 hy with rfl | hm
        · obtain rfl := Except.ok.inj (hx.symm.trans hb)
          exact List.mem_cons_self
        · exact List.mem_cons_of_mem _ (mem_mapM hr hm hb)

/-- Keys in front of which one is put stay, and that one is among them then. -/
theorem any_addTo {keys : List ChoiceKey} {k l : ChoiceKey} (h : keys.any (·.alike l) = true) :
    (addTo keys k).any (·.alike l) = true := by
  unfold addTo
  split
  · exact h
  · rw [List.any_append, h, Bool.true_or]

theorem alike_self (k : ChoiceKey) : k.alike k = true := by
  obtain ⟨parts⟩ := k
  unfold alike
  induction parts with
  | nil => rfl
  | cons s parts ih => simp only [areAlike, Scalar.alike_self, Bool.true_and, ih]

theorem any_addTo_self (keys : List ChoiceKey) (k : ChoiceKey) :
    (addTo keys k).any (·.alike k) = true := by
  unfold addTo
  split
  · assumption
  · rw [List.any_append, List.any_cons, alike_self, Bool.true_or, Bool.or_true]

theorem any_foldl_addTo {l : ChoiceKey} : ∀ {ks keys : List ChoiceKey},
    keys.any (·.alike l) = true ∨ l ∈ ks → (ks.foldl addTo keys).any (·.alike l) = true
  | [], keys, h => by simpa using h
  | k :: ks, keys, h => by
    rw [List.foldl_cons]
    refine any_foldl_addTo ?_
    rcases h with h | h
    · exact .inl (any_addTo h)
    · rcases List.mem_cons.1 h with rfl | h
      · exact .inl (any_addTo_self keys l)
      · exact .inr h

end ChoiceKey

namespace Session

variable [Text.Halves]

theorem ofDatum_map {tree : Tree} {world : World} {budget : Datum} {es : Table Datum}
    {taken history : List Datum}
    (ht : ((es.get? (.text "onceTaken")).getD (.list [])).parts = .ok taken)
    (hh : ((es.get? (.text "history")).getD (.list [])).parts = .ok history) :
    ofDatum tree world budget (.map es) =
      (ChoiceKey.listOf ChoiceKey.ofDatum taken).map fun onceTaken =>
        { tree, world, budget, onceTaken, history, current := es.field "currentNode" } := by
  simp only [ofDatum, ht]
  rcases ChoiceKey.listOf ChoiceKey.ofDatum taken with f | onceTaken
  · rfl
  · simp only [hh]
    rfl

/-- A session is read back from its data, unless its keys cannot be. -/
theorem ofDatum_toDatum (s : Session) (tree : Tree) (world : World) (budget : Datum) :
    ofDatum tree world budget s.toDatum =
      (ChoiceKey.listOf ChoiceKey.ofDatum
        ((ChoiceKey.sorted s.onceTaken).map (·.toDatum))).map fun onceTaken =>
          { tree, world, budget, onceTaken, history := s.history, current := s.current } :=
  ofDatum_map rfl rfl

/-- A choice that was taken once is so in a session made from what was saved. -/
theorem hasTaken_ofDatum {s s' : Session} {tree : Tree} {world : World} {budget d : Datum}
    {name node : String} {place : Int} (hs : s.save = .ok d)
    (hr : ofDatum tree world budget d = .ok s') (h : s.hasTaken (.of name node place) = true) :
    s'.hasTaken (.of name node place) = true := by
  unfold save at hs
  split at hs
  · obtain rfl := Except.ok.inj hs
    obtain ⟨k, hk, ha⟩ := List.any_eq_true.1 h
    have hd : k.toDatum ∈ (ChoiceKey.sorted s.onceTaken).map (·.toDatum) :=
      List.mem_map_of_mem ((Sorting.sort_perm _ _).mem_iff.2 hk)
    rw [ofDatum_toDatum, ChoiceKey.listOf] at hr
    rcases hm : ((ChoiceKey.sorted s.onceTaken).map (·.toDatum)).mapM ChoiceKey.ofDatum with f | ks
    all_goals rw [hm] at hr
    · exact absurd hr nofun
    · obtain rfl := Except.ok.inj hr
      have hmem := ChoiceKey.mem_mapM hm hd (ChoiceKey.ofDatum_toDatum ha)
      exact ChoiceKey.any_foldl_addTo (.inr hmem)
  · exact absurd hs nofun

theorem ofDatum_new {s : Session} {tree : Tree} {world : World} {budget d : Datum}
    (h : ofDatum tree world budget d = .ok s) : s.tree = tree ∧ s.offered = [] := by
  unfold ofDatum at h
  split at h
  · simp only at h
    split at h
    · exact absurd h nofun
    · split at h
      · exact absurd h nofun
      · split at h
        · exact absurd h nofun
        · obtain rfl := Except.ok.inj h
          exact ⟨rfl, rfl⟩
  · exact absurd h nofun

end Session

end Colloquy
