import Colloquy.Proofs.PathLaws
import Colloquy.Proofs.Scripts
import Mathlib.Algebra.Order.BigOperators.Group.List
import Mathlib.Algebra.Order.Group.Nat

/-!
# Counters

What is added at a path and subtracted there comes together in one integer, in whatever order it is
done: each sum reads what the one before it has written, and writes over it (`Effect.apply_change`).
Only the first one may have to make the tables on the way and to turn what it finds into an integer,
and it leaves a store in which all further writes at the path do what they would have done before it
(`Store.CountsUp`). So sums leave the store that one write of their total leaves
(`Effect.applyAll_changes`).

Floating point numbers are no integers, and what is read from another path may be changed by the
sums themselves. In a world where notices are put into words, the integers have to be short enough
for that.
-/

namespace Colloquy

/-- The integer that a value counts as in a sum: zero if it is no number or not there at all, none
if it is a floating point number. -/
def Value.count? : Option Value → Option ℤ
  | some (.scalar (.bool b)) => some (if b then 1 else 0)
  | some (.scalar (.int n)) => some n
  | some (.scalar (.float _)) => none
  | some (.text s) =>
    match Number.Numeral.read? (Text.strip s.toList) with
    | some (.int n) => some n
    | some (.float _) => none
    | none => some 0
  | _ => some 0

/-- The integer that a source counts as, if it counts as one and is not read from a path. -/
def Source.count? (s : Store) : Source → Option ℤ
  | .context _ => none
  | source => Value.count? (source.resolve s)

namespace Effect

/-- What an effect adds to the value at a path, negative if it subtracts; none if it is no sum there
or has no integer to add. -/
def change? (s : Store) (path : String) : Effect → Option ℤ
  | .write p .add source =>
    if Path.split p = Path.split path then source.count? s else none
  | .write p .subtract source =>
    if Path.split p = Path.split path then (source.count? s).map Neg.neg else none
  | _ => none

end Effect

theorem Effect.amount_of_count {v : Option Value} {n : ℤ} (h : Value.count? v = some n) :
    amount v = .int n := by
  unfold Value.count? at h
  split at h
  · cases h
    rfl
  · cases h
    rfl
  · cases h
  · rename_i s
    change (Number.Numeral.read? (Text.strip s.toList)).getD (.int 0) = .int n
    split at h <;> cases h <;> simp only [*, Option.getD]
  · cases h
    rename_i no_bool no_int no_float no_text
    rcases v with _ | (_ | b | m | x | s) | items | r
    · rfl
    · rfl
    · exact absurd rfl (no_bool b)
    · exact absurd rfl (no_int m)
    · exact absurd rfl (no_float x)
    · exact absurd rfl (no_text s)
    · rfl
    · rfl

/-- What counts as an integer without a look at the context. -/
theorem Source.amount_of_count {s : Store} {source : Source} {n : ℤ}
    (h : source.count? s = some n) : Effect.amount (source.resolve s) = .int n := by
  cases source with
  | context => cases h
  | flag | value => exact Effect.amount_of_count h

theorem Source.count?_congr {s s' : Store} (h : s'.flags = s.flags) (source : Source) :
    source.count? s' = source.count? s := by
  cases source with
  | context | value => rfl
  | flag key => simp only [count?, resolve, Store.flag, Store.flag?, h]

theorem Effect.change?_congr {s s' : Store} (h : s'.flags = s.flags) (path : String) (e : Effect) :
    e.change? s' path = e.change? s path := by
  unfold change?
  simp only [Source.count?_congr h]

namespace Store

/-- A store that differs from another one in the value at a path only, which counts as an integer:
whatever is written there makes both the same. -/
structure CountsUp (s : Store) (path : String) (total : ℤ) (s' : Store) : Prop where
  count : Value.count? (s'.get? path) = some total
  flags : s'.flags = s.flags
  set : ∀ v, ∃ s'' r r', s'.set path v = .ok (s'', r) ∧ s.set path v = .ok (s'', r')

variable {s s' : Store} {path : String} {total : ℤ}

theorem CountsUp.refl (whole : s.context.Whole) (h : Value.count? (s.get? path) = some total) :
    s.CountsUp path total s where
  count := h
  flags := rfl
  set v := by
    obtain ⟨s'', r, hs⟩ := exists_set whole path v
    exact ⟨s'', r, r, hs, hs⟩

theorem CountsUp.of_set (whole : s.context.Whole) (tree : s.context.IsTree) {r : List String}
    (h : s.set path (.scalar (.int total)) = .ok (s', r)) : s.CountsUp path total s' where
  count := by rw [get?_set whole tree h]; rfl
  flags := by
    rw [Store.set] at h
    rcases hc : s.context.set (Path.split path) (.scalar (.int total)) with f | c <;> rw [hc] at h <;>
      cases h
    rfl
  set v := set_set whole tree h v

end Store

namespace Effect

theorem applyWrite_sum {w : World} {path : String} {op : Operation} {source : Source} {a b n : ℤ}
    (ha : amount (w.store.get? path) = .int a) (hb : amount (source.resolve w.store) = .int b)
    (sums : op ≠ .set) (h : combine? op (.int a) (.int b) = some (.int n)) :
    applyWrite w path op source = writeValue w path op (.scalar (.int n)) := by
  cases op with
  | set => exact absurd rfl sums
  | add | subtract =>
    simp only [applyWrite, ha, hb, h]
    rfl

/-- A sum writes its total and does nothing else. -/
theorem apply_change {w : World} {e : Effect} {path : String} {c n : ℤ}
    (current : Value.count? (w.store.get? path) = some c)
    (change : e.change? w.store path = some n) {s : Store} {r : List String}
    (hs : w.store.set path (.scalar (.int (c + n))) = .ok (s, r))
    (worded : w.isHeard = true → (c + n).natAbs < integerBound) :
    ∃ w', e.apply w = (w', none) ∧ w'.store = s ∧ w'.isHeard = w.isHeard := by
  -- a path may be written in more than one way
  have sums : ∀ op {p source b}, Path.split p = Path.split path →
      amount (source.resolve w.store) = .int b → op ≠ .set →
      combine? op (.int c) (.int b) = some (.int (c + n)) →
      ∃ w', applyWrite w p op source = (w', none) ∧ w'.store = s ∧ w'.isHeard = w.isHeard := by
    intro op p source b hp hb sum h
    rw [Store.get?, ← hp, ← Store.get?] at current
    rw [Store.set, ← hp, ← Store.set] at hs
    rw [applyWrite_sum (amount_of_count current) hb sum h]
    exact writeValue_set hs op fun hw => by simp only [Scalar.isShowable, worded hw, decide_true]
  unfold change? at change
  split at change
  · obtain ⟨hp, added⟩ := Option.ite_none_right_eq_some.1 change
    exact sums .add hp (Source.amount_of_count added) (by decide) rfl
  · obtain ⟨hp, negated⟩ := Option.ite_none_right_eq_some.1 change
    obtain ⟨m, subtracted, rfl⟩ := Option.map_eq_some_iff.1 negated
    exact sums .subtract hp (Source.amount_of_count subtracted) (by decide) rfl
  · cases change

/-- After sums at a path, the next one writes the new total into the store as it was before them. -/
theorem apply_counted {s : Store} {w : World} {path : String} {total n : ℤ}
    (counted : s.CountsUp path total w.store) {e : Effect} (change : e.change? s path = some n)
    (worded : w.isHeard = true → (total + n).natAbs < integerBound) :
    ∃ w' r, e.apply w = (w', none) ∧ w'.isHeard = w.isHeard ∧
      s.set path (.scalar (.int (total + n))) = .ok (w'.store, r) := by
  obtain ⟨_, r, r', hs, same⟩ := counted.set (.scalar (.int (total + n)))
  rw [← change?_congr counted.flags] at change
  obtain ⟨w', he, rfl, hh⟩ := apply_change counted.count change hs worded
  exact ⟨w', r', he, hh, same⟩

/-- What effects add to the value at a path, one after the other. -/
def changes (s : Store) (path : String) (es : List Effect) : List ℤ :=
  es.filterMap (change? s path)

theorem changes_concat {s : Store} {path : String} {es : List Effect} {e : Effect} {n : ℤ}
    (h : e.change? s path = some n) : changes s path (es ++ [e]) = changes s path es ++ [n] := by
  rw [changes, List.filterMap_append, List.filterMap_cons_some h]
  rfl

section counter

variable {w : World} {path : String} {current : ℤ}
variable (whole : w.store.context.Whole) (tree : w.store.context.IsTree)
variable (start : Value.count? (w.store.get? path) = some current)

include whole tree start

/-- Sums that are not none leave the store that one write of their total leaves. -/
theorem applyAll_counted (es : List Effect)
    (counts : ∀ e ∈ es, (e.change? w.store path).isSome)
    (worded : w.isHeard = true → current.natAbs +
      ((changes w.store path es).map Int.natAbs).sum < integerBound) :
    ∃ w', applyAll w es = (w', none) ∧ w'.isHeard = w.isHeard ∧
      w.store.CountsUp path (current + (changes w.store path es).sum) w'.store ∧
      (es ≠ [] → ∃ r, w.store.set path
        (.scalar (.int (current + (changes w.store path es).sum))) = .ok (w'.store, r)) := by
  induction es using List.reverseRecOn with
  | nil => exact ⟨w, rfl, rfl, (add_zero current).symm ▸ .refl whole start, absurd rfl⟩
  | append_singleton es e ih =>
    obtain ⟨n, change⟩ := Option.isSome_iff_exists.1 (counts e (by simp))
    rw [changes_concat change] at worded ⊢
    rw [List.map_append, List.sum_append, List.map_singleton, List.sum_singleton] at worded
    rw [List.sum_append, List.sum_singleton, ← add_assoc]
    obtain ⟨w', happ, hh, counted, -⟩ := ih (fun e he => counts e (List.mem_append_left _ he))
      fun hw => by have := worded hw; omega
    have short := List.le_sum_of_subadditive Int.natAbs (le_refl 0) Int.natAbs_add_le
      (changes w.store path es)
    obtain ⟨w'', r, he, hh', hs⟩ := apply_counted counted change fun hw => by
      have := worded (hh ▸ hw)
      omega
    refine ⟨w'', ?_, hh'.trans hh, .of_set whole tree hs, fun _ => ⟨r, hs⟩⟩
    simp only [applyAll_append, happ, applyAll, he]

/-- Sums at a path come to the total of what is there and what they add or subtract, and they leave
the same store in every order. -/
theorem applyAll_totals {es : List Effect} (nonempty : es ≠ [])
    (counts : ∀ e ∈ es, (e.change? w.store path).isSome)
    (worded : w.isHeard = true → current.natAbs +
      ((changes w.store path es).map Int.natAbs).sum < integerBound) :
    ∃ w', applyAll w es = (w', none) ∧
      w'.store.get? path = some (.scalar (.int (current + (changes w.store path es).sum))) ∧
      ∀ fs, fs.Perm es → ∃ w'', applyAll w fs = (w'', none) ∧ w''.store = w'.store := by
  obtain ⟨w', happ, -, -, hs⟩ := applyAll_counted whole tree start es counts worded
  obtain ⟨r, hs⟩ := hs nonempty
  refine ⟨w', happ, Store.get?_set whole tree hs, fun fs perm => ?_⟩
  have same : (changes w.store path fs).Perm (changes w.store path es) := perm.filterMap _
  obtain ⟨w'', happ', -, -, hs'⟩ := applyAll_counted whole tree start fs
    (fun e he => counts e (perm.mem_iff.1 he)) (by rwa [(same.map Int.natAbs).sum_eq])
  obtain ⟨r', hs'⟩ := hs' fun empty => nonempty (List.nil_perm.1 (empty ▸ perm))
  rw [same.sum_eq, hs] at hs'
  exact ⟨w'', happ', (congrArg Prod.fst (Except.ok.inj hs')).symm⟩

end counter

/-- A number as it is written, a truth value and a list, at a path where the gold is in the way. -/
theorem applyAll_totals_coins :
    let w : World := { store := .vault, isHeard := true }
    let paid := write "gold.coins" .add (.value (.text " 1_0 "))
    let spent := write "gold . coins" .subtract (.value (.scalar (.bool true)))
    let lent := write "gold.coins" .add (.value (.list [.null]))
    ∃ w', applyAll w [paid, spent, lent] = (w', none) ∧
      w'.store.get? "gold.coins" = some (.scalar (.int 9)) ∧
      ∃ w'', applyAll w [lent, spent, paid] = (w'', none) ∧ w''.store = w'.store := by
  intro w paid spent lent
  obtain ⟨w', happ, total, same⟩ := @applyAll_totals w "gold.coins" 0 Store.vault_whole
    (Store.ofDatum_isTree Store.vault_made) (by decide +kernel) [paid, spent, lent] nofun
    (by decide +kernel) (by decide +kernel)
  exact ⟨w', happ, total.trans (by decide +kernel), same _ (by decide +kernel)⟩

end Effect

end Colloquy
