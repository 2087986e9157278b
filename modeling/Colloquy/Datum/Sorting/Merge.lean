/-!
# Merging

Two neighbouring runs become one. Items are taken one by one from the run whose next item comes
first; when one run has won so often in a row as the patience allows, as many of its items are taken
at once as go before the next item of the other (`leap`), and this goes on while it pays. Merging
starts from the side of the shorter run. Where all items can be compared only the outcome matters;
where some cannot, it depends on which items are compared, so the search is fixed here to the last
step (`gallop`). Nothing is lost or added (`join_perm`).
-/

namespace Colloquy.Sorting

variable {α : Type}

/-- The side from which two runs are merged. -/
inductive Side where
  | front
  | back
deriving DecidableEq

/-- The middle of a part of a list that is not empty, in which places are counted from a side. Of
two middles it is the one nearer to the back. -/
def Side.middle (side : Side) (low high : Nat) : Nat :=
  match side with
  | .front => low + (high - low) / 2
  | .back => low + (high - low - 1) / 2

theorem Side.middle_lt (side : Side) {low high : Nat} (h : low < high) :
    low ≤ side.middle low high ∧ side.middle low high < high := by
  cases side <;> simp only [middle] <;> omega

/-- Looks for the end of the items that go first, with doubled steps: the last index that was seen
to go first, and the first one that was not, or the size. -/
def stride (goesFirst : Nat → Bool) (size last next : Nat) : Nat × Nat :=
  if next < size then
    if goesFirst next then stride goesFirst size next (2 * next + 1) else (last, next)
  else (last, size)
termination_by size - next

/-- Looks for the end of the items that go first between two indices, by halving. -/
def bisect (goesFirst : Nat → Bool) (side : Side) (low high : Nat) : Nat :=
  if _h : low < high then
    if goesFirst (side.middle low high) then
      bisect goesFirst side (side.middle low high + 1) high
    else bisect goesFirst side low (side.middle low high)
  else low
termination_by high - low
decreasing_by
  all_goals
    have := side.middle_lt _h
    omega

/-- How many items at the start of a list go first. -/
def gallop (goesFirst : α → Bool) (side : Side) (l : List α) : Nat :=
  let items := l.toArray
  let test := fun i => items[i]?.any goesFirst
  if test 0 then
    let (last, next) := stride test items.size 0 1
    bisect test side (last + 1) next
  else 0

/-- What remains of two runs when nothing is left to compare: one of them is used up, or the first
one down to the item that comes last of all. -/
def remainder? : List α → List α → Option (List α)
  | l, [] => some l
  | [], r => some r
  | [x], r => some (r ++ [x])
  | _, _ => none

/-- Two runs while they are merged. -/
structure Merging (α : Type) where
  /-- The items that have been put in order. -/
  done : List α := []
  left : List α
  right : List α

namespace Merging

def remainder? (m : Merging α) : Option (List α) := Sorting.remainder? m.left m.right

def takeLeft (m : Merging α) (n : Nat) : Merging α :=
  { m with done := m.done ++ m.left.take n, left := m.left.drop n }

def takeRight (m : Merging α) (n : Nat) : Merging α :=
  { m with done := m.done ++ m.right.take n, right := m.right.drop n }

/-- Takes the items on the left that go before the next one on the right, and that one. The number
of the former is returned. -/
def leapLeft (before : α → α → Bool) (side : Side) (m : Merging α) : Merging α × Nat :=
  match m.remainder?, m.right with
  | none, y :: _ =>
    let n := gallop (fun x => !before y x) side m.left
    let m := m.takeLeft n
    (if m.remainder?.isSome then m else m.takeRight 1, n)
  | _, _ => (m, 0)

/-- Takes the items on the right that come before the next one on the left, and that one. The
number of the former is returned. -/
def leapRight (before : α → α → Bool) (side : Side) (m : Merging α) : Merging α × Nat :=
  match m.remainder?, m.left with
  | none, x :: _ =>
    let n := gallop (fun y => before y x) side m.right
    let m := m.takeRight n
    (if m.remainder?.isSome then m else m.takeLeft 1, n)
  | _, _ => (m, 0)

/-- Leaps on both sides. The length of the longer leap is returned. -/
def leap (before : α → α → Bool) (side : Side) (m : Merging α) : Merging α × Nat :=
  match side with
  | .front =>
    let (m, a) := m.leapLeft before side
    let (m, b) := m.leapRight before side
    (m, max a b)
  | .back =>
    let (m, a) := m.leapRight before side
    let (m, b) := m.leapLeft before side
    (m, max a b)

/-- How items are taken: one by one, with the number of times in a row that each side has won, or
by leaps. -/
inductive Pace where
  | single (left right : Nat)
  | leaping

/-- The pace after a side has won so often in a row. -/
def Pace.after (patience won : Nat) (pace : Pace) : Pace :=
  if patience ≤ won then .leaping else pace

/-- The length of a leap that is worth it. -/
def worthwhile : Nat := 7

/-- Merges two runs, with a patience; the patience that is left goes to the next merge. Leaps that
pay shorten it, and ones that do not make it longer. Every step takes an item, so there are at most
as many steps as items; the first argument counts them. -/
def run (before : α → α → Bool) (side : Side) :
    Nat → Pace → Nat → Merging α → List α × Nat
  | 0, _, patience, m => (m.done ++ m.left ++ m.right, patience)
  | steps + 1, pace, patience, m =>
    match m.remainder? with
    | some rest => (m.done ++ rest, patience)
    | none =>
      match pace, m.left, m.right with
      | .single won lost, x :: _, y :: _ =>
        if before y x then
          run before side steps (Pace.after patience (lost + 1) (.single 0 (lost + 1))) patience
            (m.takeRight 1)
        else
          run before side steps (Pace.after patience (won + 1) (.single (won + 1) 0)) patience
            (m.takeLeft 1)
      | _, _, _ =>
        let (m, length) := m.leap before side
        if m.remainder?.isSome then run before side steps .leaping patience m
        else if worthwhile ≤ length then run before side steps .leaping (max 1 (patience - 1)) m
        else run before side steps (.single 0 0) (patience + 1) m

end Merging

/-- Merges two runs of which the first item of the right one comes first. -/
def mergeFrom (before : α → α → Bool) (side : Side) (patience : Nat) (l r : List α) :
    List α × Nat :=
  let m : Merging α := { left := l, right := r }
  (m.takeRight 1).run before side (l.length + r.length) (.single 0 0) patience

/-- Merges two runs from the side of the shorter one. -/
def merge (before : α → α → Bool) (patience : Nat) (l r : List α) : List α × Nat :=
  if l.length ≤ r.length then mergeFrom before .front patience l r
  else
    let (merged, patience) :=
      mergeFrom (fun x y => before y x) .back patience r.reverse l.reverse
    (merged.reverse, patience)

/-- Joins two runs. What goes before all of the second run stays where it is, and so does what then
goes behind all of the first. -/
def join (before : α → α → Bool) (patience : Nat) (l r : List α) : List α × Nat :=
  match r with
  | [] => (l, patience)
  | y :: _ =>
    let kept := gallop (fun x => !before y x) .front l
    match (l.drop kept).getLast? with
    | none => (l ++ r, patience)
    | some z =>
      let moved := r.length - gallop (fun x => !before x z) .back r.reverse
      if moved = 0 then (l ++ r, patience)
      else
        let (middle, patience) := merge before patience (l.drop kept) (r.take moved)
        (l.take kept ++ (middle ++ r.drop moved), patience)

namespace Merging

/-- All items of two runs while they are merged. -/
def all (m : Merging α) : List α := m.done ++ m.left ++ m.right

theorem all_takeLeft (m : Merging α) (n : Nat) : (m.takeLeft n).all = m.all := by
  simp only [all, takeLeft, List.append_assoc]
  rw [← List.append_assoc (List.take n m.left), List.take_append_drop]

theorem all_takeRight (m : Merging α) (n : Nat) : (m.takeRight n).all.Perm m.all := by
  simp only [all, takeRight, List.append_assoc]
  refine List.Perm.append_left _ ?_
  calc (m.right.take n ++ (m.left ++ m.right.drop n)).Perm
        (m.left ++ (m.right.take n ++ m.right.drop n)) := by
          rw [← List.append_assoc, ← List.append_assoc]
          exact List.perm_append_comm.append_right _
    _ = m.left ++ m.right := by rw [List.take_append_drop]

theorem all_leapLeft (before : α → α → Bool) (side : Side) (m : Merging α) :
    (m.leapLeft before side).1.all.Perm m.all := by
  unfold leapLeft
  split
  · simp only []
    split
    · rw [all_takeLeft]
    · exact (all_takeRight _ _).trans (by rw [all_takeLeft])
  · exact .refl _

theorem all_leapRight (before : α → α → Bool) (side : Side) (m : Merging α) :
    (m.leapRight before side).1.all.Perm m.all := by
  unfold leapRight
  split
  · simp only []
    split
    · exact all_takeRight _ _
    · rw [all_takeLeft]
      exact all_takeRight _ _
  · exact .refl _

theorem all_leap (before : α → α → Bool) (side : Side) (m : Merging α) :
    (m.leap before side).1.all.Perm m.all := by
  unfold leap
  split
  · exact (all_leapRight _ _ _).trans (all_leapLeft _ _ _)
  · exact (all_leapLeft _ _ _).trans (all_leapRight _ _ _)

theorem remainder?_perm {m : Merging α} {rest : List α} (h : m.remainder? = some rest) :
    (m.done ++ rest).Perm m.all := by
  obtain ⟨done, left, right⟩ := m
  simp only [all, List.append_assoc]
  refine List.Perm.append_left _ ?_
  simp only [remainder?] at h
  unfold Sorting.remainder? at h
  split at h <;> simp only [Option.some.injEq, reduceCtorEq] at h
  · subst h; simp
  · subst h; simp
  · subst h; exact List.perm_append_comm

theorem run_perm (before : α → α → Bool) (side : Side) :
    ∀ (steps : Nat) (pace : Pace) (patience : Nat) (m : Merging α),
      (m.run before side steps pace patience).1.Perm m.all
  | 0, _, _, _ => .refl _
  | steps + 1, pace, patience, m => by
    unfold run
    split
    · next h => exact remainder?_perm h
    · split
      · split
        · exact (run_perm before side steps _ _ _).trans (all_takeRight _ _)
        · exact (run_perm before side steps _ _ _).trans (by rw [all_takeLeft])
      · simp only []
        split
        · exact (run_perm before side steps _ _ _).trans (all_leap _ _ _)
        · split
          · exact (run_perm before side steps _ _ _).trans (all_leap _ _ _)
          · exact (run_perm before side steps _ _ _).trans (all_leap _ _ _)

end Merging

theorem mergeFrom_perm (before : α → α → Bool) (side : Side) (patience : Nat) (l r : List α) :
    (mergeFrom before side patience l r).1.Perm (l ++ r) :=
  (Merging.run_perm _ _ _ _ _ _).trans (Merging.all_takeRight _ _)

theorem merge_perm (before : α → α → Bool) (patience : Nat) (l r : List α) :
    (merge before patience l r).1.Perm (l ++ r) := by
  unfold merge
  split
  · exact mergeFrom_perm _ _ _ _ _
  · calc (mergeFrom (fun x y => before y x) .back patience r.reverse l.reverse).1.reverse.Perm
          (mergeFrom (fun x y => before y x) .back patience r.reverse l.reverse).1 :=
            List.reverse_perm _
      _ |>.Perm (r.reverse ++ l.reverse) := mergeFrom_perm _ _ _ _ _
      _ = (l ++ r).reverse := by rw [List.reverse_append]
      _ |>.Perm (l ++ r) := List.reverse_perm _

theorem join_perm (before : α → α → Bool) (patience : Nat) (l r : List α) :
    (join before patience l r).1.Perm (l ++ r) := by
  unfold join
  split
  · simp
  · simp only []
    split
    · exact .refl _
    · split
      · exact .refl _
      · next z _ _ =>
        refine (((merge_perm _ _ _ _).append_right _).append_left _).trans ?_
        rw [List.append_assoc, List.take_append_drop, ← List.append_assoc, List.take_append_drop]

end Colloquy.Sorting
