/-!
# Runs

A run is a part of a list that is in order already. A list begins with a run (`firstRun`), and a
run grows when an item is put into it, at the place that halving finds (`insert`). Nothing is lost
or added (`insert_perm`, `firstRun_perm`).
-/

namespace Colloquy.Sorting

variable {α : Type}

/-- Puts an item into a list: before the middle if it comes before what stands there, and behind it
otherwise. -/
def insert (before : α → α → Bool) (x : α) (l : List α) : List α :=
  match _h : l.drop (l.length / 2) with
  | [] => [x]
  | y :: right =>
    if before x y then insert before x (l.take (l.length / 2)) ++ y :: right
    else l.take (l.length / 2) ++ y :: insert before x right
termination_by l.length
decreasing_by
  · have := congrArg List.length _h
    simp only [List.length_drop, List.length_cons] at this
    rw [List.length_take]
    omega
  · have := congrArg List.length _h
    simp only [List.length_drop, List.length_cons] at this
    omega

/-- Puts items into a list, one after the other. -/
def insertAll (before : α → α → Bool) (run xs : List α) : List α :=
  xs.foldl (fun sorted x => insert before x sorted) run

/-- The longest run from an item on in which each item goes on from the one before it, and what
follows. -/
def takeRun (goesOn : α → α → Bool) (a : α) : List α → List α × List α
  | [] => ([a], [])
  | b :: r =>
    if goesOn a b then (a :: (takeRun goesOn b r).1, (takeRun goesOn b r).2) else ([a], b :: r)

/-- The run that a list begins with, put in order, and what follows. A run may also descend, from
each item to one that comes before it. -/
def firstRun (before : α → α → Bool) : List α → List α × List α
  | a :: b :: r =>
    if before b a then
      let (run, rest) := takeRun (fun x y => before y x) a (b :: r)
      (run.reverse, rest)
    else takeRun (fun x y => !before y x) a (b :: r)
  | short => (short, [])

/-- The run that a list begins with, grown to a given length if it is shorter, and what follows. -/
def nextRun (before : α → α → Bool) (least : Nat) (l : List α) : List α × List α :=
  let (run, rest) := firstRun before l
  let missing := least - run.length
  (insertAll before run (rest.take missing), rest.drop missing)

theorem insert_perm (before : α → α → Bool) (x : α) (l : List α) :
    (insert before x l).Perm (x :: l) := by
  fun_induction insert before x l with
  | case1 l h =>
    have : l.length ≤ l.length / 2 := List.drop_eq_nil_iff.1 h
    have : l = [] := List.length_eq_zero_iff.1 (by omega)
    simp [this]
  | case2 l y right h _ ih =>
    calc insert before x (l.take (l.length / 2)) ++ y :: right
        |>.Perm (x :: l.take (l.length / 2) ++ y :: right) := ih.append_right _
      _ = x :: l := by rw [← h, List.cons_append, List.take_append_drop]
  | case3 l y right h _ ih =>
    have : (y :: insert before x right).Perm (x :: y :: right) :=
      (ih.cons y).trans (.swap x y right)
    calc (l.take (l.length / 2) ++ y :: insert before x right)
        |>.Perm (l.take (l.length / 2) ++ x :: y :: right) := this.append_left _
      _ |>.Perm (x :: (l.take (l.length / 2) ++ y :: right)) := List.perm_middle
      _ = x :: l := by rw [← h, List.take_append_drop]

theorem insertAll_perm (before : α → α → Bool) (run xs : List α) :
    (insertAll before run xs).Perm (run ++ xs) := by
  induction xs generalizing run with
  | nil => simp [insertAll]
  | cons x xs ih =>
    exact (ih _).trans (((insert_perm before x run).append_right xs).trans List.perm_middle.symm)

theorem takeRun_append (goesOn : α → α → Bool) (a : α) (r : List α) :
    (takeRun goesOn a r).1 ++ (takeRun goesOn a r).2 = a :: r := by
  induction r generalizing a with
  | nil => rfl
  | cons b r ih => by_cases h : goesOn a b <;> simp [takeRun, h, ih]

theorem firstRun_perm (before : α → α → Bool) :
    ∀ l : List α, ((firstRun before l).1 ++ (firstRun before l).2).Perm l
  | [] => .refl _
  | [_] => .refl _
  | a :: b :: r => by
    simp only [firstRun]
    split
    · refine ((List.reverse_perm _).append_right _).trans ?_
      rw [takeRun_append]
    · rw [takeRun_append]

theorem nextRun_perm (before : α → α → Bool) (least : Nat) (l : List α) :
    ((nextRun before least l).1 ++ (nextRun before least l).2).Perm l := by
  unfold nextRun
  refine ((insertAll_perm _ _ _).append_right _).trans ?_
  rw [List.append_assoc, List.take_append_drop]
  exact firstRun_perm before l

end Colloquy.Sorting
