import Colloquy.Datum.Sorting.Merge
import Colloquy.Datum.Sorting.Run

/-!
# Sorting

A list is sorted by going through its runs from left to right, short ones grown to a least length,
and joining neighbours. Which ones are joined first is told by their levels: when the whole list is
halved again and again, the level of two neighbours is the number of halvings after which their
middles are apart (`level`). Of an order in which all items can be compared only the outcome
matters; where some cannot, as numbers with what is no number, the outcome also depends on which
items are compared, and that is fixed here. Nothing is lost or added (`sort_perm`).
-/

namespace Colloquy.Sorting

variable {α : Type}

/-- A length halved until it is below sixty-four, and one more if something was lost by that or
before. -/
def halved (lost length : Nat) : Nat :=
  if 64 ≤ length then halved (max lost (length % 2)) (length / 2) else length + lost
termination_by length

/-- The least length of a run in a list of a given length. -/
def leastRun (length : Nat) : Nat := halved 0 length

/-- The number of halvings of a size after which two places, both in units of half an item, are no
longer in the same part. The first argument bounds it. -/
def halvings (size : Nat) : Nat → Nat → Nat → Nat
  | 0, _, _ => 0
  | n + 1, a, b =>
    if size ≤ a then halvings size n (2 * (a - size)) (2 * (b - size)) + 1
    else if size ≤ b then 1
    else halvings size n (2 * a) (2 * b) + 1

/-- The level of two neighbours in a list of a given size: the first one starts at a place and has
a length, as has the second one. -/
def level (size start first second : Nat) : Nat :=
  halvings size size (2 * start + first) (2 * start + 2 * first + second)

/-- A run that waits to be joined with its neighbours. -/
structure Pending (α : Type) where
  start : Nat
  items : List α
  /-- The level of the run and the next one. -/
  level : Nat := 0

namespace Pending

/-- Joins two neighbours. -/
def join (before : α → α → Bool) (patience : Nat) (l r : Pending α) : Pending α × Nat :=
  let (items, patience) := Sorting.join before patience l.items r.items
  ({ l with items }, patience)

/-- Joins the last run with those in front of it, nearest first, while their level is above a given
one. -/
def settle (before : α → α → Bool) (level : Nat) :
    Nat → Pending α → List (Pending α) → Nat × Pending α × List (Pending α)
  | patience, last, [] => (patience, last, [])
  | patience, last, p :: ps =>
    if level < p.level then
      let (joined, patience) := p.join before patience last
      settle before level patience joined ps
    else (patience, last, p :: ps)

/-- Puts a run behind those that wait, the nearest of which is given first. -/
def push (before : α → α → Bool) (size patience : Nat) (new : Pending α) :
    List (Pending α) → Nat × List (Pending α)
  | [] => (patience, [new])
  | last :: ps =>
    let level := Sorting.level size last.start last.items.length new.items.length
    let (patience, last, ps) := settle before level patience last ps
    (patience, new :: { last with level } :: ps)

/-- Joins all runs, from the last one on; of three the shorter outer one is joined with the one in
the middle. -/
def collapse (before : α → α → Bool) (patience : Nat) (last : Pending α) (ps : List (Pending α)) :
    List α :=
  match ps with
  | [] => last.items
  | [p] => (p.join before patience last).1.items
  | p :: q :: ps =>
    if q.items.length < last.items.length then
      let (joined, patience) := q.join before patience p
      collapse before patience last (joined :: ps)
    else
      let (joined, patience) := p.join before patience last
      collapse before patience joined (q :: ps)
termination_by ps.length

/-- Goes through the runs of what is left of a list of a given size. The first argument bounds
their number. -/
def gather (before : α → α → Bool) (size : Nat) :
    Nat → Nat → List (Pending α) → List α → Nat × List (Pending α) × List α
  | 0, patience, ps, l => (patience, ps, l)
  | n + 1, patience, ps, l =>
    if l.isEmpty then (patience, ps, l)
    else
      let (items, rest) := nextRun before (leastRun size) l
      let (patience, ps) := push before size patience { start := size - l.length, items } ps
      gather before size n patience ps rest

/-- The items of runs that wait, the nearest of which is given first. -/
def all (ps : List (Pending α)) : List α := ps.reverse.flatMap (·.items)

end Pending

/-- How often a run may win before leaps are tried, at first. -/
def firstPatience : Nat := 7

def sort (before : α → α → Bool) (l : List α) : List α :=
  match Pending.gather before l.length l.length firstPatience [] l with
  | (_, [], rest) => rest
  | (patience, last :: ps, rest) => Pending.collapse before patience last ps ++ rest

namespace Pending

theorem all_cons (p : Pending α) (ps : List (Pending α)) : all (p :: ps) = all ps ++ p.items := by
  simp [all]

theorem items_join (before : α → α → Bool) (patience : Nat) (l r : Pending α) :
    (l.join before patience r).1.items.Perm (l.items ++ r.items) :=
  join_perm _ _ _ _

theorem all_settle (before : α → α → Bool) (level : Nat) :
    ∀ (patience : Nat) (last : Pending α) (ps : List (Pending α)),
      (all ((settle before level patience last ps).2.1
        :: (settle before level patience last ps).2.2)).Perm (all (last :: ps))
  | _, _, [] => .refl _
  | patience, last, p :: ps => by
    unfold settle
    split
    · refine (all_settle before level _ _ ps).trans ?_
      rw [all_cons, all_cons, all_cons, List.append_assoc]
      exact (items_join _ _ _ _).append_left _
    · exact .refl _

theorem all_push (before : α → α → Bool) (size patience : Nat) (new : Pending α)
    (ps : List (Pending α)) :
    (all (push before size patience new ps).2).Perm (all ps ++ new.items) := by
  unfold push
  split
  · simp [all]
  · next last ps =>
    have h := all_settle before (Sorting.level size last.start last.items.length new.items.length)
      patience last ps
    simp only []
    rw [all_cons, all_cons]
    rw [all_cons] at h
    exact h.append_right _

theorem collapse_perm (before : α → α → Bool) (patience : Nat) (last : Pending α)
    (ps : List (Pending α)) : (collapse before patience last ps).Perm (all (last :: ps)) := by
  fun_induction collapse before patience last ps with
  | case1 patience last => simp [all]
  | case2 patience last p =>
    refine (items_join _ _ _ _).trans ?_
    simp [all]
  | case3 patience last p q ps _ joined patience' h ih =>
    refine ih.trans ?_
    have hj : joined.items.Perm (q.items ++ p.items) := by
      have := items_join before patience q p
      rwa [h] at this
    simp only [all_cons, List.append_assoc]
    exact ((hj.append_right _).trans (by rw [List.append_assoc])).append_left _
  | case4 patience last p q ps _ joined patience' h ih =>
    refine ih.trans ?_
    have hj : joined.items.Perm (p.items ++ last.items) := by
      have := items_join before patience p last
      rwa [h] at this
    simp only [all_cons, List.append_assoc]
    exact (hj.append_left _).append_left _

theorem all_gather (before : α → α → Bool) (size : Nat) :
    ∀ (n patience : Nat) (ps : List (Pending α)) (l : List α),
      (all (gather before size n patience ps l).2.1
        ++ (gather before size n patience ps l).2.2).Perm (all ps ++ l)
  | 0, _, _, _ => .refl _
  | n + 1, patience, ps, l => by
    unfold gather
    split
    · exact .refl _
    · refine (all_gather before size n _ _ _).trans ?_
      refine ((all_push _ _ _ _ _).append_right _).trans ?_
      rw [List.append_assoc]
      exact (nextRun_perm _ _ _).append_left _

end Pending

theorem sort_perm (before : α → α → Bool) (l : List α) : (sort before l).Perm l := by
  have h := Pending.all_gather before l.length l.length firstPatience [] l
  unfold sort
  split
  · next h' => rw [h'] at h; simpa [Pending.all] using h
  · next h' =>
    rw [h'] at h
    refine ((Pending.collapse_perm _ _ _ _).append_right _).trans ?_
    simpa [Pending.all] using h

end Colloquy.Sorting
