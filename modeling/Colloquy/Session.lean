import Colloquy.Tree

/-!
# Sessions

A session drives one conversation through a tree. Entering a node shows it with the choices on
offer, and goes on by itself while nodes advance on their own, for as many hops as the budget
allows (`Session.run`). A call that runs out of budget is taken back: the store, the history and
the choices taken once are as they were before it, and the session is in error
(`Session.guarded`). A choice is taken by its index among those on offer.
-/

namespace Colloquy

variable [Text.Halves]

/-- What tells a once-only choice that was taken from all others. The keys that sessions make are
those of `ChoiceKey.of`, but a session may be given others. -/
structure ChoiceKey where
  parts : List Scalar
deriving DecidableEq, Inhabited

namespace ChoiceKey

/-- The key of a choice by the ids of its tree and node, and its index in the node. -/
def of (tree node : String) (index : Int) : ChoiceKey :=
  ⟨[.text tree, .text node, .int index]⟩

def areAlike : List Scalar → List Scalar → Bool
  | [], [] => true
  | a :: as, b :: bs => a.alike b && areAlike as bs
  | _, _ => false

/-- Whether two keys are the same, part by part. -/
def alike (a b : ChoiceKey) : Bool := areAlike a.parts b.parts

/-- Puts a key behind others, unless it is there already. -/
def addTo (keys : List ChoiceKey) (k : ChoiceKey) : List ChoiceKey :=
  if keys.any (·.alike k) then keys else keys ++ [k]

omit [Text.Halves] in
theorem alike_of_iff {t n t' n' : String} {i i' : Int} :
    (of t n i).alike (of t' n' i') = true ↔ of t n i = of t' n' i' := by
  simp only [alike, of, areAlike, Bool.and_true, Bool.and_eq_true, Scalar.alike_text_iff,
    Scalar.alike_int_iff, ChoiceKey.mk.injEq, List.cons.injEq, and_true, Scalar.int.injEq]

end ChoiceKey

/-- What is shown for one node. -/
structure Presentation where
  node : String
  text : Datum
  speaker : Datum
  portrait : Datum
  voiceLine : Datum
  choices : List Choice
  next : Datum
deriving DecidableEq, Inhabited

/-- The outcome of one call: where it ended, and the nodes it passed through on the way. -/
structure StepResult where
  phase : Phase
  presentation : Option Presentation := none
  passed : List Presentation := []
deriving DecidableEq, Inhabited

namespace Budget

/-- The number of hops that a budget allows: its integer part, and as good as any number of them
for one that has none. Only numbers allow hops. -/
def hops? : Datum → Option Nat
  | .scalar s =>
    s.number?.map fun
      | .int n => n.toNat
      | .float (.infinite true) => 0
      | .float x => (x.truncate?.getD (twoPow 64)).toNat
  | _ => none

/-- The hops that are allowed if nothing else is asked for. -/
def standard : Datum := .int 32

end Budget

structure Session where
  tree : Tree
  world : World
  budget : Datum := Budget.standard
  onceTaken : List ChoiceKey := []
  phase : Phase := .idle
  current : Datum := .null
  presentation : Option Presentation := none
  failure : Option Fault := none
  history : List Datum := []
  /-- The choices on offer, each with its index in the node. -/
  offered : List (Choice × Nat) := []
deriving Inhabited

namespace Presentation

/-- A choice as it is shown. -/
def choiceDatum (c : Choice) : Datum :=
  .object [("text", c.text), ("requirements", .list c.requirements)]

def toDatum (p : Presentation) : Datum :=
  .object [("nodeId", .text p.node), ("text", p.text), ("speaker", p.speaker),
    ("portrait", p.portrait), ("voiceLine", p.voiceLine),
    ("choices", .list (p.choices.map choiceDatum)), ("nextNode", p.next)]

end Presentation

namespace StepResult

def isTerminal (r : StepResult) : Bool := r.phase = .terminal

def choices (r : StepResult) : List Choice :=
  match r.presentation with
  | some p => p.choices
  | none => []

def toDatum (r : StepResult) : Datum :=
  .object [("state", .text r.phase.name),
    ("presentation", (r.presentation.map (·.toDatum)).getD .null),
    ("passed", .list (r.passed.map (·.toDatum)))]

end StepResult

namespace Session

def store (s : Session) : Store := s.world.store

def isActive (s : Session) : Bool := s.phase = .presenting

def note (s : Session) (n : Notice) : Session :=
  { s with world := s.world.note n }

def keyOf (s : Session) (node : String) (index : Nat) : ChoiceKey :=
  .of s.tree.name node index

/-- Whether the choice with a key was taken once. -/
def hasTaken (s : Session) (key : ChoiceKey) : Bool := s.onceTaken.any (·.alike key)

/-- Whether a choice of a node is on offer. -/
def offers (s : Session) (n : Node) (c : Choice × Nat) : Except Fault Bool :=
  (c.1.isAvailable s.store).map fun isAvailable =>
    isAvailable && !(c.1.once && s.hasTaken (s.keyOf n.name c.2))

/-- Those of some choices of a node that are on offer. -/
def offersAmong (s : Session) (n : Node) :
    List (Choice × Nat) → Except Fault (List (Choice × Nat))
  | [] => .ok []
  | c :: cs =>
    match s.offers n c, s.offersAmong n cs with
    | .error f, _ => .error f
    | .ok true, .ok offered => .ok (c :: offered)
    | .ok false, .ok offered => .ok offered
    | .ok _, .error f => .error f

/-- Shows a node, unless it cannot be told which of its choices are on offer. -/
def present (s : Session) (n : Node) : Session × Except Fault Presentation :=
  let s' := { s with current := .scalar n.id, world := s.world.noteAll (n.choiceNotices s.store) }
  match s.offersAmong n n.choices.zipIdx with
  | .error f => (s', .error f)
  | .ok offered =>
    let p : Presentation := {
      node := n.name, text := n.text, speaker := n.speaker, portrait := n.portrait
      voiceLine := n.voiceLine, choices := offered.map (·.1), next := n.next }
    ({ s' with offered, presentation := some p }, .ok p)

def finish (s : Session) : Session × StepResult :=
  ({ s with phase := .terminal, offered := [] }.note (.sessionEnded s.tree.name s.current),
    { phase := .terminal })

/-- Stops at a node that has been shown. -/
def settle (s : Session) (n : Node) (p : Presentation) (passed : List Presentation) :
    Session × StepResult :=
  let phase := if p.choices.isEmpty && n.next.isNull then .terminal else .presenting
  ({ s with phase }, { phase, presentation := some p, passed })

/-- Breaks off a chain of nodes that is too long. -/
def overrun (s : Session) (chain : List String) : Session × Fault :=
  let f : Fault := .budgetExceeded chain s.budget
  ({ s with phase := .error, failure := some f, offered := [] }.note
    (.sessionBroken s.tree.name f), f)

/-- Visits nodes one after the other, with so many hops left, until one does not advance by
itself. -/
def runFrom : Nat → Session → Datum → List Presentation → List String →
    Session × Except Fault StepResult
  | left, s, target, passed, chain =>
    match s.tree.visit s.world target with
    | (world, .error f) => ({ s with world }, .error f)
    | (world, .ok none) =>
      let (s, r) := { s with world }.finish
      (s, .ok { r with passed })
    | (world, .ok (some n)) =>
      let chain := chain ++ [n.name]
      match { s with world, history := s.history ++ [Datum.scalar n.id] }.present n with
      | (s, .error f) => (s, .error f)
      | (s, .ok p) =>
        if n.advances then
          if (Budget.hops? s.budget).isNone then (s, .error .wrongKind)
          else
            match left with
            | 0 =>
              let (s, f) := s.overrun chain
              (s, .error f)
            | left + 1 => runFrom left s n.next (passed ++ [p]) chain
        else
          let (s, r) := s.settle n p passed
          (s, .ok r)

def run (s : Session) (target : Datum) : Session × Except Fault StepResult :=
  runFrom ((Budget.hops? s.budget).getD 0) s target [] []

/-- Takes a call back that ran out of budget. A call is not made on a store that cannot be kept. -/
def guarded (before : Session) (outcome : Session × Except Fault StepResult) :
    Session × Except Fault StepResult :=
  match before.store.snapshot, outcome with
  | .error f, _ => (before, .error f)
  | .ok kept, (s, .error (.budgetExceeded chain budget)) =>
    match s.store.restore kept with
    | (store, none) =>
      ({ s with
          world := { s.world with store }
          history := before.history
          onceTaken := before.onceTaken },
        .error (.budgetExceeded chain budget))
    | (store, some f) => ({ s with world := { s.world with store } }, .error f)
  | .ok _, outcome => outcome

def enter (s : Session) (target : Datum) : Session × Except Fault StepResult :=
  s.guarded (s.run target)

/-- Enters the start node of the tree. -/
def start (s : Session) : Session × Except Fault StepResult :=
  s.enter s.tree.start

/-- Puts a choice among those that were taken once. -/
def remember (s : Session) (c : Choice) (key : ChoiceKey) : Session :=
  if c.once then { s with onceTaken := ChoiceKey.addTo s.onceTaken key } else s

/-- The id of the node that is shown. -/
def currentId (s : Session) : String := s.current.plain

/-- Takes one of the choices on offer. -/
def take (s : Session) (index : Nat) (c : Choice × Nat) : Session × Except Fault StepResult :=
  let key := s.keyOf s.currentId c.2
  match Effect.applyAll s.world c.1.effects with
  | (world, some f) => ({ s with world, phase := .resolving }, .error f)
  | (world, none) =>
    let s := { s with world, phase := .resolving }.remember c.1 key
    let s := s.note (.choiceTaken s.tree.name index s.current c.1.goto)
    if c.1.isTerminal then
      let (s, r) := s.finish
      (s, .ok r)
    else s.run c.1.goto

/-- The choice on offer that a value is the index of. -/
def offeredAt? (s : Session) : Datum → Option (Nat × (Choice × Nat))
  | .int (.ofNat i) => (s.offered[i]?).map fun c => (i, c)
  | _ => none

/-- The fault of an index that none of so many choices has, unless the index or the node that is
shown cannot be put into words. -/
def badIndex (s : Session) (index : Datum) (available : Nat) : Fault :=
  if index.isShowable && s.current.isShowable then .invalidChoice index available s.current
  else .wrongValue

def choose (s : Session) (index : Datum) : Session × Except Fault StepResult :=
  if s.phase ≠ .presenting ∨ s.offered = [] then (s, .error (s.badIndex index 0))
  else
    match s.offeredAt? index with
    | none => (s, .error (s.badIndex index s.offered.length))
    | some (i, c) => s.guarded (s.take i c)

/-- The node that follows the one that is shown. -/
def following (s : Session) : Except Fault Datum :=
  match s.tree.lookup s.current with
  | .error f => .error f
  | .ok none => .ok .null
  | .ok (some n) => .ok n.next

/-- Goes on from a node that waits without a choice. -/
def advance (s : Session) : Session × Except Fault StepResult :=
  if s.phase ≠ .presenting then (s, .error (.cannotAdvance s.phase))
  else
    match s.following with
    | .error f => (s, .error f)
    | .ok .null =>
      let (s, r) := s.finish
      (s, .ok r)
    | .ok next => s.guarded (s.run next)

def end_ (s : Session) : Session × Except Fault StepResult :=
  let (s, r) := s.finish
  (s, .ok r)

/-- The calls that drive a session. -/
inductive Call where
  | start
  | enter (node : Datum)
  | choose (index : Datum)
  | advance
  | end_
deriving DecidableEq, Inhabited

def step (s : Session) : Call → Session × Except Fault StepResult
  | .start => s.start
  | .enter node => s.enter node
  | .choose index => s.choose index
  | .advance => s.advance
  | .end_ => s.end_

/-- The session after a list of calls, whatever their outcomes. -/
def steps (s : Session) (calls : List Call) : Session :=
  calls.foldl (fun s c => (s.step c).1) s

end Session

end Colloquy
