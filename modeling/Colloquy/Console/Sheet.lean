import Colloquy.Json.Parts
import Colloquy.Validation

/-!
# Sheets

What the console shows about a tree, line by line: the report of a validation, the numbers of a
tree, and a single node.
-/

namespace Colloquy.Console.Sheet

variable [Text.Halves]

def issueLines (i : Issue) : List String :=
  ["\n  " ++ i.location ++ " - " ++ i.message]
    ++ (i.suggestion.map fun s => "    💡 Suggestion: " ++ s).toList

/-- The sum of counts. -/
def total (counts : List Nat) : Nat := counts.foldl (fun a b => a + b) 0

def countChoices (t : Tree) : Nat := total (t.nodes.map fun n => n.choices.length)

/-- The numbers below a detailed report. -/
def reportNumbers (t : Tree) (r : Report) : List String :=
  ["\n📊 STATISTICS:", Text.rule '─' 40, "  • Nodes: " ++ Text.ofNat t.nodes.length,
    "  • Choices: " ++ Text.ofNat (countChoices t),
    "  • Flags set: " ++ Text.ofNat r.flagsSet.length,
    "  • Flags checked: " ++ Text.ofNat r.flagsRead.length]

/-- Issues of one kind under a heading; nothing if there are none. -/
def issuesUnder (heading : String) (issues : List Issue) : List String :=
  if issues.isEmpty then []
  else
    ["\n" ++ heading ++ " (" ++ Text.ofNat issues.length ++ "):", Text.rule '━' 60]
      ++ issues.flatMap issueLines

def verdict (r : Report) : List String :=
  ["\n" ++ Text.rule '=' 80,
    "Summary: " ++ Text.ofNat r.errors.length ++ " error(s), " ++ Text.ofNat r.warnings.length
      ++ " warning(s)",
    if r.isValid then "✅ VALIDATION PASSED WITH WARNINGS" else "❌ VALIDATION FAILED"]

/-- The report of a validation. -/
def validation (t : Tree) (r : Report) (name : String) (detailed : Bool) : List String :=
  ["\n" ++ Text.rule '=' 80, "VALIDATION REPORT: " ++ name, Text.rule '=' 80]
    ++ (if r.errors.isEmpty && r.warnings.isEmpty then
        ["\n✅ VALIDATION PASSED - No issues found!"]
      else
        issuesUnder "❌ ERRORS" r.errors ++ issuesUnder "⚠️  WARNINGS" r.warnings ++ verdict r)
    ++ (if detailed then reportNumbers t r else [])

/-- A label and a number that ends in a fixed column. -/
def numbered (label : String) (cs : List Char) : String :=
  label ++ String.ofList (Text.padStart ' ' 6 cs)

def counted (label : String) (n : Nat) : String := numbered label (Nat.toDigits 10 n)

/-- The quotient of two counts with one digit after the point; nothing divided by nothing is
zero. -/
def average (sum count : Nat) : List Char :=
  match Binary64.ofRatio false sum (max count 1) with
  | .finite _ units _ => Binary64.toTenths units
  | _ => []

/-- The number of something in the nodes and choices of a tree. -/
def countIn (t : Tree) (inNode : Node → Nat) (inChoice : Choice → Nat) : Nat :=
  total (t.nodes.map fun n => inNode n + total (n.choices.map inChoice))

/-- Whether exactly one thing follows a node. -/
def isLinear (n : Node) : Bool :=
  n.choices.length == 1 || (n.choices.isEmpty && n.next.isTrue)

/-- The numbers of a tree. -/
def statistics (t : Tree) (name : String) : List String :=
  ["\n📊 Statistics for " ++ name, Text.rule '=' 50, "\n📝 Content:",
    counted "  Nodes:          " t.nodes.length,
    counted "  Choices:        " (countChoices t),
    counted "  Once-choices:   " (countIn t (fun _ => 0) fun c => if c.once then 1 else 0),
    counted "  Conditions:     " (countIn t (·.guards.length) (·.guards.length)),
    counted "  Effects:        " (countIn t (·.deeds.length) (·.deeds.length)),
    "\n📈 Averages:",
    numbered "  Choices per node: " (average (countChoices t) t.nodes.length),
    "\n🌳 Structure:",
    counted "  Branching nodes: " (t.nodes.countP fun n => 1 < n.choices.length),
    counted "  Linear nodes:    " (t.nodes.countP isLinear),
    counted "  Auto-advance:    " (t.nodes.countP (·.autoAdvance.isTrue)),
    counted "  Endings:         " (t.nodes.countP (·.isTerminal)),
    ""]

/-- A condition or effect on a line: a text as it is, anything else as JSON. -/
def scriptLine : Datum → Except Fault String
  | .text s => .ok ("  " ++ s)
  | d =>
    match Json.write? .line d with
    | some s => .ok ("  " ++ s)
    | none => .error .wrongValue

/-- Conditions or effects under a heading; nothing if there are none. -/
def scriptsUnder (heading : String) (ds : List Datum) : Except Fault (List String) :=
  if ds.isEmpty then .ok []
  else (ds.mapM scriptLine).map (("\n" ++ heading) :: ·)

/-- Conditions or effects behind a choice, between two brackets. -/
def inBrackets (open_ close : String) (ds : List Datum) : String :=
  if ds.isEmpty then "" else " " ++ open_ ++ "; ".intercalate (ds.map Datum.plain) ++ close

def choiceLine (h : Heap) (c : Choice) : String :=
  "  -> " ++ (c.goto.orElse (.text "END")).plain ++ ": \"" ++ c.text.plain ++ "\""
    ++ inBrackets "\x7b" "\x7d" (c.guards.map (·.source))
    ++ inBrackets "[" "]" (c.deeds.map (·.view h))
    ++ (if c.once then " (once)" else "")

def nextLine (n : Node) : List String :=
  if n.next.isTrue then
    let how := if n.autoAdvance.isTrue then "auto" else "continue"
    ["\n⏭  Next (" ++ how ++ "): " ++ n.next.plain]
  else []

/-- A single node. -/
def node (h : Heap) (n : Node) : Except Fault (List String) := do
  let conditions ← scriptsUnder "🔒 Conditions:" (n.guards.map (·.source))
  let effects ← scriptsUnder "⚡ Effects:" (n.deeds.map (·.view h))
  return ["\n📍 Node: [" ++ n.name ++ "]", Text.rule '=' 50] ++ conditions ++ effects
    ++ ["\n💬 Dialogue:",
      "  " ++ (n.speaker.orElse (.text "narrator")).plain ++ ": \"" ++ n.text.plain ++ "\""]
    ++ (if n.choices.isEmpty then [] else "\n🔀 Choices:" :: n.choices.map (choiceLine h))
    ++ nextLine n ++ [""]

/-- The first twenty ids of a tree in order, and how many more there are. -/
def nodeIds (t : Tree) : List String :=
  "\nAvailable nodes:"
    :: (((t.nodes.map (·.name)).mergeSort Text.notAfter).take 20).map ("  • " ++ ·)
    ++ (if 20 < t.nodes.length then
        ["  ... and " ++ Text.ofNat (t.nodes.length - 20) ++ " more"]
      else [])

end Colloquy.Console.Sheet
