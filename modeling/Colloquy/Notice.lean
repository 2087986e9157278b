import Colloquy.Fault

/-!
# Notices

What the engine reports while it works, as data: each notice has a level, a channel and a text.
-/

namespace Colloquy

variable [Text.Halves]

inductive Notice where
  | malformedCondition (source : Datum) (reason : String)
  | malformedEffect (source : Datum) (reason : String)
  | conditionFailed (source : Datum) (reason : String)
  | effectSkipped (source : Datum) (reason : String)
  | flagSet (key : String) (value : Bool)
  | flagToggled (key : String) (value : Bool)
  | questMoved (key op : String)
  | missingReference (path : String)
  | contextWritten (path op : String) (value : Datum)
  | valueReplaced (key path : String)
  | missingStart (tree : String) (start : Datum)
  | unknownNode (tree : String) (node : Datum)
  | nodeUnavailable (tree : String) (node : Datum)
  | choiceTaken (tree : String) (index : Int) (node goto : Datum)
  | sessionEnded (tree : String) (node : Datum)
  | sessionBroken (tree : String) (fault : Fault)
deriving DecidableEq

namespace Notice

inductive Level where
  | debug
  | warning
  | error
deriving DecidableEq, Repr

def Level.name : Level → String
  | .debug => "DEBUG"
  | .warning => "WARNING"
  | .error => "ERROR"

def level : Notice → Level
  | .malformedCondition .. | .malformedEffect .. | .missingReference _ | .valueReplaced ..
  | .missingStart .. | .unknownNode .. => .warning
  | .sessionBroken .. => .error
  | _ => .debug

def channel : Notice → String
  | .malformedCondition .. | .malformedEffect .. => "dialogue_engine.script.parser"
  | .conditionFailed .. => "dialogue_engine.script.evaluator"
  | .effectSkipped .. | .flagSet .. | .flagToggled .. | .questMoved .. | .missingReference _
  | .contextWritten .. => "dialogue_engine.script.effects"
  | .valueReplaced .. => "dialogue_engine.state.store"
  | .missingStart .. | .unknownNode .. | .nodeUnavailable .. => "dialogue_engine.tree.tree"
  | .choiceTaken .. | .sessionEnded .. | .sessionBroken .. => "dialogue_engine.session"

def text : Notice → String
  | .malformedCondition source reason =>
    "Malformed condition " ++ source.shown ++ ": " ++ reason
  | .malformedEffect source reason => "Malformed effect " ++ source.shown ++ ": " ++ reason
  | .conditionFailed source reason =>
    "Malformed condition " ++ source.shown ++ " evaluates False (" ++ reason ++ ")"
  | .effectSkipped source reason =>
    "Skipping malformed effect " ++ source.shown ++ " (" ++ reason ++ ")"
  | .flagSet key value => "Flag '" ++ key ++ "' = " ++ (Scalar.bool value).shown
  | .flagToggled key value => "Flag '" ++ key ++ "' toggled to " ++ (Scalar.bool value).shown
  | .questMoved key op => "Quest '" ++ key ++ "' -> " ++ op
  | .missingReference path =>
    "Context effect on '" ++ path ++ "' references a missing value; skipped"
  | .contextWritten path op value => "Context '" ++ path ++ "' " ++ op ++ " -> " ++ value.shown
  | .valueReplaced key path =>
    "Replacing non-dict context value at '" ++ key ++ "' while writing '" ++ path ++ "'"
  | .missingStart tree start =>
    "Tree '" ++ tree ++ "': start node '" ++ start.plain ++ "' does not exist"
  | .unknownNode tree node =>
    "Tree '" ++ tree ++ "': unknown node '" ++ node.plain ++ "', ending conversation"
  | .nodeUnavailable tree node =>
    "Tree '" ++ tree ++ "': node '" ++ node.plain ++ "' not available"
  | .choiceTaken tree index node goto =>
    "Session '" ++ tree ++ "': chose " ++ Text.ofInt index ++ " at '" ++ node.plain ++ "' -> "
      ++ goto.plain
  | .sessionEnded tree node => "Session '" ++ tree ++ "' ended at '" ++ node.plain ++ "'"
  | .sessionBroken tree fault => "Tree '" ++ tree ++ "': " ++ fault.message

/-- A notice on one line, with its level and channel. -/
def line (n : Notice) : String :=
  n.level.name ++ " " ++ n.channel ++ ": " ++ n.text

end Notice

end Colloquy
