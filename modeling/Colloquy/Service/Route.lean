import Colloquy.Service.Target

/-!
# Routes

Which of the service's resources a path names, and with which methods each can be asked for. A path
that names nothing, but would if strokes in a row were one, has moved there (`Route.find`).
-/

namespace Colloquy.Service

inductive Route where
  | listing
  | dialogue (file : String)
  | presentation (file : String)
  | validation
  | start
  | choice
  | advance
  | state (session : String)
  /-- A file that comes with the service; there are none. -/
  | asset
deriving DecidableEq, Inhabited

namespace Route

/-- Whether a resource is only read. -/
def isReading : Route → Bool
  | .validation | .start | .choice | .advance => false
  | _ => true

def methods (r : Route) : List String :=
  if r.isReading then ["GET", "HEAD", "OPTIONS"] else ["POST", "OPTIONS"]

/-- Whether a text is the name of a file in a path: it begins with no stroke, and a line feed can
only be its first character. -/
def isFileName : List Char → Bool
  | c :: r => c ≠ '/' && !r.contains '\n'
  | [] => false

/-- The text before a given ending. -/
def before? (ending cs : List Char) : Option (List Char) :=
  (ending.reverse.isPrefixOf? cs.reverse).map List.reverse

/-- The resources of a dialogue file: its presentation comes first. -/
def ofFile (cs : List Char) : List Route :=
  (match before? "/presentation".toList cs with
    | some file => if isFileName file then [.presentation (String.ofList file)] else []
    | none => [])
  ++ (if isFileName cs then [.dialogue (String.ofList cs)] else [])

/-- The resources that the segments of a path name. -/
def named : List String → List Route
  | ["api", "dialogues"] => [.listing]
  | "api" :: "dialogue" :: file :: more => ofFile ("/".intercalate (file :: more)).toList
  | ["api", "validate"] => [.validation]
  | ["api", "play", "start"] => [.start]
  | ["api", "play", "choose"] => [.choice]
  | ["api", "play", "advance"] => [.advance]
  | ["api", "play", session, "state"] => if session = "" then [] else [.state session]
  | "static" :: file :: more =>
    if isFileName ("/".intercalate (file :: more)).toList then [.asset] else []
  | _ => []

/-- What a request for a path comes to. -/
inductive Match where
  | found (r : Route)
  | moved
  | wrongMethod
  | unknown
deriving DecidableEq

def find (method path : String) : Match :=
  let here := named (Target.segments path)
  match here.find? fun r => method ∈ r.methods with
  | some r => .found r
  | none =>
    let merged := named (Target.segments (String.ofList (Target.mergeStrokes path.toList)))
    if merged.any fun r => method ∈ r.methods then .moved
    else if here.isEmpty && merged.isEmpty then .unknown
    else .wrongMethod

end Route

end Colloquy.Service
