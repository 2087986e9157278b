import Colloquy.Service.Host

/-!
# Request targets

The path of a request is what its target says before a query or fragment, with every escape of a
byte undone. Line breaks and tabs in a target do not count, nor do blanks and control characters at
its start. A target may begin with a scheme and a host; what is left without them may do so once
more, and in what is left then, a host is written in ASCII and belongs to the path.
-/

namespace Colloquy.Service

variable [Text.Halves]

/-- What a request is for. -/
structure Target where
  path : String
  /-- The host that is asked, in ASCII. -/
  host : List Char
  /-- What the host is asked for. -/
  asked : List Char := []
deriving Inhabited

namespace Target

def isSchemeChar (c : Char) : Bool := c.isAlphanum || c = '+' || c = '-' || c = '.'

/-- The scheme that a target may begin with, and what is left without it: a scheme is a letter and
more, up to a colon. -/
def scheme (cs : List Char) : List Char × List Char :=
  match cs, cs.dropWhile isSchemeChar with
  | c :: _, ':' :: r => if c.isAlpha then (cs.takeWhile isSchemeChar, r) else ([], cs)
  | _, _ => ([], cs)

/-- Whether a character ends the host in a target. -/
def endsHost (c : Char) : Bool := c = '/' || c = '?' || c = '#'

/-- The parts of a target, without a fragment. -/
structure Parts where
  scheme : List Char
  host : List Char
  path : List Char
  query : List Char

/-- The parts of a target without the blanks and control characters that it begins with, if its host
is one. -/
def Parts.ofChars (cs : List Char) : Except Fault Parts :=
  let (scheme, rest) := Target.scheme (cs.dropWhile (· ≤ ' '))
  let (host, rest) := match rest with
    | '/' :: '/' :: r => (r.takeWhile fun c => !endsHost c, r.dropWhile fun c => !endsHost c)
    | _ => ([], rest)
  let rest := rest.takeWhile (· ≠ '#')
  if Host.isSound host then
    .ok ⟨scheme, host, rest.takeWhile (· ≠ '?'), (rest.dropWhile (· ≠ '?')).drop 1⟩
  else .error .wrongValue

/-- A target without scheme and host. -/
def Parts.onHost (p : Parts) : List Char :=
  p.path ++ if p.query.isEmpty then [] else '?' :: p.query

/-- A path with the host and the scheme that it may begin with in ASCII. -/
def Parts.written (p : Parts) : Except Fault (List Char) := do
  if p.path.any Text.Half.isHalf then .error .notEncodable
  let host ← Host.written p.host
  .ok ((if p.scheme.isEmpty then [] else p.scheme.map Char.toLower ++ [':'])
    ++ (if host.isEmpty then [] else '/' :: '/' :: host) ++ p.path)

/-- The host of a target in ASCII, or the usual one. -/
def hostOf (p : Parts) : Except Fault (List Char) := do
  let host ← if p.host.isEmpty then .ok "localhost".toList else Host.written p.host
  if Host.isSound host then .ok host else .error .wrongValue

/-- The characters of a target that count. -/
def characters (target : String) : List Char :=
  target.toList.filter fun c => c ≠ '\t' && c ≠ '\n' && c ≠ '\r'

/-- Reads a target. -/
def ofText (target : String) : Except Fault Target := do
  let first ← Parts.ofChars (characters target)
  let second ← Parts.ofChars first.onHost
  let third ← Parts.ofChars second.path
  let path ← third.written
  let host ← hostOf first
  .ok { path := Text.Utf8.decode (Host.bytes path), host, asked := first.onHost }

/-- Whether a request can be sent to a target: what it asks for can be written, and its host be
shown if it is asked by its name. -/
def check (t : Target) : Except Fault Unit := do
  if t.asked.any Text.Half.isHalf then .error .notEncodable
  if Host.isProper t.host then
    let _ ← Host.shown t.host
    .ok ()

/-- Whether a host by the name of the target's can be asked. A host that is not asked by its name
has none to be wrong. -/
def isNamed (t : Target) : Bool := !Host.isProper t.host || Host.isNamed t.host

/-- The segments of a path behind the strokes that it begins with. -/
def segments (path : String) : List String :=
  (Text.splitAt '/' (path.toList.dropWhile (· = '/'))).map String.ofList

/-- A path in which all strokes in a row have become one. -/
def mergeStrokes : List Char → List Char
  | '/' :: '/' :: r => mergeStrokes ('/' :: r)
  | c :: r => c :: mergeStrokes r
  | [] => []

end Target

end Colloquy.Service
