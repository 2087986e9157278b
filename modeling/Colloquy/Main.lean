import Colloquy.Console
import Colloquy.Text.Half.Apart

/-!
# The program

Looks up the files that a command names, runs the command, and writes what it leaves behind. A
conversation is played line by line.
-/

namespace Colloquy

namespace Program

/-- The characters of some arguments and of the files that they name. -/
def characters (args : List String) : IO (List Char) := do
  let texts : List String ← args.mapM fun (arg : String) => do
    try
      let bytes ← IO.FS.readBinFile arg
      return arg ++ (String.fromUTF8? bytes).getD ""
    catch _ => return arg
  return texts.flatMap String.toList

variable [Text.Halves]

def usage : String :=
  "Usage: [-v] validate [-d] FILE | stats FILE | show-node FILE NODE\n"
    ++ "       | play [--budget N] [--show-nodes] FILE\n"
    ++ "       | export [-o PATH] [--format json|presentation|csv] FILE\n"
    ++ "       | template [-o PATH] [--tree-id ID] [--speaker NAME] NAME"

/-- What stands at a path, if anything. -/
def look (path : String) : IO (Option Entry) := do
  try
    return some (.file (← IO.FS.readBinFile path))
  catch
    | .inappropriateType .. => return some (.folder [])
    | _ => return none

/-- Adds what stands at a path and on the way to it. -/
def gather (fs : Files) (p : FilePath) : IO Files := do
  let mut fs := fs
  for n in List.range (p.parts.length + 1) do
    let q := { p with parts := p.parts.take n }
    let names := fs.resolve q
    if (fs.top.find? names).isNone then
      match ← look q.text with
      | some e => fs := fs.put names e
      | none => pure ()
  return fs

/-- The files that a call has to do with. -/
def filesOf (c : Console.Call) : IO Files := do
  let here := (FilePath.ofText (← IO.currentDir).toString).parts
  let mut fs : Files := { top := (Entry.folder []).put here (.folder []), here }
  for path in c.given.paths do
    fs ← gather fs (.ofText path)
  return fs

/-- Writes the files that are new or changed. -/
def writeFiles (old new : Files) : IO Unit := do
  for (names, b) in old.top.changes new.top do
    IO.FS.createDirAll ("/" ++ "/".intercalate names.dropLast)
    IO.FS.writeBinFile ("/" ++ "/".intercalate names) b

def finish (old : Files) (r : Console.Outcome) : IO UInt32 := do
  writeFiles old r.files
  IO.print r.output
  IO.eprint r.errors
  if r.isMisuse then IO.eprintln usage
  match r.fault with
  | some f => IO.eprintln f.message
  | none => pure ()
  return r.status.toUInt32

/-- Writes what was said and noted since a moment of a conversation. -/
def showSince (verbose : Bool) (before after : Player.Play) : IO Unit := do
  let journal := after.session.world.journal
  let old := before.session.world.journal
  IO.print (Console.saidWritten (after.said.take (after.said.length - before.said.length)))
  (← IO.getStdout).flush
  IO.eprint (Console.noticesWritten verbose (journal.take (journal.length - old.length)))

/-- Plays a conversation on from what a step of the player comes to. -/
partial def converse (verbose : Bool) (o : Player.Settings) (before : Player.Play)
    (step : EStateM.Result Fault Player.Play Player.Turn) : IO UInt32 := do
  match step with
  | .error _ p =>
    showSince verbose before p
    return 1
  | .ok (.over _) p =>
    showSince verbose before p
    return 0
  | .ok (.waiting shown) p =>
    showSince verbose before p
    let line ← (← IO.getStdin).getLine
    converse verbose o p (Player.hear o shown (if line.isEmpty then none else some line) p)

def run (call : Console.Call) : IO UInt32 := do
  let files ← filesOf call
  match call.command? files with
  | .error r => finish files (Console.refuse { files } r)
  | .ok c =>
    match c.action with
    | .play file budget showIds =>
      match c.load { files } file with
      | .error r => finish files r
      | .ok l =>
        match l.opened budget with
        | .error f => finish files (l.broken f)
        | .ok p =>
          IO.eprint l.errors
          converse c.verbose { showIds } p (Player.start { showIds } p)
    | _ => finish files (c.perform { files })

end Program

end Colloquy

def main (args : List String) : IO UInt32 := do
  match Colloquy.Console.Call.ofArguments? args with
  | some call =>
    let halves := Colloquy.Text.Halves.apart (← Colloquy.Program.characters args)
    @Colloquy.Program.run halves call
  | none =>
    IO.eprintln Colloquy.Program.usage
    return 2
