import Colloquy.Datum.Order
import Colloquy.Number.Numeral
import Colloquy.Player.Box
import Colloquy.Session

/-!
# The player

The player walks a reader through a conversation: it shows what is said, offers the choices, and
acts on one line of input at a time (`Player.hear`). A line is the number of a choice, the word for
showing the game state, or a word for leaving; the end of the input leaves as well. What was said
before a fault stays said.
-/

namespace Colloquy

variable [Text.Halves]

namespace Player

/-- How a conversation is shown. -/
structure Settings where
  columns : Int := 80
  /-- Whether the ids of nodes are shown. -/
  showIds : Bool := false
deriving DecidableEq, Inhabited

/-- What the player says: a line, or a prompt for one. -/
inductive Utterance where
  | say (text : String)
  | ask (text : String)
deriving DecidableEq, Inhabited

/-- A conversation as it is played, with what was said so far, latest first. -/
structure Play where
  session : Session
  said : List Utterance := []
  /-- Whether what is said goes to a stream, which cannot take halves of surrogate pairs. -/
  isStream : Bool := false
deriving Inhabited

/-- What comes next: a line of input, or nothing. -/
inductive Turn where
  | waiting (shown : StepResult)
  | over (result : StepResult)
deriving DecidableEq, Inhabited

abbrev Act := EStateM Fault Play

def say (s : String) : Act Unit := do
  if (← get).isStream && !Text.isWhole s then throw .notEncodable
  modify fun p => { p with said := .say s :: p.said }

def ask (s : String) : Act Unit :=
  modify fun p => { p with said := .ask s :: p.said }

def sayAll (lines : List String) : Act Unit :=
  lines.forM say

/-- Makes a call to the session. -/
def call (c : Session.Call) : Act (Except Fault StepResult) :=
  modifyGet fun p =>
    let (session, r) := p.session.step c
    (r, { p with session })

/-- What is said before the first node. -/
def opening (t : Tree) : List String :=
  ["\n" ++ Ink.paint [.brightCyan] (Text.rule '=' 70),
    Ink.paint [.brightYellow, .bold] ("🎭 " ++ (t.title.orElse t.id).plain),
    Ink.paint [.brightCyan] (Text.rule '=' 70),
    "Enter a number to choose. Type " ++ Ink.paint [.yellow] "'state'" ++ " to see game state, "
      ++ Ink.paint [.yellow] "'quit'" ++ " to stop."]

/-- What is said after the last node. -/
def closing : List String :=
  ["\n" ++ Ink.paint [.brightCyan] (Text.rule '=' 70),
    Ink.paint [.brightYellow, .bold] "🎬 THE END",
    Ink.paint [.brightCyan] (Text.rule '=' 70)]

def sayOrFail (outcome : Except Fault String) : Act Unit :=
  match outcome with
  | .ok s => say s
  | .error f => throw f

/-- An entry of a table on a line. -/
def entryLine (k : Scalar) (d : Datum) : Except Fault String :=
  if Json.depthLimit < d.depth then .error .tooDeep
  else if k.isShowable && d.isShowable then
    .ok ("  • " ++ (Datum.scalar k).plain ++ ": " ++ d.plain)
  else .error .wrongValue

/-- The entries of a table on a line each, sorted by key. -/
def sayEntries {α : Type} (t : Table α) (datum : α → Datum) : Act Unit :=
  if t.isEmpty then say "  (none)"
  else
    match t.sorted with
    | .ok es => es.forM fun (k, a) => sayOrFail (entryLine k (datum a))
    | .error f => throw f

/-- Shows the game state and how far the conversation has come. -/
def sayState : Act Unit := do
  let s := (← get).session
  sayAll ["\n" ++ Ink.paint [.brightBlue] (Text.rule '=' 50),
    Ink.paint [.brightBlue] "📊 CURRENT GAME STATE",
    Ink.paint [.brightBlue] (Text.rule '=' 50)]
  say "\n🚩 Flags:"
  sayEntries s.store.flags id
  say "\n📈 Context:"
  let context := s.store.context
  sayEntries context.entries context.heap.view
  say "\n📜 Quests:"
  sayEntries s.store.quests fun q => .text q.status.name
  say ("\n📍 Current Node: " ++ (s.current.orElse (.text "None")).plain)
  say ("📝 Nodes Visited: " ++ Text.ofNat s.history.eraseDups.length ++ "/"
    ++ Text.ofNat s.tree.nodes.length)
  say (Text.rule '=' 50)

/-- The length that a name takes in a box; numbers and truth values have none. -/
def nameLength? : Datum → Option Nat
  | .text s => some s.length
  | .list ds => some ds.length
  | .map es => some es.length
  | _ => none

/-- A text in a box under a name. Only a text can be wrapped, and a name needs a length. -/
def framed (text name : Datum) (color : String) (limit : Number) (columns : Int) :
    Except Fault String :=
  match text, nameLength? name with
  | .text s, some n => Box.renderUnder n s name.plain color limit columns
  | .text _, none => .error .wrongKind
  | _, _ => .error .noFields

/-- What a speaker says, in a box. -/
def boxed (o : Settings) (text speaker : Datum) (color : Ink) : Except Fault String :=
  framed text speaker color.mark (.int 60) o.columns

/-- The width for what nobody says. -/
def proseWidth (o : Settings) : Int := min 70 (Box.room o.columns - 6)

/-- What nobody says, without a box. It needs room for one column at least. -/
def prose (o : Settings) (text : Datum) : Except Fault String :=
  match text with
  | .text s =>
    if proseWidth o ≤ 0 then .error .wrongValue
    else
      let rows := Text.wrap (proseWidth o).toNat s.toList
      .ok ("\n" ++ Ink.paint [.italic, .gray]
        ("📖 " ++ String.ofList (Text.join ['\n'] rows)))
  | _ => .error .noFields

def sayPresentation (o : Settings) (p : Presentation) : Act Unit := do
  if o.showIds then say ("\n" ++ Ink.paint [.dim] ("[" ++ p.node ++ "]"))
  if p.text.isTrue then
    sayOrFail (if p.speaker.isTrue then boxed o p.text p.speaker .brightCyan else prose o p.text)

/-- Shows the nodes that a call passed through and the one where it ended. -/
def sayStep (o : Settings) (r : StepResult) : Act Unit := do
  r.passed.forM (sayPresentation o)
  match r.presentation with
  | some p => sayPresentation o p
  | none => pure ()

/-- A choice on offer with its number. -/
def choiceLine (number : Nat) (c : Choice) : Except Fault String :=
  c.requirementText.map fun requirement =>
    "  " ++ Ink.paint [.brightYellow] ("[" ++ Text.ofNat number ++ "]") ++ " "
      ++ Ink.paint [.yellow] c.text.plain
      ++ match requirement with
        | some s => " " ++ Ink.paint [.dim] ("(" ++ s ++ ")")
        | none => ""

/-- Shows the choices, numbered from one. -/
def sayChoices (choices : List Choice) : Act Unit :=
  if choices.isEmpty then say ("\n" ++ Ink.paint [.dim] "(press Enter to continue)")
  else do
    say ("\n" ++ Ink.paint [.dim] (Text.rule '─' 50))
    (choices.zipIdx 1).forM fun (c, number) => sayOrFail (choiceLine number c)

/-- Prompts for a line. -/
def await (shown : StepResult) : Act Turn := do
  ask ("\n" ++ Ink.paint [.brightMagenta] ">" ++ " ")
  return .waiting shown

def sayBroken (f : Fault) : Act Unit :=
  say ("\n" ++ Ink.paint [.brightRed] ("❌ Conversation is broken: " ++ f.message))

/-- The result of a call that can only fail by breaking the conversation. -/
def resultOf (outcome : Except Fault StepResult) : Act StepResult := do
  match outcome with
  | .ok r => return r
  | .error f =>
    match f with
    | .budgetExceeded .. => sayBroken f
    | _ => pure ()
    throw f

/-- Shows a result, and asks for a line unless the conversation is over. -/
def arrive (o : Settings) (r : StepResult) : Act Turn := do
  sayStep o r
  if r.isTerminal then
    sayAll closing
    sayState
    return .over r
  else
    sayChoices r.choices
    await r

/-- Starts the conversation. -/
def start (o : Settings) : Act Turn := do
  sayAll (opening (← get).session.tree)
  arrive o (← resultOf (← call .start))

def leave (r : StepResult) : Act Turn := do
  say ("\n" ++ Ink.paint [.brightYellow] "👋 Thanks for playing!")
  return .over r

/-- The words that leave the conversation. -/
def leavingWords : List String := ["quit", "exit", "q"]

def refuse (shown : StepResult) (why : String) : Act Turn := do
  say (Ink.paint [.red] ("❌ " ++ why))
  await shown

/-- Takes the choice with a number. -/
def takeNumber (o : Settings) (shown : StepResult) (number : Int) : Act Turn := do
  match ← call (.choose (.int (number - 1))) with
  | .error (.invalidChoice ..) =>
    refuse shown "Invalid choice. Please enter a number from the list."
  | outcome => do
    let r ← resultOf outcome
    match shown.choices[(number - 1).toNat]? with
    | some c =>
      if c.text.isTrue then sayOrFail (boxed o c.text (.text "You") .brightGreen)
    | none => pure ()
    arrive o r

/-- A line of input as it counts: without blanks around it, in small letters. -/
def wordOf (line : String) : List Char :=
  (Text.strip line.toList).map Char.toLower

/-- Acts on one line of input, or on its end. -/
def hear (o : Settings) (shown : StepResult) : Option String → Act Turn
  | none => leave shown
  | some line => do
    let word := wordOf line
    if String.ofList word ∈ leavingWords then leave shown
    else if word = "state".toList then
      sayState
      await shown
    else if shown.choices.isEmpty then arrive o (← resultOf (← call .advance))
    else
      match Number.Numeral.int? word with
      | none => refuse shown "Please enter a valid number or command."
      | some number => takeNumber o shown number

/-- Goes on with the lines of an input until the conversation is over. -/
def goOn (o : Settings) : Turn → List String → Act StepResult
  | .over r, _ => return r
  | .waiting r, [] => do
    discard (hear o r none)
    return r
  | .waiting r, line :: lines => do goOn o (← hear o r (some line)) lines

/-- Plays a conversation on given input. -/
def play (o : Settings) (input : List String) : Act StepResult := do
  goOn o (← start o) input

end Player

end Colloquy
