import Colloquy.Tree.Reading

/-!
# Templates

Starter trees for common characters. The first node of a template is the start node, and some of
the nodes that its choices lead to are left for the author to add.
-/

namespace Colloquy

variable [Text.Halves]

structure Template where
  name : String
  title : String
  nodes : List (String × List (String × Datum))

namespace Template

def choice (text : String) (goto : Option String) : Datum :=
  .object [("text", .text text), ("goto", (goto.map Datum.text).getD .null)]

/-- A node that offers choices. -/
def asking (speaker text : String) (choices : List Datum) : List (String × Datum) :=
  [("text", .text text), ("speaker", .text speaker), ("choices", .list choices)]

/-- A node that ends the conversation. -/
def closing (speaker text : String) : List (String × Datum) :=
  [("text", .text text), ("speaker", .text speaker), ("autoAdvance", .bool true),
   ("nextNode", .null)]

def merchant : Template where
  name := "merchant"
  title := "Merchant"
  nodes := [
    ("greeting", asking "Merchant" "Welcome to my shop! Take a look around." [
      choice "Show me your wares" (some "shop"),
      choice "Tell me about this town" (some "town_info"),
      choice "Goodbye" none]),
    ("shop", closing "Merchant" "Here's what I have available:"),
    ("town_info", asking "Merchant"
      "This town has been here for generations. We've got everything you need." [
      choice "Thanks for the info" (some "greeting")])]

def questGiver : Template where
  name := "quest_giver"
  title := "Quest Giver"
  nodes := [
    ("initial", asking "Quest Giver" "You look like someone who can help me with a problem..." [
      choice "What do you need?" (some "quest_offer"),
      choice "I'm busy right now" (some "quest_decline")]),
    ("quest_offer", asking "Quest Giver"
      "I need you to retrieve my lost item from the nearby cave. I'll reward you well!" [
      .object [("text", .text "I'll do it"), ("goto", .text "quest_accept"),
        ("effects", .list [.text "set_flag.quest_accepted", .text "start_quest.lost_item"])],
      choice "That sounds dangerous" (some "quest_decline")]),
    ("quest_accept", closing "Quest Giver" "Excellent! Return to me when you have the item."),
    ("quest_decline", closing "Quest Giver"
      "I understand. Perhaps you'll change your mind later.")]

def guard : Template where
  name := "guard"
  title := "Guard"
  nodes := [
    ("greeting", asking "Guard" "Halt! Who goes there?" [
      choice "Just passing through" (some "casual"),
      choice "I need information" (some "information"),
      choice "Show me your authority" (some "authority")]),
    ("casual", closing "Guard" "Very well. Move along, but keep the peace."),
    ("information", asking "Guard" "What do you need to know?" [
      choice "Where can I find the inn?" (some "directions_inn"),
      choice "What's the latest news?" (some "news")])]

/-- All templates, in the order of their names. -/
def all : List Template := [guard, merchant, questGiver]

def names : List String := all.map (·.name)

def find? (name : String) : Option Template :=
  all.find? (·.name == name)

/-- The data of the tree that a template makes. An id and a speaker that are given take the place
of the template's own. -/
def toDatum (t : Template) (id speaker : Datum) : Datum :=
  let nodes := t.nodes.map fun (k, fields) =>
    let es : Table Datum := fields.map fun (k, d) => (.text k, d)
    (k, Datum.map (if speaker.isTrue then es.put (.text "speaker") speaker else es))
  .object [("id", id.orElse (.text t.name)), ("title", .text t.title),
    ("startNode", ((t.nodes.head?).map fun e => Datum.text e.1).getD .null),
    ("nodes", .object nodes), ("metadata", .object [("template", .text t.name)])]

/-- The tree of the template with a given name. -/
def build (name id speaker : Datum) : Reading.Step Tree :=
  match name with
  | .list _ | .map _ | .back _ => throw .wrongKind
  | name =>
    match name.text?.bind find? with
    | some t => Reading.tree (t.toDatum id speaker)
    | none => throw (.unknownTemplate name names)

example : names = ["guard", "merchant", "quest_giver"] := rfl

end Template

end Colloquy
