import Colloquy.Files
import Colloquy.Tree.Reading

/-!
# Trees in files

A tree is kept in a file as JSON. One that has no id of its own is named after its file.
-/

namespace Colloquy

variable [Text.Halves]

/-- A tree from a file. -/
def Reading.file (fs : Files) (p : FilePath) : Step Tree := do
  match fs.read p with
  | .error f => throw f
  | .ok s =>
    let t ← text s
    return if t.id.isTrue then t else { t with id := .text p.stem }

/-- Writes a tree to a file in one part; a tree whose text cannot be written leaves the file
empty. -/
def Tree.save (h : Heap) (t : Tree) (fs : Files) (p : FilePath) : Files × Option Fault :=
  match t.toJson? h, fs.save p (t.toJson? h).toList with
  | none, (fs, none) => (fs, some .wrongValue)
  | _, outcome => outcome

end Colloquy
