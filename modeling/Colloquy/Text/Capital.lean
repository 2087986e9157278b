/-!
# Capital letters

The characters whose capital form is made of the letters A to Z: the small letters a to z, an i
without a dot, a long s, a sharp s, and the ligatures. Any other character stays what it is, so a
text in capitals tells which words in A to Z it is a spelling of (`capitals`).
-/

namespace Colloquy.Text

/-- The characters beyond a to z whose capital form is made of A to Z, with that form. -/
def capitalForms : List (Char × String) :=
  [('ß', "SS"), ('ı', "I"), ('ſ', "S"), ('ﬀ', "FF"), ('ﬁ', "FI"), ('ﬂ', "FL"), ('ﬃ', "FFI"),
   ('ﬄ', "FFL"), ('ﬅ', "ST"), ('ﬆ', "ST")]

def capital (c : Char) : List Char :=
  match capitalForms.lookup c with
  | some s => s.toList
  | none => [c.toUpper]

def capitals (s : String) : String :=
  String.ofList (s.toList.flatMap capital)

example : capitals "poﬆ" = "POST" := by decide +kernel

end Colloquy.Text
