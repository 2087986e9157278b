import Colloquy.Text.Half
import Colloquy.Text.Utf8

/-!
# Names of files

The name of a file is a row of bytes. It shows as the text that the bytes are, and where they are no
UTF-8, as one half of a surrogate pair for each byte. Several texts may give the same bytes, so a
name is kept as the one that its bytes show as (`Name.kept`).
-/

namespace Colloquy.Name

variable [Text.Halves]

/-- Whether a character has no bytes: it is half of a surrogate pair that stands for no byte. -/
def isBarred (c : Char) : Bool := Text.Half.isHalf c && !Text.Half.isByte c

/-- The bytes of a text. -/
def bytes (s : String) : List UInt8 :=
  s.toList.flatMap fun c =>
    if Text.Half.isByte c then [UInt8.ofNat (Text.Half.code c - 0xDC00)]
    else String.utf8EncodeChar c

/-- What bytes that are no UTF-8 show as. -/
def halves (bs : List UInt8) : List Char :=
  bs.map fun b => Text.Half.character (0xDC00 + b.toNat)

/-- The text that the bytes of a text show as. -/
def kept (s : String) : String :=
  String.ofList (Text.Utf8.decodeFrom halves none (bytes s))

/-- The count of bytes in a text. -/
def size (s : String) : Nat := (bytes s).length

end Colloquy.Name
