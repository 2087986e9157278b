import Colloquy.Fault
import Colloquy.Service.Host.Address
import Colloquy.Service.Host.Name
import Colloquy.Text.Utf8

/-!
# Hosts

A host in a target is a name or an address and perhaps a number, and a user before an at sign. What
may be between its brackets, and which characters would read as separators in another form, decides
whether it is one (`Host.isSound`). A host is written in ASCII to be asked (`Host.written`), and
shown in plain characters again (`Host.shown`).
-/

namespace Colloquy.Service

variable [Text.Halves]

/-- The parts of a host. -/
structure Host where
  user : Option (List Char) := none
  password : Option (List Char) := none
  name : List Char := []
  number : List Char := []

namespace Host

/-- Characters that have a separator in them in another form. -/
def disguised : List Char :=
  ['⁇', '⁈', '⁉', '℀', '℁', '℅', '℆', '⩴', '︓', '︖', '﹕', '﹖', '﹟', '﹫', '＃', '／', '：', '？', '＠']

/-- A text behind the first of a character. -/
def behind (c : Char) (cs : List Char) : List Char := (cs.dropWhile (· ≠ c)).drop 1

/-- Where a host is: what it says behind the last at sign. -/
def place (cs : List Char) : List Char := (cs.reverse.takeWhile (· ≠ '@')).reverse

/-- The name, or the address in brackets, of a place. -/
def nameOf (place : List Char) : List Char :=
  if place.contains '[' then (behind '[' place).takeWhile (· ≠ ']')
  else place.takeWhile (· ≠ ':')

/-- Whether a host with brackets has an address in them, and nothing around them but a number. -/
def isBracketed (place : List Char) : Bool :=
  let after := behind ']' place
  (!place.contains '[' || place.head? = some '[' && (after.isEmpty || after.head? = some ':'))
    && isAddress (nameOf place)

/-- Whether a text is a host: brackets come in pairs and hold an address, and no character is a
separator in another form. -/
def isSound (cs : List Char) : Bool :=
  cs.contains '[' == cs.contains ']' && (!cs.contains '[' || isBracketed (place cs))
    && !cs.any disguised.contains

def ofChars (cs : List Char) : Host :=
  let place := place cs
  let user := cs.take (cs.length - place.length - 1)
  { user := if cs.contains '@' then some (user.takeWhile (· ≠ ':')) else none
    password := if user.contains ':' then some (behind ':' user) else none
    name := lowered (nameOf place)
    number := behind ':' (if place.contains '[' then behind ']' place else place) }

/-- The number of a host as it is written behind the name, if it is one that a host can have;
nothing if there is none. -/
def number? (cs : List Char) : Option (List Char) :=
  let n := Text.Digit.toNat (cs.filterMap Text.Digit.ascii?)
  if cs.isEmpty then some []
  else if cs.all Char.isDigit && n < 65536 then some (':' :: (Text.ofNat n).toList)
  else none

/-- A name as it stands in a host: in brackets if there are colons in it. -/
def enclosed (name : List Char) : List Char :=
  if name.contains ':' then '[' :: name ++ [']'] else name

/-- Whether a character of a user or password stands for itself. -/
def isPlain (c : Char) : Bool :=
  c.isAlphanum || "_.-~%!$&'()*+,;=".toList.contains c

/-- A text in which the bytes of all other characters are escapes. -/
def escaped (cs : List Char) : List Char :=
  cs.flatMap fun c =>
    if isPlain c then [c]
    else (String.singleton c).toUTF8.toList.flatMap fun b =>
      ['%', (b.toNat / 16).digitChar.toUpper, (b.toNat % 16).digitChar.toUpper]

/-- The user and the password in front of a name. -/
def credentials (h : Host) : List Char :=
  match h.user with
  | none => []
  | some user =>
    escaped user ++ ((h.password.map fun cs => ':' :: escaped cs).getD []) ++ ['@']

/-- A host in ASCII. -/
def written (cs : List Char) : Except Fault (List Char) :=
  let h := ofChars cs
  match written? h.name, number? h.number with
  | none, _ => .error .badName
  | some _, none => .error .wrongValue
  | some name, some number =>
    if (h.user.getD []).any Text.Half.isHalf || (h.password.getD []).any Text.Half.isHalf then
      .error .notEncodable
    else .ok (h.credentials ++ enclosed name ++ number)

/-- The bytes of a text in which a percent sign and two hexadecimal digits stand for one byte. -/
def bytes : List Char → List UInt8
  | '%' :: a :: b :: r =>
    match Text.Digit.hex? a, Text.Digit.hex? b with
    | some m, some n => UInt8.ofNat (16 * m + n) :: bytes r
    | _, _ => (String.singleton '%').toUTF8.toList ++ bytes (a :: b :: r)
  | c :: r => (String.singleton c).toUTF8.toList ++ bytes r
  | [] => []

/-- Whether a host in ASCII is asked by its name: a name in letters, digits, dots and hyphens, or an
address in brackets, and a number behind it that is not zero. -/
def isProper (cs : List Char) : Bool :=
  let number := (cs.reverse.takeWhile Char.isDigit).reverse
  let front := cs.take (cs.length - number.length)
  let name :=
    if !number.isEmpty && front.getLast? = some ':' then front.dropLast else cs
  let isNumbered := name.length = cs.length || number.head? ≠ some '0'
  let isNamed := match name with
    | '[' :: r => r.getLast? = some ']'
        && r.dropLast.all fun c => (Text.Digit.hex? c).isSome || c = ':' || c = '.'
    | _ => !name.isEmpty && name.all fun c => c.isAlphanum || c = '.' || c = '-'
  isNumbered && isNamed

/-- A host in ASCII as it is shown: its name and its number in plain characters. -/
def shown (cs : List Char) : Except Fault (List Char) :=
  let h := ofChars cs
  match shown? h.name with
  | none => .error .badName
  | some name =>
    let cs := enclosed name ++ if h.number.isEmpty then [] else ':' :: h.number
    if isSound cs then .ok cs else .error .wrongValue

/-- Whether what stands before the first colon of a host in ASCII can be its name. -/
def isNamed (cs : List Char) : Bool := (written? (cs.takeWhile (· ≠ ':'))).isSome

end Host

end Colloquy.Service
