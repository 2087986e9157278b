import Colloquy.Number

/-!
# Data

The values that dialogue files, game states and scripts are made of. A scalar is a leaf and may
also be the key of a table; a table keeps its entries in the order of insertion, and two keys are
alike when they are equal as values, so that the integer 1, the number 1.0 and true name one entry
(`Scalar.alike`). A datum is a scalar, a list, a table, or a mark for a table met again inside
itself, counted in levels from where it stands.

Equality of data compares scalars by value, lists by position and tables by key; the order of
entries does not matter. What is not a number equals nothing as a value, but inside a list or table
it is like what has its payload.
-/

namespace Colloquy

inductive Scalar where
  | null
  | bool (b : Bool)
  | int (n : Int)
  | float (x : Binary64)
  | text (s : String)
deriving DecidableEq, Inhabited

namespace Scalar

/-- The number that a scalar counts as; a truth value counts as one or zero. -/
def number? : Scalar → Option Number
  | .bool b => some (.int (if b then 1 else 0))
  | .int n => some (.int n)
  | .float x => some (.float x)
  | _ => none

def ofNumber : Number → Scalar
  | .int n => .int n
  | .float x => .float x

/-- Whether two scalars are equal as values. -/
def same : Scalar → Scalar → Bool
  | .null, .null => true
  | .text s, .text t => s == t
  | a, b =>
    match a.number?, b.number? with
    | some x, some y => x.same y
    | _, _ => false

/-- Whether two scalars are the same as keys and as parts of a value: they are the same thing or
equal as values. -/
def alike (a b : Scalar) : Bool := decide (a = b) || a.same b

def isTrue : Scalar → Bool
  | .null => false
  | .bool b => b
  | .int n => n != 0
  | .float x => !x.isZero
  | .text s => s != ""

theorem same_text_iff {k : Scalar} {s : String} : k.same (.text s) = true ↔ k = .text s := by
  cases k <;> simp [same, number?]

theorem same_comm (a b : Scalar) : a.same b = b.same a := by
  cases a <;> cases b <;> simp [same, number?, Number.same_comm, Bool.beq_comm]

theorem alike_self (a : Scalar) : a.alike a = true := by
  simp [alike]

theorem alike_comm (a b : Scalar) : a.alike b = b.alike a := by
  simp [alike, same_comm a b, eq_comm]

theorem alike_text_iff {k : Scalar} {s : String} : k.alike (.text s) = true ↔ k = .text s := by
  simp only [alike, Bool.or_eq_true, decide_eq_true_eq, same_text_iff, or_self]

theorem alike_int_iff {m n : Int} : (Scalar.int m).alike (.int n) = true ↔ m = n := by
  simp only [alike, same, number?, Bool.or_eq_true, decide_eq_true_eq, int.injEq,
    Number.same_int_iff, or_self]

end Scalar

/-- Entries in the order in which their keys were first put. -/
abbrev Table (α : Type) := List (Scalar × α)

namespace Table

variable {α : Type}

def get? : Table α → Scalar → Option α
  | [], _ => none
  | (k, a) :: r, key => if k.alike key then some a else get? r key

/-- Writes a value under a key, in place if the key is there and at the end if not. -/
def put : Table α → Scalar → α → Table α
  | [], key, b => [(key, b)]
  | (k, a) :: r, key, b => if k.alike key then (k, b) :: r else (k, a) :: put r key b

def putAll (t u : Table α) : Table α :=
  u.foldl (fun t e => t.put e.1 e.2) t

def ofList (es : List (Scalar × α)) : Table α :=
  putAll [] es

theorem get?_put_self {t : Table α} {s : String} {b : α} :
    (t.put (.text s) b).get? (.text s) = some b := by
  induction t with
  | nil => simp [put, get?, Scalar.alike_self]
  | cons e r ih =>
    obtain ⟨k, a⟩ := e
    by_cases h : k.alike (.text s) <;> simp [put, get?, h, ih]

theorem get?_put_of_ne {t : Table α} {s s' : String} {b : α} (h : s ≠ s') :
    (t.put (.text s) b).get? (.text s') = t.get? (.text s') := by
  induction t with
  | nil => simp [put, get?, Scalar.alike_text_iff, h]
  | cons e r ih =>
    obtain ⟨k, a⟩ := e
    by_cases hk : k.alike (.text s)
    · have hk' : k = .text s := Scalar.alike_text_iff.1 hk
      subst hk'
      simp [put, get?, Scalar.alike_self, Scalar.alike_text_iff, h]
    · simp [put, get?, hk, ih]

theorem put_put {t : Table α} {s : String} {a b : α} :
    (t.put (.text s) a).put (.text s) b = t.put (.text s) b := by
  induction t with
  | nil => simp [put, Scalar.alike_self]
  | cons e r ih =>
    obtain ⟨k, c⟩ := e
    by_cases h : k.alike (.text s) <;> simp [put, h, ih]

theorem put_get? {t : Table α} {s : String} {b : α} (h : t.get? (.text s) = some b) :
    t.put (.text s) b = t := by
  induction t with
  | nil => simp [get?] at h
  | cons e r ih =>
    obtain ⟨k, c⟩ := e
    by_cases hk : k.alike (.text s)
    · simp only [get?, hk, if_true, Option.some.injEq] at h
      simp [put, hk, h]
    · simp only [get?, hk] at h
      simp [put, hk, ih h]

end Table

inductive Datum where
  | scalar (s : Scalar)
  | list (items : List Datum)
  | map (entries : List (Scalar × Datum))
  | back (levels : Nat)
deriving Inhabited

namespace Datum

@[match_pattern] abbrev null : Datum := .scalar .null
@[match_pattern] abbrev bool (b : Bool) : Datum := .scalar (.bool b)
@[match_pattern] abbrev int (n : Int) : Datum := .scalar (.int n)
@[match_pattern] abbrev float (x : Binary64) : Datum := .scalar (.float x)
@[match_pattern] abbrev text (s : String) : Datum := .scalar (.text s)

def ofNat (n : Nat) : Datum := .int n

/-- A table with texts as keys. -/
def object (es : List (String × Datum)) : Datum :=
  .map (es.map fun (k, d) => (.text k, d))

mutual

def decEq : (a b : Datum) → Decidable (a = b)
  | .scalar a, .scalar b => decidable_of_iff (a = b) (by simp)
  | .list xs, .list ys =>
    match decEqList xs ys with
    | isTrue h => isTrue (by rw [h])
    | isFalse h => isFalse (by simpa using h)
  | .map es, .map fs =>
    match decEqEntries es fs with
    | isTrue h => isTrue (by rw [h])
    | isFalse h => isFalse (by simpa using h)
  | .back m, .back n => decidable_of_iff (m = n) (by simp)
  | .scalar _, .list _ => isFalse nofun
  | .scalar _, .map _ => isFalse nofun
  | .scalar _, .back _ => isFalse nofun
  | .list _, .scalar _ => isFalse nofun
  | .list _, .map _ => isFalse nofun
  | .list _, .back _ => isFalse nofun
  | .map _, .scalar _ => isFalse nofun
  | .map _, .list _ => isFalse nofun
  | .map _, .back _ => isFalse nofun
  | .back _, .scalar _ => isFalse nofun
  | .back _, .list _ => isFalse nofun
  | .back _, .map _ => isFalse nofun
termination_by structural a => a

def decEqList : (xs ys : List Datum) → Decidable (xs = ys)
  | [], [] => isTrue rfl
  | [], _ :: _ => isFalse nofun
  | _ :: _, [] => isFalse nofun
  | x :: xs, y :: ys =>
    match decEq x y, decEqList xs ys with
    | isTrue h, isTrue h' => isTrue (by rw [h, h'])
    | isFalse h, _ => isFalse (by simp [h])
    | _, isFalse h => isFalse (by simp [h])
termination_by structural xs => xs

def decEqEntries : (es fs : List (Scalar × Datum)) → Decidable (es = fs)
  | [], [] => isTrue rfl
  | [], _ :: _ => isFalse nofun
  | _ :: _, [] => isFalse nofun
  | (k, x) :: es, (l, y) :: fs =>
    match decEq x y, decEqEntries es fs with
    | isTrue h, isTrue h' => decidable_of_iff (k = l) (by simp [h, h'])
    | isFalse h, _ => isFalse (by simp [h])
    | _, isFalse h => isFalse (by simp [h])
termination_by structural es => es

end

instance : DecidableEq Datum := decEq

mutual

/-- Whether two data are the same as parts of a value. -/
def alike : Datum → Datum → Bool
  | .scalar a, .scalar b => a.alike b
  | .list xs, .list ys => alikeItems xs ys
  | .map es, .map fs => es.length == fs.length && alikeEntries es fs
  | .back m, .back n => m == n
  | _, _ => false
termination_by structural a => a

def alikeItems : List Datum → List Datum → Bool
  | [], [] => true
  | x :: xs, y :: ys => alike x y && alikeItems xs ys
  | _, _ => false
termination_by structural xs => xs

/-- Whether every entry has one like it in a table. -/
def alikeEntries : List (Scalar × Datum) → Table Datum → Bool
  | [], _ => true
  | (k, x) :: es, fs =>
    (match fs.get? k with
      | some y => alike x y
      | none => false) && alikeEntries es fs
termination_by structural es => es

end

mutual

/-- The number of lists and tables in a value that are inside each other. -/
def depth : Datum → Nat
  | .list xs => depthOfItems xs + 1
  | .map es => depthOfEntries es + 1
  | _ => 0
termination_by structural d => d

def depthOfItems : List Datum → Nat
  | [] => 0
  | x :: xs => max (depth x) (depthOfItems xs)
termination_by structural xs => xs

def depthOfEntries : List (Scalar × Datum) → Nat
  | [] => 0
  | (_, x) :: es => max (depth x) (depthOfEntries es)
termination_by structural es => es

end

/-- Whether a value counts as true: it is neither null, false, zero nor empty. -/
def isTrue : Datum → Bool
  | .scalar s => s.isTrue
  | .list xs => !xs.isEmpty
  | .map es => !es.isEmpty
  | .back _ => true

/-- The value, or another one in place of a value that does not count as true. -/
def orElse (d default_ : Datum) : Datum :=
  if d.isTrue then d else default_

def text? : Datum → Option String
  | .text s => some s
  | _ => none

def isNull : Datum → Bool
  | .null => true
  | _ => false

/-- The words for the kinds of values in messages. -/
def kind : Datum → String
  | .null => "NoneType"
  | .bool _ => "bool"
  | .int _ => "int"
  | .float _ => "float"
  | .text _ => "str"
  | .list _ => "list"
  | .map _ => "dict"
  | .back _ => "dict"

end Datum

/-- The value of a named entry; null when there is none. -/
def Table.field (t : Table Datum) (name : String) : Datum :=
  (t.get? (.text name)).getD .null

end Colloquy
