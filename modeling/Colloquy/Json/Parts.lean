import Colloquy.Fault
import Colloquy.Json.Writer

/-!
# JSON in parts

A file of JSON is written in parts as the value is gone through: each bracket, name and scalar is
one, and a scalar in a list goes into one part with what separates it from the scalar before. A
value that has no finite text, or holds an integer that is too long, is written up to where that
shows; all others are written whole (`parts_of_write?`). Members stay in their order.
-/

namespace Colloquy.Json

variable [Text.Halves]

/-- Parts, and whether they are all that there is to write. -/
structure Parts where
  made : List (List Char)
  isDone : Bool := true

/-- Parts, and others behind them unless they break off. -/
def Parts.andThen (a b : Parts) : Parts :=
  if a.isDone then { b with made := a.made ++ b.made } else a

mutual

/-- The parts of a value. What is written in front of it goes into one part with a scalar. -/
def partsAt (style : Style) (depth : Nat) (lead : List Char) : Datum → Parts
  | .scalar s =>
    if s.isShowable then ⟨[lead ++ writeScalar style.ascii s], true⟩ else ⟨[], false⟩
  | .list xs =>
    if xs.isEmpty then ⟨[lead, ['[', ']']], true⟩
    else
      (Parts.andThen ⟨[lead], true⟩
        (partsOfItems style (depth + 1) ('[' :: lineBreak style (depth + 1)) xs)).andThen
        ⟨[lineBreak style depth, [']']], true⟩
  | .map es =>
    if es.isEmpty then ⟨[lead, ['\x7b', '\x7d']], true⟩
    else
      (Parts.andThen ⟨[lead, ['\x7b']], true⟩
        (partsOfEntries style (depth + 1) (lineBreak style (depth + 1)) es)).andThen
        ⟨[lineBreak style depth, ['\x7d']], true⟩
  | .back _ => ⟨[lead], false⟩
termination_by structural d => d

def partsOfItems (style : Style) (depth : Nat) (lead : List Char) : List Datum → Parts
  | [] => ⟨[], true⟩
  | x :: xs =>
    (partsAt style depth lead x).andThen (partsOfItems style depth (separator style depth) xs)
termination_by structural xs => xs

def partsOfEntries (style : Style) (depth : Nat) (lead : List Char) :
    List (Scalar × Datum) → Parts
  | [] => ⟨[], true⟩
  | (k, x) :: es =>
    (Parts.andThen ⟨[lead, writeText style.ascii (memberName k), [':', ' ']], true⟩
      (partsAt style depth [] x)).andThen
      (partsOfEntries style depth (separator style depth) es)
termination_by structural es => es

end

/-- The parts of a value as they are written, and why there are no more of them. -/
def parts (style : Style) (d : Datum) : List String × Option Fault :=
  let ps := partsAt style 0 [] d
  (ps.made.map String.ofList, if ps.isDone then none else some .wrongValue)

/-- The text of a value, if it has one. -/
def write? (style : Style) (d : Datum) : Option String :=
  if style.sorted then (writeAt style 0 d).map String.ofList
  else
    let ps := partsAt style 0 [] d
    if ps.isDone then some (String.ofList ps.made.flatten) else none

/-- Whether parts are all that there is to write and are a text together. -/
def Parts.Write (ps : Parts) (cs : List Char) : Prop := ps.isDone = true ∧ ps.made.flatten = cs

omit [Text.Halves] in
theorem Parts.Write.andThen {a b : Parts} {cs ds : List Char} (ha : a.Write cs) (hb : b.Write ds) :
    (a.andThen b).Write (cs ++ ds) := by
  simp [Parts.andThen, Parts.Write, ha.1, hb.1, ha.2, hb.2]

/-- Texts behind each other, with a text before the first and a separator before each other. -/
def led (sep lead : List Char) (parts : List (List Char)) : List Char :=
  if parts.isEmpty then [] else lead ++ Text.join sep parts

omit [Text.Halves] in
theorem led_cons (sep lead cs : List Char) (parts : List (List Char)) :
    led sep lead (cs :: parts) = lead ++ cs ++ led sep sep parts := by
  cases parts <;> simp [led, Text.join]

mutual

theorem write_partsAt {style : Style} (hs : style.sorted = false) (depth : Nat) (lead : List Char) :
    ∀ (d : Datum) {cs : List Char}, writeAt style depth d = some cs →
      (partsAt style depth lead d).Write (lead ++ cs)
  | .scalar s, cs, h => by
    by_cases hn : s.isShowable <;> simp [writeAt, hn] at h
    simp [partsAt, hn, Parts.Write, h]
  | .list [], cs, h => by
    simp only [writeAt, writeItems, Option.map_some, Option.some.injEq] at h
    simp [partsAt, Parts.Write, ← h, enclose]
  | .list (x :: xs), cs, h => by
    simp only [writeAt, Option.map_eq_some_iff] at h
    obtain ⟨parts, hp, rfl⟩ := h
    have hi := write_partsOfItems hs (depth + 1) ('[' :: lineBreak style (depth + 1)) (x :: xs) hp
    have hne : parts ≠ [] := by
      intro hnil
      simp only [writeItems] at hp
      split at hp <;> simp_all
    have := ((Parts.Write.andThen (a := ⟨[lead], true⟩) ⟨rfl, rfl⟩ hi).andThen
      (b := ⟨[lineBreak style depth, [']']], true⟩) ⟨rfl, rfl⟩)
    simpa [partsAt, enclose, led, hne] using this
  | .map [], cs, h => by
    simp only [writeAt, writeEntries, Option.map_some, Option.some.injEq] at h
    simp [partsAt, Parts.Write, ← h, enclose, arrange, hs]
  | .map (e :: es), cs, h => by
    simp only [writeAt, Option.map_eq_some_iff] at h
    obtain ⟨parts, hp, rfl⟩ := h
    have hi := write_partsOfEntries hs (depth + 1) (lineBreak style (depth + 1)) (e :: es) hp
    have hne : parts ≠ [] := by
      intro hnil
      simp only [writeEntries] at hp
      split at hp <;> simp_all
    have := ((Parts.Write.andThen (a := ⟨[lead, ['\x7b']], true⟩) ⟨rfl, rfl⟩ hi).andThen
      (b := ⟨[lineBreak style depth, ['\x7d']], true⟩) ⟨rfl, rfl⟩)
    simpa [partsAt, enclose, led, hne, arrange, hs] using this
  | .back _, cs, h => by simp [writeAt] at h

theorem write_partsOfItems {style : Style} (hs : style.sorted = false) (depth : Nat)
    (lead : List Char) :
    ∀ (xs : List Datum) {parts : List (List Char)}, writeItems style depth xs = some parts →
      (partsOfItems style depth lead xs).Write (led (separator style depth) lead parts)
  | [], parts, h => by
    simp only [writeItems, Option.some.injEq] at h
    simp [partsOfItems, Parts.Write, ← h, led]
  | x :: xs, parts, h => by
    simp only [writeItems] at h
    split at h
    · next cs ps hx hxs =>
      obtain rfl := Option.some.inj h
      rw [led_cons]
      exact (write_partsAt hs depth lead x hx).andThen
        (write_partsOfItems hs depth (separator style depth) xs hxs)
    · simp at h

theorem write_partsOfEntries {style : Style} (hs : style.sorted = false) (depth : Nat)
    (lead : List Char) :
    ∀ (es : List (Scalar × Datum)) {parts : List (String × List Char)},
      writeEntries style depth es = some parts →
      (partsOfEntries style depth lead es).Write (led (separator style depth) lead
        (parts.map fun (k, cs) => writeText style.ascii k ++ [':', ' '] ++ cs))
  | [], parts, h => by
    simp only [writeEntries, Option.some.injEq] at h
    simp [partsOfEntries, Parts.Write, ← h, led]
  | (k, x) :: es, parts, h => by
    simp only [writeEntries] at h
    split at h
    · next cs ps hx hes =>
      obtain rfl := Option.some.inj h
      rw [List.map_cons, led_cons]
      have := (Parts.Write.andThen
        (a := ⟨[lead, writeText style.ascii (memberName k), [':', ' ']], true⟩) ⟨rfl, rfl⟩
        (write_partsAt hs depth [] x hx)).andThen
        (write_partsOfEntries hs depth (separator style depth) es hes)
      simpa [partsOfEntries] using this
    · simp at h

end

mutual

theorem isDone_partsAt (style : Style) (depth : Nat) (lead : List Char) :
    ∀ d : Datum, (partsAt style depth lead d).isDone = (writeAt style depth d).isSome
  | .scalar s => by by_cases hn : s.isShowable <;> simp [partsAt, writeAt, hn]
  | .list [] => by simp [partsAt, writeAt, writeItems]
  | .list (x :: xs) => by
    have := isDone_partsOfItems style (depth + 1) ('[' :: lineBreak style (depth + 1)) (x :: xs)
    by_cases hd : (writeItems style (depth + 1) (x :: xs)).isSome <;>
      simp [partsAt, writeAt, Parts.andThen, this, hd]
  | .map [] => by simp [partsAt, writeAt, writeEntries]
  | .map (e :: es) => by
    have := isDone_partsOfEntries style (depth + 1) (lineBreak style (depth + 1)) (e :: es)
    by_cases hd : (writeEntries style (depth + 1) (e :: es)).isSome <;>
      simp [partsAt, writeAt, Parts.andThen, this, hd]
  | .back _ => rfl

theorem isDone_partsOfItems (style : Style) (depth : Nat) (lead : List Char) :
    ∀ xs : List Datum,
      (partsOfItems style depth lead xs).isDone = (writeItems style depth xs).isSome
  | [] => rfl
  | x :: xs => by
    have hx := isDone_partsAt style depth lead x
    have hxs := isDone_partsOfItems style depth (separator style depth) xs
    cases hw : writeAt style depth x <;> cases hws : writeItems style depth xs <;>
      simp_all [partsOfItems, writeItems, Parts.andThen]

theorem isDone_partsOfEntries (style : Style) (depth : Nat) (lead : List Char) :
    ∀ es : List (Scalar × Datum),
      (partsOfEntries style depth lead es).isDone = (writeEntries style depth es).isSome
  | [] => rfl
  | (k, x) :: es => by
    have hx := isDone_partsAt style depth [] x
    have hes := isDone_partsOfEntries style depth (separator style depth) es
    cases hw : writeAt style depth x <;> cases hws : writeEntries style depth es <;>
      simp_all [partsOfEntries, writeEntries, Parts.andThen]

end

/-- The text of a value is the one that is written around its members. -/
theorem write?_eq (style : Style) (d : Datum) :
    write? style d = (writeAt style 0 d).map String.ofList := by
  cases hs : style.sorted
  · have hd := isDone_partsAt style 0 [] d
    cases hw : writeAt style 0 d with
    | none => simp [write?, hs, hw, hd]
    | some cs =>
      have := write_partsAt hs 0 [] d hw
      simp [write?, hs, hw, hd, this.2]
  · simp [write?, hs]

omit [Text.Halves] in
theorem join_map_ofList (parts : List (List Char)) :
    String.join (parts.map String.ofList) = String.ofList parts.flatten := by
  induction parts with
  | nil => simp
  | cons cs parts ih => simp [ih]

/-- A value that can be written is written whole. -/
theorem parts_of_write? {style : Style} (hs : style.sorted = false) {d : Datum} {s : String}
    (h : write? style d = some s) :
    (parts style d).2 = none ∧ String.join (parts style d).1 = s := by
  rw [write?_eq] at h
  obtain ⟨cs, hcs, rfl⟩ := Option.map_eq_some_iff.1 h
  have hw := write_partsAt hs 0 [] d hcs
  simp [parts, hw.1, join_map_ofList, hw.2]

end Colloquy.Json
