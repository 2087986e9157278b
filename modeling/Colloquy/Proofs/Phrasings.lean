import Colloquy.Proofs.Arrival

/-!
# Two ways to phrase a condition

A comparison of an entry with a literal can be written as a text or as an object. In a text, the
sign between two sides that have no character of a sign in them is the one that is found, and the
text is cut there, whatever blanks stand around the sides (`Condition.ofText_sides`). The side that
names an entry is a reference to it and the other one a literal, which is what the object says
(`Operand.ofChars_lead`, `Operand.ofChars_literal`, `Condition.ofTable_relation`). Both ways read
the same entry and compare it alike, a flag only if it is there and a truth value: as an operand a
flag always has a truth value, and as an object it is taken as it is
(`Condition.holds_comparison`).
-/

namespace Colloquy

namespace Sign

/-- The characters that signs are made of. -/
def marks : List Char := ['<', '>', '=', '!']

theorem text_marks (sign : Sign) : ∃ c cs, sign.text.toList = c :: cs ∧ c ∈ marks := by
  cases sign <;> exact ⟨_, _, rfl, by decide⟩

/-- No sign is part of one that is looked for after it: it has more of some character. -/
theorem all_split (sign : Sign) : ∃ before after, all = before ++ sign :: after ∧
    ∀ t ∈ before, ∃ c ∈ marks, sign.text.toList.count c < t.text.toList.count c := by
  have split : ∃ before after, all = before ++ sign :: after ∧ (before.all fun t =>
      marks.any fun c => sign.text.toList.count c < t.text.toList.count c) = true := by
    cases sign
    case ge => exact ⟨[], _, rfl, rfl⟩
    case le => exact ⟨[.ge], _, rfl, rfl⟩
    case ne => exact ⟨[.ge, .le], _, rfl, rfl⟩
    case eqEq => exact ⟨[.ge, .le, .ne], _, rfl, rfl⟩
    case gt => exact ⟨[.ge, .le, .ne, .eqEq], _, rfl, rfl⟩
    case lt => exact ⟨[.ge, .le, .ne, .eqEq, .gt], _, rfl, rfl⟩
    case eq => exact ⟨[.ge, .le, .ne, .eqEq, .gt, .lt], _, rfl, rfl⟩
  simpa only [List.all_eq_true, List.any_eq_true, decide_eq_true_eq] using split

end Sign

/-- A text that can stand on one side of a sign: it is not empty, has no blanks around it, and none
of its characters is one of a sign. -/
structure Text.IsSide (cs : List Char) : Prop where
  nonempty : cs ≠ []
  stripped : Text.strip cs = cs
  unsigned : ∀ c ∈ cs, c ∉ Sign.marks

/-- A text that can be a part of a phrase: it is not blank, and none of its characters is one of a
sign. -/
structure Text.IsPart (cs : List Char) : Prop where
  inked : Text.strip cs ≠ []
  unsigned : ∀ c ∈ cs, c ∉ Sign.marks

namespace Text.IsPart

variable {cs : List Char} (part : Text.IsPart cs)
include part

theorem isSide : IsSide (strip cs) := by
  obtain ⟨w, w', -, -, he⟩ := exists_trim isBlank cs
  refine ⟨part.inked, strip_strip cs, fun c hc => part.unsigned c ?_⟩
  exact he ▸ List.mem_append_left _ (List.mem_append_right _ hc)

theorem dropEnd_unsigned : ∀ c ∈ dropEnd isBlank cs, c ∉ Sign.marks := fun c hc =>
  part.unsigned c ((dropEnd_begins isBlank cs).subset hc)

end Text.IsPart

theorem Text.unsigned_of_all {cs : List Char}
    (h : (cs.all fun c => !Sign.marks.contains c) = true) : ∀ c ∈ cs, c ∉ Sign.marks := by
  simpa using h

namespace Condition

/-! ## Signs in a text -/

theorem findSign_none {cs : List Char} (h : ∀ c ∈ cs, c ∉ Sign.marks) : findSign cs = none := by
  refine List.find?_eq_none.2 fun sign _ hc => ?_
  obtain ⟨m, ms, ht, hm⟩ := sign.text_marks
  have hn : cs.count m = 0 := List.count_eq_zero.2 fun hc => h m hc hm
  rw [Text.contains_eq_false (c := m) (by simp [hn, ht])] at hc
  exact absurd hc nofun

theorem breakAt?_sign {left right : List Char} (sign : Sign) (h : ∀ c ∈ left, c ∉ Sign.marks) :
    Text.breakAt? sign.text.toList (left ++ sign.text.toList ++ right) = some (left, right) := by
  obtain ⟨m, ms, ht, hm⟩ := sign.text_marks
  rw [ht]
  exact Text.breakAt?_append fun hc => h m hc hm

/-- The sign between two texts that have no character of a sign is the one that is found. -/
theorem findSign_between {left right : List Char} (sign : Sign)
    (hl : ∀ c ∈ left, c ∉ Sign.marks) (hr : ∀ c ∈ right, c ∉ Sign.marks) :
    findSign (left ++ sign.text.toList ++ right) = some sign := by
  obtain ⟨before, after, ha, hb⟩ := sign.all_split
  refine List.find?_eq_some_iff_append.2 ⟨?_, before, after, ha, fun t ht => ?_⟩
  · rw [Text.contains, breakAt?_sign sign hl]
    rfl
  · -- a sign that is looked for before needs more of a character than the text has
    obtain ⟨c, hc, hlt⟩ := hb t ht
    have hcl : left.count c = 0 := List.count_eq_zero.2 fun h => hl c h hc
    have hcr : right.count c = 0 := List.count_eq_zero.2 fun h => hr c h hc
    rw [Text.contains_eq_false (c := c) (by
      rwa [List.count_append, List.count_append, hcl, hcr, Nat.zero_add, Nat.add_zero])]
    rfl

theorem blank_unsigned {c : Char} (h : Text.isBlank c) : c ∉ Sign.marks := by
  intro hc
  simp only [Sign.marks, List.mem_cons, List.not_mem_nil, or_false] at hc
  rcases hc with rfl | rfl | rfl | rfl <;> exact absurd h (by decide)

end Condition

/-! ## Sides -/

namespace Operand

/-- The operand that refers to an entry. -/
def entry : Space → String → Operand
  | .flag, key => .flag key
  | .context, key => .context key
  | .quest, key => .quest key

end Operand

namespace Space

/-- What comes after the word for a part of the store is trimmed at its end only. -/
theorem strip_lead (space : Space) {cs : List Char} (h : Text.strip cs ≠ []) :
    Text.strip (space.lead.toList ++ cs) = space.lead.toList ++ Text.dropEnd Text.isBlank cs := by
  refine Text.strip_append ?_ h
  cases space <;> exact ⟨_, _, rfl, by decide⟩

theorem isSide_lead_append (space : Space) {cs : List Char} (part : Text.IsPart cs) :
    Text.IsSide (space.lead.toList ++ Text.dropEnd Text.isBlank cs) := by
  have lead : ∀ c ∈ space.lead.toList, c ∉ Sign.marks := by
    cases space <;> exact Text.unsigned_of_all rfl
  have inked : Text.strip (Text.dropEnd Text.isBlank cs) ≠ [] := by
    rw [Text.strip, Text.trim_dropEnd]
    exact part.inked
  refine ⟨List.append_ne_nil_of_right_ne_nil _ (Text.dropEnd_ne_nil part.inked), ?_, fun c hc =>
    (List.mem_append.1 hc).elim (lead c) (part.dropEnd_unsigned c)⟩
  rw [space.strip_lead inked, Text.dropEnd_dropEnd]

theorem isSide_lead (space : Space) {key : String} (hk : Text.IsSide key.toList) :
    Text.IsSide (space.lead ++ key).toList := by
  have trimmed : Text.dropEnd Text.isBlank key.toList = key.toList :=
    Text.dropEnd_eq_self_iff.2 (Text.trim_eq_self_iff.1 hk.stripped).2
  have part : Text.IsPart key.toList := ⟨by rw [hk.stripped]; exact hk.nonempty, hk.unsigned⟩
  rw [String.toList_append, ← trimmed]
  exact space.isSide_lead_append part

theorem after?_lead {s t : Space} (h : s ≠ t) (key : List Char) :
    Text.after? s.lead (t.lead.toList ++ key) = none := by
  cases s <;> cases t <;> first | exact absurd rfl h | rfl

theorem ofDatum?_name (space : Space) : ofDatum? (.text space.name) = some space := by
  cases space <;> rfl

end Space

section conditions
variable [Text.Halves]

namespace Operand

/-- The literal that a text denotes: a truth value, a number, or itself. -/
def denoted (cs : List Char) : Scalar :=
  if cs = "true".toList then .bool true
  else if cs = "false".toList then .bool false
  else numberOrText cs

omit [Text.Halves] in
theorem ofChars_lead (space : Space) (key : String) :
    ofChars (space.lead.toList ++ key.toList) = entry space key := by
  have here := Text.after?_append space.lead key.toList
  have other : ∀ s ≠ space, Text.after? s.lead (space.lead.toList ++ key.toList) = none :=
    fun s hs => Space.after?_lead hs key.toList
  unfold ofChars
  cases space with
  | context => simp only [here, entry, String.ofList_toList]
  | flag => simp only [here, other .context nofun, entry, String.ofList_toList]
  | quest => simp only [here, other .context nofun, other .flag nofun, entry, String.ofList_toList]

omit [Text.Halves] in
theorem ofChars_literal {cs : List Char} (h : ∀ space : Space, ¬ space.lead.toList <+: cs) :
    ofChars cs = .literal (denoted cs) := by
  have none := fun space => Text.after?_eq_none (h space)
  unfold ofChars denoted
  simp only [none]
  split_ifs <;> rfl

end Operand

namespace Condition

omit [Text.Halves] in
/-- A text with a sign between two sides is the comparison of the two, whatever blanks stand around
them. -/
theorem ofText_sides {l r w₁ w₂ w₃ w₄ : List Char} (hl : Text.IsSide l) (hr : Text.IsSide r)
    (sign : Sign) (h₁ : ∀ c ∈ w₁, Text.isBlank c) (h₂ : ∀ c ∈ w₂, Text.isBlank c)
    (h₃ : ∀ c ∈ w₃, Text.isBlank c) (h₄ : ∀ c ∈ w₄, Text.isBlank c) :
    ofText (String.ofList (w₁ ++ l ++ w₂ ++ sign.text.toList ++ w₃ ++ r ++ w₄)) =
      .comparison (.ofChars l) sign (.ofChars r) := by
  have inner : Text.strip (w₁ ++ l ++ w₂ ++ sign.text.toList ++ w₃ ++ r ++ w₄) =
      (l ++ w₂) ++ sign.text.toList ++ (w₃ ++ r) := calc
    _ = Text.strip (w₁ ++ (l ++ (w₂ ++ sign.text.toList ++ w₃) ++ r) ++ w₄) := by
      simp only [List.append_assoc]
    _ = Text.strip (l ++ (w₂ ++ sign.text.toList ++ w₃) ++ r) := Text.trim_append h₁ h₄ _
    _ = l ++ (w₂ ++ sign.text.toList ++ w₃) ++ r :=
      Text.strip_between hl.stripped hr.stripped hl.nonempty hr.nonempty _
    _ = (l ++ w₂) ++ sign.text.toList ++ (w₃ ++ r) := by simp only [List.append_assoc]
  have left : Text.strip (l ++ w₂) = l :=
    (Text.trim_append (List.forall_mem_nil _) h₂ l).trans hl.stripped
  have right : Text.strip (w₃ ++ r) = r := by
    have ht : Text.strip (w₃ ++ r ++ []) = Text.strip r :=
      Text.trim_append h₃ (List.forall_mem_nil _) r
    rwa [List.append_nil, hr.stripped] at ht
  have unsigned : ∀ c ∈ l ++ w₂, c ∉ Sign.marks := fun c hc =>
    (List.mem_append.1 hc).elim (hl.unsigned c) fun hw => blank_unsigned (h₂ c hw)
  have unsigned' : ∀ c ∈ w₃ ++ r, c ∉ Sign.marks := fun c hc =>
    (List.mem_append.1 hc).elim (fun hw => blank_unsigned (h₃ c hw)) (hr.unsigned c)
  rw [ofText, String.toList_ofList, inner, if_neg (by simp [hl.nonempty]),
    findSign_between sign unsigned unsigned']
  simp only [compared, breakAt?_sign sign unsigned, Option.getD_some, left, right, hl.nonempty,
    hr.nonempty, or_self, if_false]

omit [Text.Halves] in
theorem reference_strip (source : String) (make : String → Condition) {cs : List Char}
    (h : Text.strip cs ≠ []) :
    reference source make (Text.dropEnd Text.isBlank cs) =
      make (String.ofList (Text.strip cs)) := by
  rw [reference, Text.strip, Text.trim_dropEnd, ← Text.strip]
  split
  · exact absurd ‹_› h
  · rfl

omit [Text.Halves] in
/-- A text that names an entry and nothing else refers to it; blanks around the name do not
count. -/
theorem ofText_lead (space : Space) {w cs : List Char} (hw : ∀ c ∈ w, Text.isBlank c)
    (part : Text.IsPart cs) : ofText (String.ofList (w ++ (space.lead.toList ++ cs))) =
      referenceIn space (String.ofList (Text.strip cs)) := by
  have named := space.isSide_lead_append part
  have whole : Text.strip (w ++ (space.lead.toList ++ cs)) =
      space.lead.toList ++ Text.dropEnd Text.isBlank cs := by
    have h := Text.trim_append hw (List.forall_mem_nil _) (space.lead.toList ++ cs)
    rw [List.append_nil] at h
    exact h.trans (space.strip_lead part.inked)
  have here := Text.after?_append space.lead (Text.dropEnd Text.isBlank cs)
  have other : ∀ s ≠ space,
      Text.after? s.lead (space.lead.toList ++ Text.dropEnd Text.isBlank cs) = none :=
    fun s hs => Space.after?_lead hs _
  have refers := fun source make => reference_strip source make part.inked
  rw [ofText, String.toList_ofList, whole, if_neg named.nonempty, findSign_none named.unsigned]
  cases space with
  | flag => simp only [here, refers, referenceIn]
  | context => simp only [here, other .flag nofun, refers, referenceIn]
  | quest => simp only [here, other .flag nofun, other .context nofun, refers, referenceIn]

omit [Text.Halves] in
theorem ofText_reference (space : Space) {key : String} {w₁ w₂ : List Char}
    (hk : Text.IsSide key.toList) (h₁ : ∀ c ∈ w₁, Text.isBlank c)
    (h₂ : ∀ c ∈ w₂, Text.isBlank c) :
    ofText (String.ofList (w₁ ++ (space.lead ++ key).toList ++ w₂)) = referenceIn space key := by
  have stripped : Text.strip (key.toList ++ w₂) = key.toList :=
    (Text.trim_append (List.forall_mem_nil _) h₂ key.toList).trans hk.stripped
  have part : Text.IsPart (key.toList ++ w₂) := ⟨by rw [stripped]; exact hk.nonempty, fun c hc =>
    (List.mem_append.1 hc).elim (hk.unsigned c) fun hw => blank_unsigned (h₂ c hw)⟩
  rw [String.toList_append, List.append_assoc, List.append_assoc, ofText_lead space h₁ part,
    stripped, String.ofList_toList]

/-! ## Objects -/

theorem ofTable_reference {es : Table Datum} {space : Space} {key : String} (hk : key ≠ "")
    (type : es.field "type" = .text space.name) (named : es.field "key" = .text key)
    (bare : es.field "operator" = .null) : ofTable es = .ok (referenceIn space key) := by
  simp only [ofTable, type, space.ofDatum?_name, named, if_neg hk, bare]

/-- An object with a sign for its operator tests the relation that the sign stands for. -/
theorem ofTable_relation {es : Table Datum} {space : Space} {key : String} {sign : Sign}
    (hk : key ≠ "") (type : es.field "type" = .text space.name)
    (named : es.field "key" = .text key) (operator : es.field "operator" = .text sign.text) :
    ofTable es = .ok (.check space key (.relation sign.relation) (es.field "value")) := by
  have meant : testOf? (.text sign.text) = some (.relation sign.relation) := by
    cases sign <;> rfl
  simp only [ofTable, type, space.ofDatum?_name, named, if_neg hk, operator, meant]

/-! ## What holds -/

/-- Comparing with a literal always comes to something. -/
theorem compare_scalar (h : Heap) (a : Value) (r : Relation) (x : Scalar) :
    ∃ b, a.compare h r (.scalar x) = .ok b := by
  have same : ∃ b, a.looselySame h (.scalar x) = .ok b := by
    have known : ∃ b, h.equal? a (.scalar x) = some b := by cases a <;> exact ⟨_, rfl⟩
    obtain ⟨b, hb⟩ := known
    exact ⟨_, by rw [Value.looselySame, hb]⟩
  obtain ⟨b, hb⟩ := same
  cases r with
  | equals => exact ⟨b, hb⟩
  | notEquals => exact ⟨!b, by rw [Value.compare, hb]; rfl⟩
  | greater | less | greaterEquals | lessEquals => exact ⟨_, rfl⟩

/-- A comparison and a test of the same value, or of none, come to the same. -/
theorem holds_alike {s : Store} {space : Space} {key : String} {v : Option Value}
    (operand : (Operand.entry space key).resolve s = v)
    (value : actual s space key = v.map fun a => (s.context.heap, a)) (sign : Sign) (x : Scalar) :
    ∃ b, (comparison (.entry space key) sign (.literal x)).holds s = .ok b ∧
      (check space key (.relation sign.relation) (.scalar x)).holds s = .ok b := by
  cases v with
  | none => exact ⟨false, by simp only [holds, operand], by simp only [holds, value, Option.map]⟩
  | some a =>
    obtain ⟨b, hb⟩ := compare_scalar s.context.heap a sign.relation x
    have literal : (Operand.literal x).resolve s = some (.scalar x) := rfl
    refine ⟨b, ?_, ?_⟩
    · simp only [holds, operand, literal, hb]
    · simp only [holds, value, Option.map_some, passes, Heap.hold, hb]

/-- The comparison of an entry with a literal holds where the test of its value does; for a flag,
where there is one with a truth value. -/
theorem holds_comparison {s : Store} {space : Space} {key : String}
    (truth : space = .flag → ∃ b, s.flag? (.text key) = some (.bool b)) (sign : Sign)
    (x : Scalar) : ∃ b,
      (comparison (.entry space key) sign (.literal x)).holds s = .ok b ∧
        (check space key (.relation sign.relation) (.scalar x)).holds s = .ok b := by
  cases space with
  | context => exact holds_alike rfl rfl sign x
  | quest =>
    refine holds_alike rfl ?_ sign x
    rw [Operand.entry, Operand.resolve, Option.map_map]
    rfl
  | flag =>
    obtain ⟨b, hb⟩ := truth rfl
    -- the operand reads a truth value in any case, and the same one just because it is one
    have read : s.flag (.text key) = b := by rw [Store.flag, hb]; rfl
    refine holds_alike (v := some (.scalar (.bool b))) ?_ ?_ sign x
    · rw [Operand.entry, Operand.resolve, read]
    · rw [actual, hb]
      rfl

/-- The comparison of an entry with a literal can be written as a text or as an object, and the two
hold in the same stores, if the name of the entry and the literal can stand at the sides of a sign;
those of a flag in the stores that have it with a truth value. Without a comparison, text and object
are the same reference. -/
theorem phrasings_agree (space : Space) {key : String} (hk : Text.IsSide key.toList)
    {w₁ w₂ : List Char} (h₁ : ∀ c ∈ w₁, Text.isBlank c) (h₂ : ∀ c ∈ w₂, Text.isBlank c) :
    (∀ (sign : Sign) (value : String) (w₃ w₄ : List Char), Text.IsSide value.toList →
      (∀ other : Space, ¬ other.lead.toList <+: value.toList) →
      (∀ c ∈ w₃, Text.isBlank c) → (∀ c ∈ w₄, Text.isBlank c) →
      let phrase := w₁ ++ (space.lead ++ key).toList ++ w₂ ++ sign.text.toList ++ w₃ ++
        value.toList ++ w₄
      let x := Operand.denoted value.toList
      ∃ written described, ofDatum (.text (String.ofList phrase)) = .ok written ∧
        ofDatum (.object [("type", .text space.name), ("key", .text key),
          ("operator", .text sign.text), ("value", .scalar x)]) = .ok described ∧
        ∀ s : Store, (space = .flag → ∃ b, s.flag? (.text key) = some (.bool b)) →
          ∃ b, written.holds s = .ok b ∧ described.holds s = .ok b) ∧
    ofDatum (.text (String.ofList (w₁ ++ (space.lead ++ key).toList ++ w₂))) =
      .ok (referenceIn space key) ∧
    ofDatum (.object [("type", .text space.name), ("key", .text key)]) =
      .ok (referenceIn space key) := by
  have named : key ≠ "" := by
    rintro rfl
    exact hk.nonempty rfl
  refine ⟨fun sign value w₃ w₄ hv literal h₃ h₄ => ?_, ?_, ?_⟩
  · have hl : Text.IsSide (space.lead ++ key).toList := space.isSide_lead hk
    refine ⟨_, _, congrArg Except.ok (ofText_sides hl hv sign h₁ h₂ h₃ h₄),
      ofTable_relation named rfl rfl rfl, fun s truth => ?_⟩
    rw [String.toList_append, Operand.ofChars_lead, Operand.ofChars_literal literal]
    exact holds_comparison truth sign _
  · exact congrArg Except.ok (ofText_reference space hk h₁ h₂)
  · exact ofTable_reference named rfl rfl rfl

end Condition

end conditions

namespace Condition

attribute [local instance] Text.noHalves

/-- Where a flag is there and true, both ways to compare it with true hold. -/
theorem phrasings_agree_met :
    let described : Datum := .object [("type", .text "flag"), ("key", .text "met"),
      ("operator", .text "=="), ("value", .bool true)]
    let s := (Store.empty #[]).setFlag (.text "met") true
    Text.IsSide "met".toList ∧ Text.IsSide "true".toList ∧
      (∀ other : Space, ¬ other.lead.toList <+: "true".toList) ∧
      s.flag? (.text "met") = some (.bool true) ∧
      ∃ c d, ofDatum (.text "flag.met ==true") = .ok c ∧ ofDatum described = .ok d ∧
        c.holds s = .ok true ∧ d.holds s = .ok true := by
  intro described s
  have met : Text.IsSide "met".toList := ⟨by decide, by decide, Text.unsigned_of_all rfl⟩
  have truth : Text.IsSide "true".toList := ⟨by decide, by decide, Text.unsigned_of_all rfl⟩
  have literal : ∀ other : Space, ¬ other.lead.toList <+: "true".toList := by
    intro other
    cases other <;> decide
  have there : s.flag? (.text "met") = some (.bool true) := rfl
  have blank : ∀ c ∈ [' '], Text.isBlank c := List.forall_mem_singleton.2 rfl
  obtain ⟨agree, -⟩ := phrasings_agree .flag met (List.forall_mem_nil _) blank
  obtain ⟨c, d, hc, hd, holds⟩ := agree .eqEq "true" [] [] truth literal (List.forall_mem_nil _)
    (List.forall_mem_nil _)
  obtain ⟨b, hb, hb'⟩ := holds s fun _ => ⟨true, there⟩
  obtain rfl : check .flag "met" (.relation .equals) (.bool true) = d := Except.ok.inj hd
  have same : (check .flag "met" (.relation .equals) (.bool true)).holds s = .ok true := by
    decide +kernel
  exact ⟨met, truth, literal, there, c, _, hc, hd, hb.trans (hb'.symm.trans same), same⟩

end Condition

end Colloquy
