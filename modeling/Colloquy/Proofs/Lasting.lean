import Colloquy.Proofs.Written
import Mathlib.Data.List.Basic

/-!
# Texts that last in a file

A text lasts in a file if it has bytes and no line ends that are read as others
(`Text.Lasts`). What JSON is written for plain scalars lasts, at any indentation
(`Json.lasts_write?`), since it escapes carriage returns. A value that is shown in a message lasts
as well, so a value that stands for a text is a whole text (`Datum.isWhole_plain`).
-/

namespace Colloquy

variable [Text.Halves]

namespace Text

/-- Whether a text is in a file what it is: no half of a surrogate pair, no carriage return. -/
def Lasts (cs : List Char) : Prop := ∀ c ∈ cs, Half.isHalf c = false ∧ c ≠ '\r'

@[simp] theorem lasts_nil : Lasts [] := List.forall_mem_nil _

@[simp] theorem lasts_cons {c : Char} {cs : List Char} :
    Lasts (c :: cs) ↔ (Half.isHalf c = false ∧ c ≠ '\r') ∧ Lasts cs := List.forall_mem_cons

@[simp] theorem lasts_append {cs ds : List Char} : Lasts (cs ++ ds) ↔ Lasts cs ∧ Lasts ds :=
  List.forall_mem_append

theorem lasts_singleton {c : Char} (half : Half.isHalf c = false) (hc : c ≠ '\r') : Lasts [c] :=
  lasts_cons.2 ⟨⟨half, hc⟩, lasts_nil⟩

theorem Lasts.cons {c : Char} {cs : List Char} (hc : Lasts [c]) (h : Lasts cs) : Lasts (c :: cs) :=
  lasts_cons.2 ⟨hc c (List.mem_singleton_self c), h⟩

theorem isHalf_of_lt {c : Char} (h : c.toNat < 128) : Half.isHalf c = false := by
  have hc : c.toNat < Half.emptyPlanes := Nat.lt_trans h (by decide)
  rw [Half.isHalf, Half.place?, if_pos hc, Option.isSome_none]

/-- Whether a text is in ASCII and without a carriage return. -/
def isBasic (cs : List Char) : Bool := cs.all fun c => c.toNat < 128 && c != '\r'

theorem lasts_ascii {cs : List Char} (h : isBasic cs = true) : Lasts cs := by
  intro c hc
  have hc := List.all_eq_true.1 h c hc
  rw [Bool.and_eq_true, decide_eq_true_eq, bne_iff_ne] at hc
  exact ⟨isHalf_of_lt hc.1, hc.2⟩

theorem lasts_replicate {c : Char} (h : Lasts [c]) (n : ℕ) : Lasts (List.replicate n c) := by
  intro d hd
  rw [List.eq_of_mem_replicate hd]
  exact h c List.mem_cons_self

theorem lasts_flatMap {cs : List Char} {f : Char → List Char} (h : ∀ c ∈ cs, Lasts (f c)) :
    Lasts (cs.flatMap f) := by
  intro d hd
  obtain ⟨c, hc, hd⟩ := List.mem_flatMap.1 hd
  exact h c hc d hd

theorem lasts_join {sep : List Char} (hs : Lasts sep) : ∀ {parts : List (List Char)},
    (∀ cs ∈ parts, Lasts cs) → Lasts (join sep parts)
  | [], _ => lasts_nil
  | [cs], h => h cs List.mem_cons_self
  | cs :: ds :: parts, h => by
    rw [List.forall_mem_cons] at h
    rw [Json.join_cons_cons, lasts_append, lasts_append]
    exact ⟨⟨h.1, hs⟩, lasts_join hs h.2⟩

theorem lasts_toDigits {b : ℕ} (hb : 1 < b) (hb' : b ≤ 16) (n : ℕ) : Lasts (Nat.toDigits b n) := by
  have digit : ∀ d < 16, Lasts [d.digitChar] := by
    intro d hd
    refine lasts_ascii ?_
    interval_cases d
    all_goals rfl
  induction n using Nat.strongRecOn with
  | ind n ih =>
    rw [Nat.toDigits_eq_if hb]
    split_ifs with h
    · exact digit n (by omega)
    · have hd : n % b < b := Nat.mod_lt n (by omega)
      exact lasts_append.2 ⟨ih (n / b) (Nat.div_lt_self (by omega) hb), digit (n % b) (by omega)⟩

theorem isHalf_of_isWhole {s : String} (h : isWhole s = true) :
    ∀ c ∈ s.toList, Half.isHalf c = false := by
  simpa [isWhole] using h

theorem isWhole_of_lasts {s : String} (hs : Lasts s.toList) : isWhole s = true := by
  rw [isWhole, List.all_eq_true]
  intro c hc
  rw [(hs c hc).1]
  rfl

theorem lasts_ofInt (n : ℤ) : Lasts (ofInt n).toList := by
  rw [ofInt, String.toList_ofList, lasts_append]
  refine ⟨?_, lasts_toDigits (by omega) (by omega) _⟩
  split_ifs
  · exact lasts_ascii rfl
  · exact lasts_nil

end Text

open Text

/-! ## Numbers -/

namespace Layout

theorem lasts_zeros (n : ℕ) : Lasts (List.replicate n '0') :=
  lasts_replicate (lasts_ascii rfl) n

theorem lasts_positional {ds : List Char} (hd : Lasts ds) (point : ℤ) :
    Lasts (positional ds point) := by
  unfold positional
  split_ifs
  · exact .cons (lasts_ascii rfl) (.cons (lasts_ascii rfl) (lasts_append.2 ⟨lasts_zeros _, hd⟩))
  · exact lasts_append.2 ⟨lasts_append.2 ⟨hd, lasts_zeros _⟩, lasts_ascii rfl⟩
  · exact lasts_append.2 ⟨fun c hc => hd c (List.mem_of_mem_take hc),
      .cons (lasts_ascii rfl) fun c hc => hd c (List.mem_of_mem_drop hc)⟩

theorem lasts_scientific (style : Layout) {ds : List Char} (hd : Lasts ds) (power : ℤ) :
    Lasts (style.scientific ds power) := by
  have hes := lasts_toDigits (b := 10) (by omega) (by omega) power.natAbs
  have hsign : Lasts ['e', if power < 0 then '-' else '+'] := by
    split_ifs
    all_goals exact lasts_ascii rfl
  unfold scientific
  refine lasts_append.2 ⟨lasts_append.2 ⟨lasts_append.2 ⟨?_, hsign⟩, lasts_zeros _⟩, hes⟩
  split
  · exact lasts_nil
  · exact hd
  · rw [lasts_cons] at hd
    exact lasts_cons.2 ⟨hd.1, .cons (lasts_ascii rfl) hd.2⟩

theorem lasts_write (style : Layout) (infinity : Lasts style.infinity.toList)
    (notANumber : Lasts style.notANumber.toList) (x : Binary64) : Lasts (style.write x) := by
  have sign : ∀ s : Bool, Lasts (if s then ['-'] else []) := by
    rintro (_ | _)
    all_goals exact lasts_ascii rfl
  have digits : ∀ n, Lasts (Nat.toDigits 10 n) := lasts_toDigits (by omega) (by omega)
  cases x with
  | nan => exact notANumber
  | infinite s => exact lasts_append.2 ⟨sign s, infinity⟩
  | finite s u fits =>
    refine lasts_append.2 ⟨sign s, ?_⟩
    unfold magnitude
    simp only
    split_ifs
    · exact lasts_positional (digits _) _
    · exact style.lasts_scientific (digits _) _

end Layout

/-! ## Values in messages -/

theorem Text.lasts_hex (width n : ℕ) : Lasts (Quoted.hex width n) :=
  lasts_append.2 ⟨Layout.lasts_zeros _, lasts_toDigits (by omega) (by omega) n⟩

theorem Text.lasts_byCode (c : Char) : Lasts (Quoted.byCode c) := by
  unfold Quoted.byCode
  simp only
  split_ifs
  · exact .cons (lasts_ascii rfl) (.cons (lasts_ascii rfl) (lasts_hex 2 _))
  · exact .cons (lasts_ascii rfl) (.cons (lasts_ascii rfl) (lasts_hex 4 _))
  · exact .cons (lasts_ascii rfl) (.cons (lasts_ascii rfl) (lasts_hex 8 _))

theorem Text.lasts_quote {s : String} (h : isWhole s = true) : Lasts (quote s).toList := by
  have hs := isHalf_of_isWhole h
  have hq : ∀ cs, Lasts [Quoted.quoteFor cs] := by
    intro cs
    unfold Quoted.quoteFor
    split_ifs
    all_goals exact lasts_ascii rfl
  rw [quote, String.toList_ofList, Quoted.encode, List.cons_append]
  refine (hq _).cons (lasts_append.2 ⟨lasts_flatMap fun c hc => ?_, hq _⟩)
  unfold Quoted.encodeChar
  split_ifs with hquote htab hline hreturn hprint
  · have hc' : c ≠ '\r' := by
      rintro rfl
      unfold Quoted.quoteFor at hquote
      split_ifs at hquote
      all_goals cases hquote
    exact .cons (lasts_ascii rfl) (lasts_singleton (hs c hc) hc')
  · exact lasts_ascii rfl
  · exact lasts_ascii rfl
  · exact lasts_ascii rfl
  · exact lasts_singleton (hs c hc) hreturn
  · exact lasts_byCode c

theorem Text.lasts_intercalate {sep : String} (hs : Lasts sep.toList) : ∀ {parts : List String},
    (∀ s ∈ parts, Lasts s.toList) → Lasts (sep.intercalate parts).toList
  | [], _ => lasts_nil
  | [s], h => by
    rw [String.intercalate_singleton]
    exact h s List.mem_cons_self
  | s :: t :: parts, h => by
    rw [List.forall_mem_cons] at h
    rw [String.intercalate_cons_cons, String.toList_append, String.toList_append, lasts_append,
      lasts_append]
    exact ⟨⟨h.1, hs⟩, lasts_intercalate hs h.2⟩

theorem Scalar.lasts_shown {s : Scalar} (hs : s.IsPlain) : Lasts s.shown.toList := by
  cases s with
  | null => exact (lasts_ascii rfl : Lasts "None".toList)
  | bool b =>
    cases b with
    | false => exact (lasts_ascii rfl : Lasts "False".toList)
    | true => exact (lasts_ascii rfl : Lasts "True".toList)
  | int n => exact lasts_ofInt n
  | float x =>
    rw [shown, String.toList_ofList]
    exact Layout.message.lasts_write (lasts_ascii rfl) (lasts_ascii rfl) x
  | text s => exact lasts_quote hs

namespace Datum

theorem lasts_enclosed {a b : String} (ha : Lasts a.toList) (hb : Lasts b.toList)
    {parts : List String} (h : ∀ s ∈ parts, Lasts s.toList) :
    Lasts (a ++ ", ".intercalate parts ++ b).toList := by
  rw [String.toList_append, String.toList_append, lasts_append, lasts_append]
  exact ⟨⟨ha, lasts_intercalate (lasts_ascii rfl) h⟩, hb⟩

mutual

theorem lasts_shown : ∀ {d : Datum}, d.HoldsOnly Scalar.IsPlain → Lasts d.shown.toList
  | .scalar s, h => by
    rw [HoldsOnly] at h
    exact Scalar.lasts_shown h
  | .list xs, h => by
    rw [HoldsOnly] at h
    exact lasts_enclosed (lasts_ascii rfl) (lasts_ascii rfl) (lasts_shownItems h)
  | .map es, h => by
    rw [HoldsOnly] at h
    exact lasts_enclosed (lasts_ascii rfl) (lasts_ascii rfl) (lasts_shownEntries h)
  | .back _, _ => (lasts_ascii rfl : Lasts "\x7b...\x7d".toList)

theorem lasts_shownItems : ∀ {xs : List Datum}, ItemsHoldOnly Scalar.IsPlain xs →
    ∀ s ∈ shownItems xs, Lasts s.toList
  | [], _ => List.forall_mem_nil _
  | _ :: _, h => List.forall_mem_cons.2 ⟨lasts_shown h.1, lasts_shownItems h.2⟩

theorem lasts_shownEntries : ∀ {es : List (Scalar × Datum)}, EntriesHoldOnly Scalar.IsPlain es →
    ∀ s ∈ shownEntries es, Lasts s.toList
  | [], _ => List.forall_mem_nil _
  | (k, x) :: es, h => by
    refine List.forall_mem_cons.2 ⟨?_, lasts_shownEntries h.2.2⟩
    rw [String.toList_append, String.toList_append, lasts_append, lasts_append]
    exact ⟨⟨Scalar.lasts_shown h.1, lasts_ascii rfl⟩, lasts_shown h.2.1⟩

end

/-- What stands for a value as a text has no half of a surrogate pair. -/
theorem isWhole_plain {d : Datum} (h : d.HoldsOnly Scalar.IsPlain) : isWhole d.plain = true := by
  unfold plain
  split
  · rw [HoldsOnly] at h
    exact h
  · exact isWhole_of_lasts (lasts_shown h)

end Datum

/-! ## What is written -/

namespace Json

theorem lasts_escapeChar {c : Char} (hc : Half.isHalf c = false) : Lasts (escapeChar false c) := by
  have mark : Lasts ['\\'] := lasts_ascii rfl
  unfold escapeChar
  split_ifs with hquote hline hreturn htab hfeed hback hlow hascii
  · have hc' : c ≠ '\r' := by
      rintro rfl
      cases hquote
    exact mark.cons (lasts_singleton hc hc')
  · exact lasts_ascii rfl
  · exact lasts_ascii rfl
  · exact lasts_ascii rfl
  · exact lasts_ascii rfl
  · exact lasts_ascii rfl
  · exact mark.cons (.cons (lasts_ascii rfl) (lasts_hex 4 _))
  · simp at hascii
  · exact lasts_singleton hc hreturn

theorem lasts_writeText {s : String} (h : isWhole s = true) : Lasts (writeText false s) := by
  have hs := isHalf_of_isWhole h
  exact .cons (lasts_ascii rfl) (lasts_append.2
    ⟨lasts_flatMap fun c hc => lasts_escapeChar (hs c hc), lasts_ascii rfl⟩)

theorem lasts_writeScalar {s : Scalar} (hs : s.IsPlain) : Lasts (writeScalar false s) := by
  cases s with
  | null => exact lasts_ascii rfl
  | bool b => cases b <;> exact lasts_ascii rfl
  | int n => exact lasts_ofInt n
  | float x => exact numberLayout.lasts_write (lasts_ascii rfl) (lasts_ascii rfl) x
  | text s => exact lasts_writeText hs

theorem isWhole_memberName {k : Scalar} (hk : k.IsPlain) : isWhole (memberName k) = true := by
  unfold memberName
  split
  · exact hk
  · refine isWhole_of_lasts ?_
    rw [String.toList_ofList]
    exact lasts_writeScalar hk

theorem lasts_lineBreak (indent : Option ℕ) (depth : ℕ) :
    Lasts (lineBreak (.spaced indent) depth) := by
  have gap : Lasts ['\n', ' '] := lasts_ascii rfl
  exact fun c hc => gap c (by simpa using mem_lineBreak hc)

theorem lasts_separator (indent : Option ℕ) (depth : ℕ) :
    Lasts (separator (.spaced indent) depth) := by
  unfold separator
  split_ifs
  · exact .cons (lasts_ascii rfl) (lasts_lineBreak indent depth)
  · exact lasts_ascii rfl

theorem lasts_enclose {first last : Char} (hfirst : Lasts [first]) (hlast : Lasts [last])
    (indent : Option ℕ) (depth : ℕ) {parts : List (List Char)} (h : ∀ cs ∈ parts, Lasts cs) :
    Lasts (enclose (.spaced indent) depth first last parts) := by
  unfold enclose
  split_ifs
  · exact hfirst.cons hlast
  · simp only [lasts_append]
    exact ⟨⟨⟨⟨hfirst, lasts_lineBreak indent _⟩, lasts_join (lasts_separator indent _) h⟩,
      lasts_lineBreak indent _⟩, hlast⟩

mutual

theorem lasts_writeAt {indent : Option ℕ} : ∀ {depth : ℕ} {d : Datum} {cs : List Char},
    d.HoldsOnly Scalar.IsPlain → writeAt (.spaced indent) depth d = some cs → Lasts cs
  | _, .scalar s, cs, h, hw => by
    rw [Datum.HoldsOnly] at h
    rw [writeAt] at hw
    split_ifs at hw
    cases hw
    exact lasts_writeScalar h
  | depth, .list xs, cs, h, hw => by
    rw [Datum.HoldsOnly] at h
    rw [writeAt] at hw
    obtain ⟨parts, hparts, rfl⟩ := Option.map_eq_some_iff.1 hw
    exact lasts_enclose (lasts_ascii rfl) (lasts_ascii rfl) _ _ (lasts_writeItems h hparts)
  | depth, .map es, cs, h, hw => by
    rw [Datum.HoldsOnly] at h
    rw [writeAt] at hw
    obtain ⟨parts, hparts, rfl⟩ := Option.map_eq_some_iff.1 hw
    refine lasts_enclose (lasts_ascii rfl) (lasts_ascii rfl) _ _ (List.forall_mem_map.2 ?_)
    exact fun p hp => lasts_writeEntries h hparts p hp
  | _, .back _, _, _, hw => by
    rw [writeAt] at hw
    cases hw

theorem lasts_writeItems {indent : Option ℕ} : ∀ {depth : ℕ} {xs : List Datum}
    {parts : List (List Char)}, Datum.ItemsHoldOnly Scalar.IsPlain xs →
      writeItems (.spaced indent) depth xs = some parts → ∀ cs ∈ parts, Lasts cs
  | _, [], _, _, hw => by
    cases hw
    exact List.forall_mem_nil _
  | depth, x :: xs, parts, h, hw => by
    rw [writeItems] at hw
    split at hw
    · rename_i hx hxs
      cases hw
      exact List.forall_mem_cons.2 ⟨lasts_writeAt h.1 hx, lasts_writeItems h.2 hxs⟩
    · cases hw

theorem lasts_writeEntries {indent : Option ℕ} : ∀ {depth : ℕ} {es : List (Scalar × Datum)}
    {parts : List (String × List Char)}, Datum.EntriesHoldOnly Scalar.IsPlain es →
      writeEntries (.spaced indent) depth es = some parts → ∀ p ∈ parts, Lasts (entryText p)
  | _, [], _, _, hw => by
    cases hw
    exact List.forall_mem_nil _
  | depth, (k, x) :: es, parts, h, hw => by
    rw [writeEntries] at hw
    split at hw
    · rename_i hx hes
      cases hw
      refine List.forall_mem_cons.2 ⟨?_, lasts_writeEntries h.2.2 hes⟩
      have hname : isWhole (memberName k) = true := isWhole_memberName h.1
      exact lasts_append.2
        ⟨lasts_append.2 ⟨lasts_writeText hname, lasts_ascii rfl⟩, lasts_writeAt h.2.1 hx⟩
    · cases hw

end

/-- What is written of a value lasts in a file. -/
theorem lasts_write? {indent : Option ℕ} {d : Datum} (plain : d.HoldsOnly Scalar.IsPlain)
    {s : String} (h : write? (.spaced indent) d = some s) : Lasts s.toList := by
  rw [write?_eq] at h
  obtain ⟨cs, hcs, rfl⟩ := Option.map_eq_some_iff.1 h
  rw [String.toList_ofList]
  exact lasts_writeAt plain hcs

end Json

end Colloquy
