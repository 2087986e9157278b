import Colloquy.Files.Name
import Mathlib.Data.UInt
import Mathlib.Tactic.IntervalCases

/-!
# Names are kept as they are spelled

The bytes of a character are read as this character, whatever has begun before them
(`Utf8.decodeFrom_encode`, `Utf8.decodeFrom_begun_encode`), so a name in which no half stands for a
byte is kept as it is (`Name.kept_of_noBytes`). Halves that stand for bytes may come together to
some other character, but not to one of ASCII (`Name.exists_kept_of_byte`): a name is kept as two
points only if it is two points (`Name.kept_eq_points`).
-/

namespace Colloquy.Text.Utf8

variable {other : List UInt8 → List Char} {bytes : List UInt8} {code missing low high : ℕ}
  {b : UInt8} {r : List UInt8}

/-! ## One byte -/

theorem decodeFrom_ascii (h : b.toNat < 0x80) :
    decodeFrom other none (b :: r) = Char.ofNat b.toNat :: decodeFrom other none r := by
  rw [decodeFrom]
  exact if_pos h

theorem decodeFrom_lead (h : 0x80 ≤ b.toNat)
    (lead : lead? b.toNat = some (code, missing, low, high)) :
    decodeFrom other none (b :: r) =
      decodeFrom other (some ⟨[b], code, missing, low, high⟩) r := by
  rw [decodeFrom]
  simp only [if_neg (Nat.not_lt.2 h), lead]

theorem decodeFrom_stray (h : 0x80 ≤ b.toNat) (lead : lead? b.toNat = none) :
    decodeFrom other none (b :: r) = other [b] ++ decodeFrom other none r := by
  rw [decodeFrom]
  simp only [if_neg (Nat.not_lt.2 h), lead]

theorem decodeFrom_last (h : low ≤ b.toNat ∧ b.toNat ≤ high) (last : missing ≤ 1) :
    decodeFrom other (some ⟨bytes, code, missing, low, high⟩) (b :: r) =
      Char.ofNat (code * 64 + (b.toNat - 0x80)) :: decodeFrom other none r := by
  rw [decodeFrom]
  simp [h, last]

theorem decodeFrom_next (h : low ≤ b.toNat ∧ b.toNat ≤ high) (more : 1 < missing) :
    decodeFrom other (some ⟨bytes, code, missing, low, high⟩) (b :: r) =
      decodeFrom other (some ⟨bytes ++ [b], code * 64 + (b.toNat - 0x80), missing - 1,
        0x80, 0xBF⟩) r := by
  rw [decodeFrom]
  simp [h, Nat.not_le.2 more]

theorem decodeFrom_break (h : ¬ (low ≤ b.toNat ∧ b.toNat ≤ high)) :
    decodeFrom other (some ⟨bytes, code, missing, low, high⟩) (b :: r) =
      other bytes ++ decodeFrom other none (b :: r) := by
  rw [decodeFrom, decodeFrom]
  simp [h]

/-! ## The bytes of a character -/

theorem lead?_two {n : ℕ} (low : 0xC2 ≤ n) (high : n ≤ 0xDF) :
    lead? n = some (n - 0xC0, 1, 0x80, 0xBF) := by
  simp [lead?, low, high]

theorem lead?_three {n : ℕ} (low : 0xE0 ≤ n) (high : n ≤ 0xEF) :
    lead? n = some (n - 0xE0, 2, if n = 0xE0 then 0xA0 else 0x80,
      if n = 0xED then 0x9F else 0xBF) := by
  interval_cases n <;> rfl

theorem lead?_four {n : ℕ} (low : 0xF0 ≤ n) (high : n ≤ 0xF4) :
    lead? n = some (n - 0xF0, 3, if n = 0xF0 then 0x90 else 0x80,
      if n = 0xF4 then 0x8F else 0xBF) := by
  interval_cases n <;> rfl

/-- The bytes of a character are read as the character. -/
theorem decodeFrom_encode (c : Char) (r : List UInt8) :
    decodeFrom other none (String.utf8EncodeChar c ++ r) = c :: decodeFrom other none r := by
  have valid : c.toNat < 0xD800 ∨ 0xDFFF < c.toNat ∧ c.toNat < 0x110000 := c.valid
  have same {n : ℕ} (h : n = c.toNat) : Char.ofNat n = c := by rw [h, Char.ofNat_toNat]
  have toByte {n : ℕ} (h : n < 256) : ∃ b, UInt8.ofNat n = b ∧ b.toNat = n :=
    ⟨_, rfl, UInt8.toNat_ofNat_of_lt' h⟩
  have hv : c.val.toNat = c.toNat := rfl
  rw [String.utf8EncodeChar, hv]
  generalize c.toNat = v at valid same ⊢
  split_ifs with one two three
  · obtain ⟨b, hb, n⟩ := toByte (by omega : v < 256)
    rw [hb, List.singleton_append, decodeFrom_ascii (by omega), n, same rfl]
  · obtain ⟨b, hb, n⟩ := toByte (by omega : v / 64 % 32 + 192 < 256)
    obtain ⟨b', hb', n'⟩ := toByte (by omega : v % 64 + 128 < 256)
    have lead := lead?_two (by omega) (by omega : b.toNat ≤ _)
    rw [hb, hb', List.cons_append, List.singleton_append, decodeFrom_lead (by omega) lead,
      decodeFrom_last (by omega) le_rfl, same (by omega)]
  · obtain ⟨b, hb, n⟩ := toByte (by omega : v / 4096 % 16 + 224 < 256)
    obtain ⟨b', hb', n'⟩ := toByte (by omega : v / 64 % 64 + 128 < 256)
    obtain ⟨b'', hb'', n''⟩ := toByte (by omega : v % 64 + 128 < 256)
    have lead := lead?_three (by omega) (by omega : b.toNat ≤ _)
    rw [hb, hb', hb'', List.cons_append, List.cons_append, List.singleton_append,
      decodeFrom_lead (by omega) lead, decodeFrom_next (by split_ifs <;> omega) (by omega),
      decodeFrom_last (by omega) le_rfl, same (by omega)]
  · obtain ⟨b, hb, n⟩ := toByte (by omega : v / 262144 % 8 + 240 < 256)
    obtain ⟨b', hb', n'⟩ := toByte (by omega : v / 4096 % 64 + 128 < 256)
    obtain ⟨b'', hb'', n''⟩ := toByte (by omega : v / 64 % 64 + 128 < 256)
    obtain ⟨b₃, hb₃, n₃⟩ := toByte (by omega : v % 64 + 128 < 256)
    have lead := lead?_four (by omega) (by omega : b.toNat ≤ _)
    rw [hb, hb', hb'', hb₃, List.cons_append, List.cons_append, List.cons_append,
      List.singleton_append, decodeFrom_lead (by omega) lead,
      decodeFrom_next (by split_ifs <;> omega) (by omega),
      decodeFrom_next (by omega) (by omega),
      decodeFrom_last (by omega) le_rfl, same (by omega)]

theorem encode_cons (c : Char) : ∃ b more, String.utf8EncodeChar c = b :: more ∧
    (b.toNat < 0x80 ∨ 0xC0 ≤ b.toNat) := by
  have ofByte {n : ℕ} (h : n < 256) : (UInt8.ofNat n).toNat = n := UInt8.toNat_ofNat_of_lt' h
  rw [String.utf8EncodeChar]
  split_ifs
  all_goals
    refine ⟨_, _, rfl, ?_⟩
    rw [ofByte (by omega)]
    omega

/-- The bytes of a character break off what has begun before them. -/
theorem decodeFrom_begun_encode (hl : 0x80 ≤ low) (hh : high ≤ 0xBF) (c : Char) (r : List UInt8) :
    decodeFrom other (some ⟨bytes, code, missing, low, high⟩) (String.utf8EncodeChar c ++ r) =
      other bytes ++ c :: decodeFrom other none r := by
  obtain ⟨b, more, he, hb⟩ := encode_cons c
  rw [← decodeFrom_encode, he, List.cons_append, decodeFrom_break (by omega)]

/-! ## What has begun -/

/-- How many code points begin alike when there are bytes missing. -/
def span : ℕ → ℕ
  | 1 => 1
  | 2 => 0x40
  | _ => 0x1000

theorem span_one : span 1 = 1 := rfl

theorem span_two : span 2 = 0x40 := rfl

theorem span_three : span 3 = 0x1000 := rfl

/-- What has begun ends beyond ASCII: the bytes that may follow make a character, and not one of
ASCII. -/
structure Begun.Ripens (c : Begun) : Prop where
  missing : 0 < c.missing ∧ c.missing < 4
  low : 0x80 ≤ c.low
  high : c.high ≤ 0xBF
  least : 0x80 ≤ span c.missing * (c.code * 64 + (c.low - 0x80))
  valid : span c.missing * (c.code * 64 + (c.high - 0x80) + 1) ≤ 0xD800 ∨
    0xE000 ≤ span c.missing * (c.code * 64 + (c.low - 0x80)) ∧
      span c.missing * (c.code * 64 + (c.high - 0x80) + 1) ≤ 0x110000

theorem ripens_of_lead? {n : ℕ} (lead : lead? n = some (code, missing, low, high)) :
    Begun.Ripens ⟨bytes, code, missing, low, high⟩ := by
  simp only [lead?, Bool.and_eq_true, decide_eq_true_eq] at lead
  split_ifs at lead
  all_goals
    simp only [Option.some.injEq, Prod.mk.injEq] at lead
    obtain ⟨rfl, rfl, rfl, rfl⟩ := lead
    constructor <;> simp only [span_one, span_two, span_three] <;> omega

theorem Begun.Ripens.next {more : List UInt8} (h : Begun.Ripens ⟨bytes, code, missing, low, high⟩)
    (hb : low ≤ b.toNat ∧ b.toNat ≤ high) (hm : 1 < missing) :
    Begun.Ripens ⟨more, code * 64 + (b.toNat - 0x80), missing - 1, 0x80, 0xBF⟩ := by
  obtain ⟨hmissing, hl, hh, least, valid⟩ := h
  simp only at hmissing hl hh least valid
  obtain rfl | rfl : missing = 2 ∨ missing = 3 := by omega
  · rw [span_two] at least valid
    change Begun.Ripens ⟨_, _, 1, _, _⟩
    constructor <;> simp only [span_one] <;> omega
  · rw [span_three] at least valid
    change Begun.Ripens ⟨_, _, 2, _, _⟩
    constructor <;> simp only [span_two] <;> omega

theorem Begun.Ripens.last (h : Begun.Ripens ⟨bytes, code, missing, low, high⟩)
    (hb : low ≤ b.toNat ∧ b.toNat ≤ high) (hm : missing ≤ 1) :
    0x80 ≤ (Char.ofNat (code * 64 + (b.toNat - 0x80))).toNat := by
  obtain ⟨hmissing, hl, hh, least, valid⟩ := h
  simp only at hmissing hl hh least valid
  obtain rfl : missing = 1 := by omega
  rw [span_one] at least valid
  have isChar : (code * 64 + (b.toNat - 0x80)).isValidChar := by
    unfold Nat.isValidChar
    omega
  rw [Char.ofNat, dif_pos isChar]
  change 0x80 ≤ code * 64 + (b.toNat - 0x80)
  omega

end Colloquy.Text.Utf8

namespace Colloquy.Name

open Text Text.Utf8

variable [Text.Halves]

/-! ## Halves that stand for bytes -/

/-- The bytes of a character in a name. -/
def charBytes (c : Char) : List UInt8 :=
  if Half.isByte c then [UInt8.ofNat (Half.code c - 0xDC00)] else String.utf8EncodeChar c

theorem bytes_eq (s : String) : bytes s = s.toList.flatMap charBytes := rfl

/-- A half that stands for a byte is beyond ASCII, as is the byte, and it is what the byte shows
as. -/
theorem charBytes_of_isByte {c : Char} (h : Half.isByte c = true) :
    0x80 ≤ c.toNat ∧ ∃ b, charBytes c = [b] ∧ 0x80 ≤ b.toNat ∧ halves [b] = [c] := by
  simp only [Half.isByte, Bool.and_eq_true, decide_eq_true_eq] at h
  obtain ⟨⟨half, low⟩, high⟩ := h
  have fits : Half.code c - 0xDC00 < 256 := by omega
  have byte : (UInt8.ofNat (Half.code c - 0xDC00)).toNat = Half.code c - 0xDC00 :=
    UInt8.toNat_ofNat_of_lt' fits
  obtain ⟨i, hi⟩ := Option.isSome_iff_exists.1 half
  have beyond : Half.emptyPlanes ≤ c.toNat := by
    unfold Half.place? at hi
    split_ifs at hi with hc
    exact Nat.not_lt.1 hc
  have shown : Half.character (Half.code c) = c := by
    rw [Half.character, Half.isUnit_code, half, if_pos rfl, Half.code, hi]
    simp only [Nat.add_sub_cancel_left]
    rw [List.getD_eq_getElem?_getD, (Half.place?_eq_some hi).1, Option.getD_some]
  refine ⟨le_trans (by decide) beyond, _, if_pos ?_, ?_, ?_⟩
  · simp [Half.isByte, half, low, high]
  · omega
  · rw [halves, List.map_singleton, byte, Nat.add_sub_cancel' (by omega), shown]

/-- A part of a character that has begun with halves that stand for bytes. -/
structure Begins (c : Begun) : Prop where
  ripens : c.Ripens
  halves : ∃ d ∈ halves c.bytes, 0x80 ≤ d.toNat

/-- What has begun with halves shows as something beyond ASCII. -/
theorem exists_decodeFrom_begun : ∀ {cs : List Char} {c : Begun}, Begins c →
    ∃ d ∈ decodeFrom halves (some c) (cs.flatMap charBytes), 0x80 ≤ d.toNat
  | [], _, h => by
    rw [List.flatMap_nil, decodeFrom]
    exact h.halves
  | c :: cs, ⟨bytes, code, missing, low, high⟩, ⟨ripens, d, hd, beyond⟩ => by
    rw [List.flatMap_cons]
    by_cases hc : Half.isByte c = true
    · obtain ⟨-, b, hb, -, -⟩ := charBytes_of_isByte hc
      rw [hb, List.singleton_append]
      by_cases fits : low ≤ b.toNat ∧ b.toNat ≤ high
      · rcases Nat.lt_or_ge 1 missing with more | last
        · rw [decodeFrom_next fits more]
          refine exists_decodeFrom_begun ⟨ripens.next fits more, d, ?_, beyond⟩
          rw [halves, List.map_append]
          exact List.mem_append_left _ hd
        · rw [decodeFrom_last fits last]
          exact ⟨_, List.mem_cons_self, ripens.last fits last⟩
      · rw [decodeFrom_break fits]
        exact ⟨d, List.mem_append_left _ hd, beyond⟩
    · rw [charBytes, if_neg hc, decodeFrom_begun_encode ripens.low ripens.high]
      exact ⟨d, List.mem_append_left _ hd, beyond⟩

/-- A name with something beyond ASCII shows as one. -/
theorem exists_decodeFrom : ∀ {cs : List Char}, (∃ c ∈ cs, 0x80 ≤ c.toNat) →
    ∃ d ∈ decodeFrom halves none (cs.flatMap charBytes), 0x80 ≤ d.toNat
  | [], h => absurd h (by simp)
  | c :: cs, h => by
    rw [List.flatMap_cons]
    by_cases hc : Half.isByte c = true
    · obtain ⟨beyond, b, hb, high, shown⟩ := charBytes_of_isByte hc
      have self : ∃ d ∈ halves [b], 0x80 ≤ d.toNat := ⟨c, by simp [shown], beyond⟩
      rw [hb, List.singleton_append]
      rcases lead : lead? b.toNat with _ | ⟨code, missing, l, h⟩
      · obtain ⟨d, hd, beyond⟩ := self
        rw [decodeFrom_stray high lead]
        exact ⟨d, List.mem_append_left _ hd, beyond⟩
      · rw [decodeFrom_lead high lead]
        exact exists_decodeFrom_begun ⟨ripens_of_lead? lead, self⟩
    · rw [charBytes, if_neg hc, decodeFrom_encode]
      by_cases beyond : 0x80 ≤ c.toNat
      · exact ⟨c, List.mem_cons_self, beyond⟩
      · obtain ⟨d, hd, hbeyond⟩ := h
        have hd : d ∈ cs := (List.mem_cons.1 hd).resolve_left fun e => beyond (e ▸ hbeyond)
        obtain ⟨d, hd, hbeyond⟩ := exists_decodeFrom ⟨d, hd, hbeyond⟩
        exact ⟨d, List.mem_cons_of_mem _ hd, hbeyond⟩

/-! ## Names -/

theorem decodeFrom_noBytes {cs : List Char} (h : ∀ c ∈ cs, Half.isByte c = false) :
    decodeFrom halves none (cs.flatMap charBytes) = cs := by
  induction cs with
  | nil => rfl
  | cons c cs ih =>
    rw [List.forall_mem_cons] at h
    rw [List.flatMap_cons, charBytes, h.1, if_neg (by decide), decodeFrom_encode, ih h.2]

/-- A name in which no half stands for a byte is kept as it is. -/
theorem kept_of_noBytes {s : String} (h : ∀ c ∈ s.toList, Half.isByte c = false) : kept s = s := by
  rw [kept, bytes_eq, decodeFrom_noBytes h, String.ofList_toList]

/-- Only two points are kept as two points. -/
@[simp]
theorem kept_eq_points {s : String} : kept s = ".." ↔ s = ".." := by
  have ascii : ∀ c ∈ "..".toList, ¬ 0x80 ≤ c.toNat := fun c hc => by
    obtain rfl : c = '.' := by simpa using hc
    decide
  have points : ∀ c ∈ "..".toList, Half.isByte c = false := fun c hc =>
    Bool.eq_false_iff.2 fun hb => ascii c hc (charBytes_of_isByte hb).1
  constructor
  · intro h
    by_cases beyond : ∃ c ∈ s.toList, 0x80 ≤ c.toNat
    · obtain ⟨d, hd, beyond⟩ := exists_decodeFrom beyond
      rw [← bytes_eq, ← String.toList_ofList (l := decodeFrom _ _ _)] at hd
      change d ∈ (kept s).toList at hd
      rw [h] at hd
      exact absurd beyond (ascii d hd)
    · rw [← h, kept_of_noBytes]
      exact fun c hc => Bool.eq_false_iff.2 fun hb => beyond ⟨c, hc, (charBytes_of_isByte hb).1⟩
  · rintro rfl
    exact kept_of_noBytes points

end Colloquy.Name
