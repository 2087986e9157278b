import Colloquy.Proofs.Arrival
import Colloquy.Proofs.Spelled
import Colloquy.Proofs.Stored
import Colloquy.Service

/-!
# Files below the root are served, and no others

Following names that are no two points leads to the file at their end, or to none
(`Files.locateFrom_plain`), and where a path with two points leads to a folder, it is the one that
normalising gives (`Files.locateFrom_normalize`). So whatever name a client sends, the file that is
found for it lies below the root; and a file below the root is found by its path from there
(`Shelf.serves_below`).
-/

namespace Colloquy

section serving

variable [Text.Halves]

/-! ## Sound trees of files -/

/-- A text that can be the name of an entry in a folder, as its bytes show it. -/
structure Name.IsProper (name : String) : Prop where
  named : name ≠ ""
  apart : name ≠ "." ∧ name ≠ ".."
  chars : ∀ c ∈ name.toList, c ≠ '/' ∧ c ≠ '\x00' ∧ Name.isBarred c = false
  kept : Name.kept name = name

instance (name : String) : Decidable (Name.IsProper name) :=
  decidable_of_iff (name ≠ "" ∧ (name ≠ "." ∧ name ≠ "..") ∧
      (name.toList.all fun c => c ≠ '/' ∧ c ≠ '\x00' ∧ Name.isBarred c = false) = true ∧
      Name.kept name = name)
    ⟨fun ⟨named, apart, chars, kept⟩ => ⟨named, apart, by simpa using chars, kept⟩,
      fun h => ⟨h.named, h.apart, by simpa using h.chars, h.kept⟩⟩

/-- Files as a system has them: no two of one path, all with proper names and with paths that are
not too long, however they are spelled; relative paths start at a folder. -/
structure Files.IsSound (fs : Files) : Prop where
  distinct : (fs.top.descendants.map (·.1)).Nodup
  proper : ∀ d ∈ fs.top.descendants, ∀ name ∈ d.1, Name.IsProper name
  short : ∀ d ∈ fs.top.descendants, ∀ names : List String, names.map Name.kept = d.1 →
    Name.size (FilePath.text ⟨"/", names⟩) ≤ Files.pathLimit
  grounded : fs.Grounded

namespace Entry

omit [Text.Halves] in
theorem mem_descendantsIn {d : List String × Entry} : ∀ {es : List (String × Entry)},
    d ∈ descendantsIn es ↔
      ∃ n f, (n, f) ∈ es ∧ (d = ([n], f) ∨ ∃ x ∈ f.descendants, d = (n :: x.1, x.2))
  | [] => by simp [descendantsIn]
  | (n, f) :: es => by
    rw [descendantsIn, List.cons_append, List.mem_cons, List.mem_append, List.mem_map,
      mem_descendantsIn]
    constructor
    · rintro (h | ⟨x, hx, rfl⟩ | ⟨m, g, hg, h⟩)
      · exact ⟨n, f, List.mem_cons_self, .inl h⟩
      · exact ⟨n, f, List.mem_cons_self, .inr ⟨x, hx, rfl⟩⟩
      · exact ⟨m, g, List.mem_cons_of_mem _ hg, h⟩
    · rintro ⟨m, g, hg, h⟩
      rcases List.mem_cons.1 hg with hg | hg
      · cases hg
        exact h.imp id fun ⟨x, hx, h⟩ => .inl ⟨x, hx, h.symm⟩
      · exact .inr (.inr ⟨m, g, hg, h⟩)

omit [Text.Halves] in
/-- What a path leads to lies below. -/
theorem mem_descendants_of_find? : ∀ {path : List String} {e x : Entry}, path ≠ [] →
    e.find? path = some x → (path, x) ∈ e.descendants
  | [], _, _, h, _ => absurd rfl h
  | n :: rest, e, x, _, h => by
    obtain ⟨es, f, rfl, hf, hx⟩ := find?_cons_eq_some.1 h
    obtain ⟨before, after, rfl, -⟩ := List.lookup_eq_some_iff.1 hf
    rw [descendants, mem_descendantsIn]
    refine ⟨n, f, by simp, ?_⟩
    rcases rest with _ | ⟨m, rest⟩
    · cases hx
      exact .inl rfl
    · exact .inr ⟨_, mem_descendants_of_find? (List.cons_ne_nil _ _) hx, rfl⟩

end Entry

namespace Files

/-! ## Paths without points -/

section locating

variable {top : Entry} {at_ names : List String}

/-- Names that are no two points lead to the file at their end, if there is one. -/
theorem locateFrom_plain {target : List String} : ∀ {names at_ : List String},
    ".." ∉ names → (∃ es, top.find? at_ = some (.folder es)) →
      (locateFrom top at_ names = .file target ↔
        names ≠ [] ∧ target = at_ ++ names ∧ ∃ b, top.find? target = some (.file b))
  | [], _, _, _ => by simp [locateFrom]
  | n :: rest, at_, plain, ⟨es, folder⟩ => by
    rw [List.mem_cons, not_or] at plain
    have goes : top.find? (at_ ++ n :: rest) = (top.find? (at_ ++ [n])).bind (·.find? rest) := by
      rw [← Entry.find?_append, List.append_assoc, List.singleton_append]
    rcases hn : top.find? (at_ ++ [n]) with _ | ⟨b⟩ | ⟨fs⟩
    · have nothing : ∀ t, locateFrom top at_ (n :: rest) ≠ .file t := by
        intro t h
        unfold locateFrom at h
        simp only [if_neg (Ne.symm plain.1), hn] at h
        split_ifs at h
      refine ⟨fun h => absurd h (nothing _), ?_⟩
      rintro ⟨-, rfl, b, hb⟩
      rw [goes, hn] at hb
      cases hb
    · unfold locateFrom
      rcases rest with _ | ⟨m, rest⟩
      · simp only [if_neg (Ne.symm plain.1), hn]
        constructor
        · intro h
          cases h
          exact ⟨List.cons_ne_nil _ _, rfl, b, hn⟩
        · rintro ⟨-, rfl, -⟩
          rfl
      · simp only [if_neg (Ne.symm plain.1), hn]
        constructor
        · intro h
          cases h
        · rintro ⟨-, rfl, b, hb⟩
          rw [goes, hn] at hb
          cases hb
    · rw [locateFrom_folder (Ne.symm plain.1) hn, locateFrom_plain plain.2 ⟨fs, hn⟩,
        List.append_assoc, List.singleton_append]
      constructor
      · rintro ⟨-, h⟩
        exact ⟨List.cons_ne_nil _ _, h⟩
      · rintro ⟨-, rfl, b, hb⟩
        refine ⟨?_, rfl, b, hb⟩
        rintro rfl
        rw [hn] at hb
        cases hb

/-- Names that are no two points lead to the folder at their end. -/
theorem locateFrom_plain_folder {es : List (String × Entry)} : ∀ {names at_ : List String},
    ".." ∉ names → top.find? (at_ ++ names) = some (.folder es) →
      locateFrom top at_ names = .folder (at_ ++ names)
  | [], at_, _, _ => by rw [locateFrom, List.append_nil]
  | n :: rest, at_, plain, h => by
    rw [List.mem_cons, not_or] at plain
    rw [← List.singleton_append, ← List.append_assoc] at h ⊢
    have through : ∃ fs, top.find? (at_ ++ [n]) = some (.folder fs) := by
      rw [Entry.find?_append, Option.bind_eq_some_iff] at h
      obtain ⟨e, he, h⟩ := h
      rcases rest with _ | ⟨m, rest⟩
      · cases h
        exact ⟨es, he⟩
      · obtain ⟨fs, -, rfl, -⟩ := Entry.find?_cons_eq_some.1 h
        exact ⟨fs, he⟩
    obtain ⟨fs, through⟩ := through
    rw [List.singleton_append, locateFrom_folder (Ne.symm plain.1) through]
    exact locateFrom_plain_folder plain.2 h

omit [Text.Halves] in
theorem normalize_append (at_ names more : List String) :
    normalize at_ (names ++ more) = normalize (normalize at_ names) more := by
  induction names generalizing at_ with
  | nil => rfl
  | cons n names ih =>
    rw [List.cons_append, normalize, normalize]
    split_ifs <;> exact ih _

omit [Text.Halves] in
theorem normalize_plain : ∀ {names at_ : List String}, ".." ∉ names →
    normalize at_ names = at_ ++ names
  | [], at_, _ => (List.append_nil at_).symm
  | n :: rest, at_, h => by
    rw [List.mem_cons, not_or] at h
    rw [normalize, if_neg (Ne.symm h.1), normalize_plain h.2, List.append_assoc,
      List.singleton_append]

omit [Text.Halves] in
/-- Normalising takes names away, and all points. -/
theorem mem_normalize {x : String} : ∀ {names at_ : List String}, x ∈ normalize at_ names →
    x ∈ at_ ∨ x ∈ names ∧ x ≠ ".."
  | [], _, h => .inl h
  | n :: rest, at_, h => by
    rw [normalize] at h
    split_ifs at h with hn
    · rcases mem_normalize h with h | h
      · exact .inl (List.mem_of_mem_dropLast h)
      · exact .inr (h.imp_left (List.mem_cons_of_mem _))
    · rcases mem_normalize h with h | h
      · rcases List.mem_append.1 h with h | h
        · exact .inl h
        · obtain rfl := List.mem_singleton.1 h
          exact .inr ⟨List.mem_cons_self, hn⟩
      · exact .inr (h.imp_left (List.mem_cons_of_mem _))

/-- A path that leads to a folder ends here, goes back, or goes through a folder. -/
theorem locateFrom_home {n : String} {rest home : List String} (hn : n ≠ "..")
    (h : locateFrom top at_ (n :: rest) = .folder home) :
    (∃ es, top.find? (at_ ++ [n]) = some (.folder es)) ∧
      locateFrom top (at_ ++ [n]) rest = .folder home := by
  unfold locateFrom at h
  rw [if_neg hn] at h
  split at h
  · exact ⟨⟨_, ‹_›⟩, h⟩
  · cases h
  · cases h
  · split_ifs at h

theorem locateFrom_back (rest : List String) :
    locateFrom top at_ (".." :: rest) = locateFrom top at_.dropLast rest := by
  conv_lhs => unfold locateFrom
  rw [if_pos rfl]

/-- Where a path leads to a folder, it is where normalising leads. -/
theorem locateFrom_normalize {home : List String} : ∀ {names at_ : List String},
    (∃ es, top.find? (at_.map Name.kept) = some (.folder es)) →
      locateFrom top (at_.map Name.kept) (names.map Name.kept) = .folder home →
        home = (normalize at_ names).map Name.kept ∧ ∃ es, top.find? home = some (.folder es)
  | [], _, folder, h => by
    cases h
    exact ⟨rfl, folder⟩
  | n :: rest, at_, ⟨es, folder⟩, h => by
    have deeper : at_.map Name.kept ++ [Name.kept n] = (at_ ++ [n]).map Name.kept := by simp
    rw [List.map_cons] at h
    by_cases hn : n = ".."
    · have kept : Name.kept n = ".." := Name.kept_eq_points.2 hn
      rw [kept, locateFrom_back] at h
      rw [normalize, if_pos hn]
      have up := Entry.find?_dropLast folder
      rw [← List.map_dropLast] at h up
      exact locateFrom_normalize up h
    · have kept : Name.kept n ≠ ".." := fun h => hn (Name.kept_eq_points.1 h)
      obtain ⟨folder, h⟩ := locateFrom_home kept h
      rw [deeper] at h folder
      rw [normalize, if_neg hn]
      exact locateFrom_normalize folder h

end locating

/-! ## Whole paths -/

variable {fs : Files} {p : FilePath}

theorem refusal?_eq_none : refusal? p = none ↔
    ∀ part ∈ p.parts, ∀ c ∈ part.toList, Name.isBarred c = false ∧ c ≠ '\x00' := by
  have chars : refusal? p = none ↔ ∀ c ∈ p.parts.flatMap String.toList,
      Name.isBarred c = false ∧ c ≠ '\x00' := by
    unfold refusal?
    simp only [forall_and]
    split_ifs with barred null
    · obtain ⟨c, hc, hb⟩ := List.any_eq_true.1 barred
      exact iff_of_false nofun fun h => absurd (h.1 c hc) (by rw [hb]; decide)
    · have null := List.contains_iff_mem.1 null
      exact iff_of_false nofun fun h => h.2 _ null rfl
    · refine iff_of_true rfl ⟨fun c hc => ?_, fun c hc h => null ?_⟩
      · exact Bool.eq_false_iff.2 fun hb => barred (List.any_eq_true.2 ⟨c, hc, hb⟩)
      · exact List.contains_iff_mem.2 (h ▸ hc)
  rw [chars]
  simp only [List.mem_flatMap]
  exact ⟨fun h part hp c hc => h c ⟨part, hp, hc⟩, fun h c ⟨part, hp, hc⟩ => h part hp c hc⟩

theorem IsSound.proper_of_find? (sound : fs.IsSound) {path : List String} {e : Entry}
    (h : fs.top.find? path = some e) : ∀ name ∈ path, Name.IsProper name := by
  intro name hn
  exact sound.proper _ (Entry.mem_descendants_of_find? (List.ne_nil_of_mem hn) h) name hn

theorem IsSound.kept_of_find? (sound : fs.IsSound) {path : List String} {e : Entry}
    (h : fs.top.find? path = some e) : path.map Name.kept = path :=
  (List.map_congr_left fun name hn => (sound.proper_of_find? h name hn).kept).trans
    (List.map_id path)

theorem IsSound.origin_proper (sound : fs.IsSound) (p : FilePath) :
    ∀ name ∈ fs.origin p, Name.IsProper name := by
  obtain ⟨es, h⟩ := sound.grounded.origin p
  exact sound.proper_of_find? h

theorem IsSound.resolve_plain (sound : fs.IsSound) (p : FilePath) : ".." ∉ fs.resolve p := by
  intro h
  rcases mem_normalize h with h | ⟨-, h⟩
  · exact (sound.origin_proper p _ h).apart.2 rfl
  · exact h rfl

/-- A path that leads to a folder leads where it comes to when it is normalised. -/
theorem IsSound.locate_folder (sound : fs.IsSound) {home : List String}
    (h : fs.locate p = .folder home) :
    refusal? p = none ∧ home = (fs.resolve p).map Name.kept ∧
      ∃ es, fs.top.find? home = some (.folder es) := by
  obtain ⟨es, folder⟩ := sound.grounded.origin p
  have kept := sound.kept_of_find? folder
  rw [locate] at h
  split at h
  · cases h
  · rename_i allowed
    split_ifs at h with long
    rw [← kept] at h folder
    exact ⟨allowed, locateFrom_normalize ⟨es, folder⟩ h⟩

/-- From the top, names are followed by their bytes. -/
theorem locate_top {names : List String} (allowed : refusal? ⟨"/", names⟩ = none)
    (short : Name.size (FilePath.text ⟨"/", names⟩) ≤ pathLimit) :
    fs.locate ⟨"/", names⟩ = locateFrom fs.top [] (names.map Name.kept) := by
  rw [locate, allowed]
  exact if_neg (Nat.not_lt.2 short)

/-- Where names that are no two points lead to a file from the top, one has their path. -/
theorem IsSound.locate_file (sound : fs.IsSound) {names target : List String}
    (plain : ".." ∉ names) (h : fs.locate ⟨"/", names⟩ = .file target) :
    target = names.map Name.kept ∧ ∃ b, fs.top.find? target = some (.file b) := by
  have kept : ".." ∉ names.map Name.kept := by simpa using plain
  have top := sound.grounded.origin ⟨"/", names⟩
  rw [locate] at h
  split at h
  · cases h
  · split_ifs at h
    exact ((locateFrom_plain kept top).1 h).2

end Files

namespace FilePath

omit [Text.Halves] in
theorem leadOf_cons {c : Char} (h : c ≠ '/') (cs : List Char) : leadOf (c :: cs) = "" := by
  unfold leadOf
  split
  · exact absurd (List.cons.inj ‹_›).1 h
  · exact absurd (List.cons.inj ‹_›).1 h
  · exact absurd (List.cons.inj ‹_›).1 h
  · rfl

omit [Text.Halves] in
theorem pieces_intercalate : ∀ {path : List String}, path ≠ [] →
    (∀ name ∈ path, '/' ∉ name.toList) → pieces ("/".intercalate path) = path
  | [], h, _ => absurd rfl h
  | [name], _, h => by
    rw [pieces, String.intercalate_singleton,
      Text.splitAt_of_not_mem (h name (List.mem_singleton_self _))]
    simp
  | name :: next :: path, _, h => by
    rw [List.forall_mem_cons] at h
    have ih := pieces_intercalate (List.cons_ne_nil next path) h.2
    rw [pieces] at ih
    rw [pieces, String.intercalate_cons_cons, String.toList_append, String.toList_append]
    change (Text.splitAt '/' (name.toList ++ ['/'] ++ _)).map _ = _
    rw [List.append_assoc, List.singleton_append, Text.splitAt_append h.1, List.map_cons, ih,
      String.ofList_toList]

/-- A path of proper names is read as it is written. -/
theorem ofText_intercalate {path : List String} (some : path ≠ [])
    (h : ∀ name ∈ path, Name.IsProper name) : ofText ("/".intercalate path) = ⟨"", path⟩ := by
  have cut := pieces_intercalate some fun name hn hc => ((h name hn).chars _ hc).1 rfl
  have all : (path.filter fun part => part ≠ "" && part ≠ ".") = path :=
    List.filter_eq_self.2 fun name hn => by simp [(h name hn).named, (h name hn).apart.1]
  rw [ofText, cut, all]
  congr 1
  obtain ⟨name, more, rfl⟩ := List.exists_cons_of_ne_nil some
  have proper := h name List.mem_cons_self
  obtain ⟨c, cs, hc⟩ := List.exists_cons_of_ne_nil (mt String.toList_eq_nil_iff.1 proper.named)
  have first : c ≠ '/' := (proper.chars c (by simp [hc])).1
  cases more with
  | nil => rw [String.intercalate_singleton, hc, leadOf_cons first]
  | cons next more =>
    rw [String.intercalate_cons_cons, String.toList_append, String.toList_append, hc,
      List.cons_append, List.cons_append, leadOf_cons first]

end FilePath

/-! ## The shelf -/

namespace Service.Shelf

open Files

variable {s : Shelf} {home : List String}

/-- What is found for a name is where its path comes to: a file, if that is below the root. -/
theorem find?_some (sound : s.files.IsSound) {name : String} {names : List String}
    (h : s.find? name = .ok (some names)) :
    names = s.files.resolve (s.root.under (.ofText name)) ∧ s.files.resolve s.root <+: names ∧
      s.files.locate ⟨"/", names⟩ = .file (names.map Name.kept) := by
  have plain := sound.resolve_plain (s.root.under (.ofText name))
  rw [find?] at h
  generalize s.root.under (.ofText name) = p at *
  split at h
  · cases h
  · split_ifs at h with below
    · split at h
      · rename_i target found
        obtain rfl := Option.some.inj (Except.ok.inj h)
        refine ⟨rfl, List.isPrefixOf_iff_prefix.1 below, ?_⟩
        rw [found, (sound.locate_file plain found).1]
      · cases h
      · cases h
    · cases h

omit [Text.Halves] in
theorem resolve_under (fs : Files) (root : FilePath) {path : List String} (plain : ".." ∉ path) :
    fs.resolve (root.under ⟨"", path⟩) = fs.resolve root ++ path := by
  change normalize (fs.origin root) (root.parts ++ path) = _
  rw [normalize_append, normalize_plain plain]
  rfl

/-- The path of an entry below the root is followed to it: a file is found, a folder is not. -/
theorem find?_below (sound : s.files.IsSound) (root : s.files.locate s.root = .folder home)
    {path : List String} (some : path ≠ []) {e : Entry}
    (h : s.files.top.find? (home ++ path) = .some e) :
    s.find? ("/".intercalate path) =
      .ok (if e.isFolder then none else .some (s.files.resolve s.root ++ path)) := by
  obtain ⟨allowed, at_, -⟩ := sound.locate_folder root
  have below : ∀ name ∈ path, Name.IsProper name := fun name hn =>
    sound.proper_of_find? h name (List.mem_append_right _ hn)
  have plain : ".." ∉ path := fun hn => (below _ hn).apart.2 rfl
  have whole : ".." ∉ home ++ path := fun hn => (sound.proper_of_find? h _ hn).apart.2 rfl
  have kept : (s.files.resolve s.root ++ path).map Name.kept = home ++ path := by
    rw [List.map_append, ← at_, List.map_congr_left fun name hn => (below name hn).kept,
      List.map_id']
  have clean : ∀ part ∈ path, ∀ c ∈ part.toList, Name.isBarred c = false ∧ c ≠ '\x00' :=
    fun part hp c hc => ⟨((below part hp).chars c hc).2.2, ((below part hp).chars c hc).2.1⟩
  have asked : refusal? (s.root.under ⟨"", path⟩) = none :=
    refusal?_eq_none.2 (List.forall_mem_append.2 ⟨refusal?_eq_none.1 allowed, clean⟩)
  have opened : refusal? ⟨"/", s.files.resolve s.root ++ path⟩ = none := by
    refine refusal?_eq_none.2 (List.forall_mem_append.2 ⟨fun part hp c hc => ?_, clean⟩)
    rcases mem_normalize hp with hp | ⟨hp, -⟩
    · have proper := (sound.origin_proper s.root part hp).chars c hc
      exact ⟨proper.2.2, proper.2.1⟩
    · exact refusal?_eq_none.1 allowed part hp c hc
  have member := Entry.mem_descendants_of_find? (List.append_ne_nil_of_right_ne_nil _ some) h
  have inside : (s.files.resolve s.root).isPrefixOf (s.files.resolve s.root ++ path) = true :=
    List.isPrefixOf_iff_prefix.2 (List.prefix_append _ _)
  rw [find?, FilePath.ofText_intercalate some below, resolve_under _ _ plain, allowed, asked]
  simp only [Option.or_none, inside, if_true]
  rw [locate_top opened (sound.short _ member _ kept), kept]
  cases e with
  | file b =>
    have found := (locateFrom_plain whole (sound.grounded.origin ⟨"/", []⟩)).2
      ⟨List.append_ne_nil_of_right_ne_nil _ some, rfl, b, h⟩
    change locateFrom s.files.top [] _ = _ at found
    rw [found]
    rfl
  | folder es =>
    rw [locateFrom_plain_folder whole h]
    rfl

/-- No file outside the root is served. What a name finds is the normal form of its path, a file
strictly below the root, whose bytes are read; and every file below the root is found by its path
from there. -/
theorem serves_below (sound : s.files.IsSound)
    (root : s.files.locate s.root = .folder home) :
    home = (s.files.resolve s.root).map Name.kept ∧
      (∀ name names, s.find? name = .ok (some names) →
        names = s.files.resolve (s.root.under (.ofText name)) ∧ ".." ∉ names ∧
          ∃ path b, path ≠ [] ∧ names = s.files.resolve s.root ++ path ∧
            s.files.top.find? (home ++ path.map Name.kept) = some (.file b) ∧
            s.files.bytes ⟨"/", names⟩ = .ok b) ∧
      ∀ path b, s.files.top.find? (home ++ path) = some (.file b) →
        s.find? ("/".intercalate path) = .ok (some (s.files.resolve s.root ++ path)) := by
  obtain ⟨-, at_, es, folder⟩ := sound.locate_folder root
  refine ⟨at_, fun name names h => ?_, fun path b h => ?_⟩
  · obtain ⟨hnames, ⟨path, below⟩, found⟩ := find?_some sound h
    have plain : ".." ∉ names := hnames ▸ sound.resolve_plain _
    obtain ⟨-, b, file⟩ := sound.locate_file plain found
    have parts : names.map Name.kept = home ++ path.map Name.kept := by
      rw [← below, List.map_append, at_]
    refine ⟨hnames, plain, path, b, ?_, below.symm, parts ▸ file, ?_⟩
    · rintro rfl
      rw [parts, List.map_nil, List.append_nil, folder] at file
      cases file
    · rw [bytes, found]
      simp only [file]
  · refine find?_below sound root ?_ h
    rintro rfl
    rw [List.append_nil, folder] at h
    cases h

end Service.Shelf

end serving

attribute [local instance] Text.noHalves

/-- Without halves a name has only one spelling. -/
theorem Name.kept_noHalves (name : String) : Name.kept name = name :=
  Name.kept_of_noBytes fun c _ => by
    have none : Text.Half.place? c = none := by
      unfold Text.Half.place?
      split_ifs <;> rfl
    simp [Text.Half.isByte, Text.Half.isHalf, none]

/-- Without halves, no spelling of a path is longer than the path. -/
theorem Files.isSound_noHalves {fs : Files} (distinct : (fs.top.descendants.map (·.1)).Nodup)
    (proper : ∀ d ∈ fs.top.descendants, ∀ name ∈ d.1, Name.IsProper name)
    (short : ∀ d ∈ fs.top.descendants, Name.size (FilePath.text ⟨"/", d.1⟩) ≤ pathLimit)
    (grounded : fs.Grounded) : fs.IsSound := by
  refine ⟨distinct, proper, fun d hd names kept => ?_, grounded⟩
  obtain rfl : names = d.1 := by
    rw [← kept, List.map_congr_left fun name _ => Name.kept_noHalves name, List.map_id']
  exact short d hd

namespace Service.Shelf

open Files

/-- A root that is named by a way round, next to a folder whose name begins with its own. -/
theorem serves_below_docks :
    let top : Entry := .folder [("srv", .folder
      [("dlg", .folder [("a.json", .file "{}".toUTF8),
        ("quay", .folder [("b.json", .file "[]".toUTF8)])]),
        ("dlg-old", .folder [("x.json", .file "{}".toUTF8)])])]
    let s : Shelf := ⟨⟨top, ["srv"]⟩, .ofText "dlg-old//./../dlg/"⟩
    s.files.IsSound ∧ s.files.locate s.root = .folder ["srv", "dlg"] ∧
      s.find? "quay/b.json" = .ok (some ["srv", "dlg", "quay", "b.json"]) ∧
      s.find? "/srv/dlg-old/.././dlg//a.json" = .ok (some ["srv", "dlg", "a.json"]) ∧
      s.find? "../dlg-old/x.json" = .ok none ∧
      ∀ name names, s.find? name = .ok (some names) → ["srv", "dlg"] <+: names := by
  intro top s
  have sound : s.files.IsSound :=
    isSound_noHalves (by decide +kernel) (by decide +kernel) (by decide +kernel) ⟨_, rfl⟩
  have root : s.files.locate s.root = .folder ["srv", "dlg"] := by decide +kernel
  obtain ⟨-, below, found⟩ := serves_below sound root
  refine ⟨sound, root, found ["quay", "b.json"] _ rfl, by decide +kernel, by decide +kernel,
    fun name names h => ?_⟩
  obtain ⟨-, -, path, -, -, rfl, -⟩ := below name names h
  exact List.prefix_append _ path

end Service.Shelf

end Colloquy
