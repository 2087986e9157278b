import Colloquy.Files
import Colloquy.Proofs.Lasting

/-!
# A file is read as it was written

A file that is put where its folder is leaves all else a folder or a file as it was
(`Entry.isFolder_put`), so its path leads to it afterwards (`Files.locate_put`). Whether a text can
be saved is for its path to say, not for the text, as long as all of it has bytes
(`Files.save_fault`); and a text that lasts in a file is read again (`Files.read_save`).
-/

namespace Colloquy

/-! ## Entries -/

namespace Entry

def isFolder : Entry → Bool
  | .file _ => false
  | .folder _ => true

theorem find?_append (e : Entry) (path more : List String) :
    e.find? (path ++ more) = (e.find? path).bind (·.find? more) := by
  induction path generalizing e with
  | nil => cases e <;> rfl
  | cons name path ih =>
    cases e with
    | file => rfl
    | folder es =>
      rw [List.cons_append, find?, find?]
      split
      · exact ih _
      · rfl

theorem lookup_putIn_self (name : String) (e : Entry) : ∀ es : List (String × Entry),
    (putIn name e es).lookup name = some e
  | [] => by simp [putIn]
  | (n, old) :: es => by
    by_cases h : n = name
    · simp [putIn, h]
    · have hb : (name == n) = false := beq_false_of_ne (Ne.symm h)
      simp [putIn, h, List.lookup_cons, hb, lookup_putIn_self name e es]

theorem lookup_putIn_of_ne {name other : String} (h : other ≠ name) (e : Entry) :
    ∀ es : List (String × Entry), (putIn name e es).lookup other = es.lookup other
  | [] => by simp [putIn, h]
  | (n, old) :: es => by
    by_cases hn : n = name
    · have hb : (other == name) = false := beq_false_of_ne h
      simp [putIn, hn, List.lookup_cons, hb]
    · simp [putIn, hn, List.lookup_cons, lookup_putIn_of_ne h e es]

/-- What leads on below a folder is an entry of it. -/
theorem find?_cons_eq_some {e x : Entry} {name : String} {rest : List String} :
    e.find? (name :: rest) = some x ↔
      ∃ es f, e = .folder es ∧ es.lookup name = some f ∧ f.find? rest = some x := by
  cases e with
  | file => simp [find?]
  | folder es =>
    rw [find?]
    split
    · rename_i f hf
      simp [hf]
    · rename_i hf
      simp [hf]

theorem find?_put_self (name : String) (new : Entry) : ∀ {base : List String} {e : Entry}
    {es : List (String × Entry)}, e.find? base = some (.folder es) →
      (e.put (base ++ [name]) new).find? (base ++ [name]) = some new
  | [], e, es, h => by
    obtain rfl : e = .folder es := Option.some.inj h
    rw [List.nil_append, put, find?, lookup_putIn_self, put]
    rfl
  | n :: base, e, es, h => by
    obtain ⟨fs, f, rfl, hf, hfind⟩ := find?_cons_eq_some.1 h
    rw [List.cons_append, put, find?, lookup_putIn_self, hf]
    exact find?_put_self name new hfind

/-- What is put into a folder leaves the kind of all that does not lie below it. -/
theorem isFolder_put {name : String} (new : Entry) : ∀ {base : List String} {e : Entry}
    {es : List (String × Entry)}, e.find? base = some (.folder es) → ∀ {path : List String},
      ¬ base ++ [name] <+: path → ((e.put (base ++ [name]) new).find? path).map isFolder =
        (e.find? path).map isFolder
  | base, e, es, h, [], _ => by
    cases base with
    | nil =>
      obtain rfl : e = .folder es := Option.some.inj h
      rfl
    | cons n base =>
      obtain ⟨fs, f, rfl, -⟩ := find?_cons_eq_some.1 h
      rfl
  | [], e, es, h, p :: path, hp => by
    obtain rfl : e = .folder es := Option.some.inj h
    have hne : p ≠ name := by
      rintro rfl
      exact hp ⟨path, rfl⟩
    rw [List.nil_append, put, find?, lookup_putIn_of_ne hne, find?]
  | n :: base, e, es, h, p :: path, hp => by
    obtain ⟨fs, f, rfl, hf, hfind⟩ := find?_cons_eq_some.1 h
    rw [List.cons_append, put, find?, find?, hf]
    by_cases hpn : p = n
    · subst hpn
      have hpath : ¬ base ++ [name] <+: path := by
        rintro ⟨more, rfl⟩
        exact hp ⟨more, rfl⟩
      rw [lookup_putIn_self, hf]
      exact isFolder_put new hfind hpath
    · rw [lookup_putIn_of_ne hpn]

theorem find?_dropLast {e : Entry} {path : List String} {es : List (String × Entry)}
    (h : e.find? path = some (.folder es)) : ∃ fs, e.find? path.dropLast = some (.folder fs) := by
  rcases List.eq_nil_or_concat path with rfl | ⟨base, name, rfl⟩
  · exact ⟨es, h⟩
  · rw [List.concat_eq_append, find?_append, Option.bind_eq_some_iff] at h
    obtain ⟨f, hf, hname⟩ := h
    obtain ⟨fs, -, rfl, -⟩ := find?_cons_eq_some.1 hname
    rw [List.concat_eq_append, List.dropLast_concat]
    exact ⟨fs, hf⟩

end Entry

/-- What a path leads to that is no folder: a file, or a name that is free. -/
def Spot.target? : Spot → Option (List String)
  | .file names => some names
  | .free names => some names
  | _ => none

namespace Files

variable [Text.Halves]

/-! ## Places -/

/-- A place in a folder where no folder is. -/
structure Vacant (top : Entry) (base : List String) (name : String) : Prop where
  folder : ∃ es, top.find? base = some (.folder es)
  target : (top.find? (base ++ [name])).map Entry.isFolder ≠ some true

section locating

variable {top : Entry} {base at_ : List String} {name : String}

/-- A path that leads to no folder ends here, or goes through a folder. -/
theorem locateFrom_cases {n : String} {rest target : List String} (hn : n ≠ "..")
    (h : (locateFrom top at_ (n :: rest)).target? = some target) :
    (∃ es, top.find? (at_ ++ [n]) = some (.folder es) ∧
      (locateFrom top (at_ ++ [n]) rest).target? = some target) ∨
    (target = at_ ++ [n] ∧ rest = [] ∧ (top.find? target).map Entry.isFolder ≠ some true) := by
  unfold locateFrom at h
  rw [if_neg hn] at h
  split at h
  · rename_i es hf
    exact .inl ⟨es, hf, h⟩
  · rename_i hf
    cases h
    exact .inr ⟨rfl, rfl, by rw [hf]; nofun⟩
  · cases h
  · rename_i hf
    split_ifs at h with hlong hend
    · cases h
    · obtain rfl : at_ ++ [n] = target := Option.some.inj h
      exact .inr ⟨rfl, List.isEmpty_iff.1 hend, by rw [hf]; nofun⟩
    · cases h

theorem locateFrom_folder {n : String} {es : List (String × Entry)} (hn : n ≠ "..")
    (h : top.find? (at_ ++ [n]) = some (.folder es)) (rest : List String) :
    locateFrom top at_ (n :: rest) = locateFrom top (at_ ++ [n]) rest := by
  conv_lhs => unfold locateFrom
  simp only [if_neg hn, h]

theorem locateFrom_target {target : List String} : ∀ {names at_ : List String},
    (∃ es, top.find? at_ = some (.folder es)) →
      (locateFrom top at_ names).target? = some target →
        ∃ base name, target = base ++ [name] ∧ Vacant top base name
  | [], _, _, h => by cases h
  | n :: rest, at_, ⟨es, folder⟩, h => by
    by_cases hn : n = ".."
    · unfold locateFrom at h
      rw [if_pos hn] at h
      exact locateFrom_target (Entry.find?_dropLast folder) h
    · rcases locateFrom_cases hn h with ⟨fs, hf, h⟩ | ⟨rfl, rfl, ht⟩
      · exact locateFrom_target ⟨fs, hf⟩ h
      · exact ⟨at_, n, rfl, ⟨es, folder⟩, ht⟩

omit [Text.Halves] in
/-- What is put at a vacant place leaves all folders. -/
theorem Vacant.find?_put (hv : Vacant top base name) {path : List String}
    {es : List (String × Entry)} (h : top.find? path = some (.folder es)) (new : Entry) :
    ∃ fs, (top.put (base ++ [name]) new).find? path = some (.folder fs) := by
  obtain ⟨gs, folder⟩ := hv.folder
  have hprefix : ¬ base ++ [name] <+: path := by
    rintro ⟨more, rfl⟩
    rw [Entry.find?_append, Option.bind_eq_some_iff] at h
    obtain ⟨e, he, h⟩ := h
    refine hv.target ?_
    rw [he]
    cases more with
    | nil =>
      cases h
      rfl
    | cons =>
      obtain ⟨fs, -, rfl, -⟩ := Entry.find?_cons_eq_some.1 h
      rfl
  have hkind := Entry.isFolder_put new folder hprefix
  rw [h] at hkind
  obtain ⟨e, he, hkind⟩ := Option.map_eq_some_iff.1 hkind
  cases e with
  | file => cases hkind
  | folder fs => exact ⟨fs, he⟩

/-- Once a file is put where a path leads, the path leads to it. -/
theorem locateFrom_put (hv : Vacant top base name) (b : ByteArray) : ∀ {names at_ : List String},
    (locateFrom top at_ names).target? = some (base ++ [name]) →
      locateFrom (top.put (base ++ [name]) (.file b)) at_ names = .file (base ++ [name])
  | [], _, h => by cases h
  | n :: rest, at_, h => by
    by_cases hn : n = ".."
    · unfold locateFrom at h ⊢
      rw [if_pos hn] at h ⊢
      exact locateFrom_put hv b h
    · rcases locateFrom_cases hn h with ⟨fs, hf, h⟩ | ⟨hat, rfl, -⟩
      · obtain ⟨gs, hg⟩ := hv.find?_put hf (.file b)
        rw [locateFrom_folder hn hg]
        exact locateFrom_put hv b h
      · obtain ⟨es, folder⟩ := hv.folder
        have hself := Entry.find?_put_self name (.file b) folder
        unfold locateFrom
        rw [hat] at hself ⊢
        simp only [if_neg hn, hself]

end locating

/-! ## Files -/

variable {fs : Files} {p : FilePath}

/-- Whether relative paths start at a folder. -/
def Grounded (fs : Files) : Prop := ∃ es, fs.top.find? fs.here = some (.folder es)

omit [Text.Halves] in
theorem Grounded.origin (g : fs.Grounded) (p : FilePath) :
    ∃ es, fs.top.find? (fs.origin p) = some (.folder es) := by
  unfold Files.origin
  split_ifs
  · obtain ⟨es, h⟩ := g
    rcases hh : fs.here with _ | ⟨n, rest⟩
    · exact ⟨es, hh ▸ h⟩
    · rw [hh] at h
      obtain ⟨es, f, htop, -⟩ := Entry.find?_cons_eq_some.1 h
      exact ⟨es, congrArg some htop⟩
  · exact g

theorem locate_target (g : fs.Grounded) {target : List String}
    (h : (fs.locate p).target? = some target) :
    ∃ base name, target = base ++ [name] ∧ Vacant fs.top base name := by
  unfold locate at h
  split at h
  · cases h
  · split_ifs at h
    · cases h
    · exact locateFrom_target (g.origin p) h

omit [Text.Halves] in
theorem Grounded.put (g : fs.Grounded) {base : List String} {name : String}
    (hv : Vacant fs.top base name) (e : Entry) : (fs.put (base ++ [name]) e).Grounded := by
  obtain ⟨es, h⟩ := g
  exact hv.find?_put h e

/-- A file that is put where a path leads has its bytes. -/
theorem bytes_put (g : fs.Grounded) {target : List String}
    (h : (fs.locate p).target? = some target) (b : ByteArray) :
    (fs.put target (.file b)).bytes p = .ok b := by
  obtain ⟨base, name, rfl, hv⟩ := locate_target g h
  obtain ⟨es, folder⟩ := hv.folder
  have hself := Entry.find?_put_self name (.file b) folder
  have hlocate : (fs.put (base ++ [name]) (.file b)).locate p = .file (base ++ [name]) := by
    unfold locate at h ⊢
    split at h
    · cases h
    · split_ifs at h ⊢
      · cases h
      · exact locateFrom_put hv b h
  rw [bytes, hlocate]
  simp only [put, hself]

/-- Whether a file can be written is for its path to say, not for its bytes. -/
theorem writeBytes_cases (fs : Files) (p : FilePath) :
    (∃ target, (fs.locate p).target? = some target ∧
      ∀ b, fs.writeBytes p b = (fs.put target (.file b), none)) ∨
    ∃ f, ∀ b, fs.writeBytes p b = (fs, some f) := by
  unfold writeBytes
  cases fs.locate p with
  | file names => exact .inl ⟨names, rfl, fun _ => rfl⟩
  | free names => exact .inl ⟨names, rfl, fun _ => rfl⟩
  | folder | blocked | tooLong | refused | nowhere => exact .inr ⟨_, fun _ => rfl⟩

theorem addFolder_grounded (g : fs.Grounded) (p : FilePath) : (fs.addFolder p).1.Grounded := by
  unfold addFolder
  cases h : fs.locate p with
  | free names =>
    have target : (fs.locate p).target? = some names := by
      rw [h]
      rfl
    obtain ⟨base, name, rfl, hv⟩ := locate_target g target
    exact g.put hv _
  | folder | file | blocked | tooLong | refused | nowhere => exact g

theorem addFoldersFrom_grounded (lead : String) : ∀ {fs : Files} {up : List String},
    fs.Grounded → (fs.addFoldersFrom lead up).1.Grounded
  | fs, [], g => addFolder_grounded g _
  | fs, name :: up, g => by
    unfold addFoldersFrom
    split
    · have hup : (fs.addFoldersFrom lead up).1.Grounded := addFoldersFrom_grounded lead g
      split
      · rename_i h
        rw [h] at hup
        exact addFolder_grounded hup _
      · rename_i h
        rwa [h] at hup
    · exact addFolder_grounded g _

theorem write_whole {parts : List String} (h : ∀ s ∈ parts, Text.isWhole s = true) (fs : Files)
    (p : FilePath) : fs.write p parts = fs.writeBytes p (String.join parts).toUTF8 := by
  unfold write
  rw [Output.written_of_isWhole h]
  simp only
  split
  · rename_i hb
    exact hb.symm
  · rename_i hb
    exact hb.symm

/-- Whole texts can be saved where an empty file can. -/
theorem save_fault {parts : List String} (h : ∀ s ∈ parts, Text.isWhole s = true) (fs : Files)
    (p : FilePath) : (fs.save p parts).2 = (fs.save p []).2 := by
  unfold save
  split
  · rename_i fs' _
    rw [write_whole h, write_whole (List.forall_mem_nil _)]
    rcases writeBytes_cases fs' p with ⟨target, -, hb⟩ | ⟨f, hb⟩
    · rw [hb, hb]
    · rw [hb, hb]
  · rfl

/-- Where an empty file can be saved, so can any parts, as far as they have bytes; the file has the
bytes of what is written of them. -/
theorem save_written (g : fs.Grounded) (free : (fs.save p []).2 = none) (parts : List String) :
    (fs.save p parts).1.bytes p = .ok (Output.written parts).1.toUTF8 ∧
      (fs.save p parts).2 = (Output.written parts).2 := by
  have hf : (fs.addFolders p.parent).1.Grounded := addFoldersFrom_grounded _ g
  unfold save at free ⊢
  split at free
  · rename_i fs' hfolders
    rw [hfolders] at hf
    unfold write at free ⊢
    rcases writeBytes_cases fs' p with ⟨target, ht, hb⟩ | ⟨f, hb⟩
    · simp only [hb]
      exact ⟨bytes_put hf ht _, trivial⟩
    · simp only [hb] at free
      cases free
  · cases free

omit [Text.Halves] in
theorem unifyLineEnds_of_not_mem : ∀ {cs : List Char}, '\r' ∉ cs → Text.unifyLineEnds cs = cs
  | [], _ => rfl
  | c :: cs, h => by
    rw [List.mem_cons, not_or] at h
    rw [Text.unifyLineEnds, unifyLineEnds_of_not_mem h.2]
    · rintro r rfl
      exact absurd rfl h.1
    · rintro rfl
      exact absurd rfl h.1

omit [Text.Halves] in
theorem fromUTF8?_toUTF8 (s : String) : String.fromUTF8? s.toUTF8 = some s :=
  dif_pos s.isValidUTF8

theorem textOf_toUTF8 {s : String} (h : Text.Lasts s.toList) : textOf s.toUTF8 = .ok s := by
  have hr : '\r' ∉ s.toList := fun hr => (h '\r' hr).2 rfl
  rw [textOf, fromUTF8?_toUTF8]
  simp [unifyLineEnds_of_not_mem hr]

/-- A text that lasts is read from the file that it was saved to. -/
theorem read_save (g : fs.Grounded) {s : String} (h : Text.Lasts s.toList)
    (saved : (fs.save p [s]).2 = none) : (fs.save p [s]).1.read p = .ok s := by
  have hw : ∀ t ∈ [s], Text.isWhole t = true :=
    List.forall_mem_singleton.2 (Text.isWhole_of_lasts h)
  have hf : (fs.addFolders p.parent).1.Grounded := addFoldersFrom_grounded _ g
  unfold save at saved ⊢
  split at saved
  · rename_i fs' hfolders
    rw [hfolders] at hf
    have hjoin : String.join [s] = s := by simp
    rw [write_whole hw, hjoin] at saved ⊢
    rcases writeBytes_cases fs' p with ⟨target, ht, hb⟩ | ⟨f, hb⟩
    · rw [hb, read, bytes_put hf ht]
      exact textOf_toUTF8 h
    · rw [hb] at saved
      cases saved
  · cases saved

end Files

end Colloquy
