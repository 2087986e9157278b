import Colloquy.Proofs.Served
import Mathlib.Data.List.Nodup

/-!
# What is listed

Paths are in a strict order (`Shelf.before_trans`, `Shelf.eq_of_not_before`), and the listing has
each path below the root whose name is one of a dialogue file once, in this order. So it lists the
dialogue files, which are all found by their paths, but folders of such names as well, which are not
(`Shelf.lists_names`).
-/

namespace Colloquy

/-! ## Paths below an entry -/

namespace Entry

theorem sublist_descendantsIn {n : String} {f : Entry} : ∀ {es : List (String × Entry)},
    (n, f) ∈ es → ([n] :: (f.descendants.map (·.1)).map (n :: ·)).Sublist
      ((descendantsIn es).map (·.1))
  | [], h => absurd h (by simp)
  | (m, g) :: es, h => by
    have paths : (descendantsIn ((m, g) :: es)).map (·.1) =
        ([m] :: (g.descendants.map (·.1)).map (m :: ·)) ++ (descendantsIn es).map (·.1) := by
      simp [descendantsIn, Function.comp_def]
    rw [paths]
    rcases List.mem_cons.1 h with h | h
    · cases h
      exact List.sublist_append_left _ _
    · exact (sublist_descendantsIn h).trans (List.sublist_append_right _ _)

/-- Where no path is there twice, an entry of a folder is the one that its name leads to. -/
theorem lookup_of_mem {n : String} {f : Entry} : ∀ {es : List (String × Entry)},
    ((descendantsIn es).map (·.1)).Nodup → (n, f) ∈ es → es.lookup n = some f
  | [], _, h => absurd h (by simp)
  | (m, g) :: es, distinct, h => by
    rcases List.mem_cons.1 h with h | h
    · cases h
      exact List.lookup_cons_self
    · have first : [n] ∈ (descendantsIn es).map (·.1) :=
        (sublist_descendantsIn h).subset List.mem_cons_self
      rw [descendantsIn, List.cons_append, List.map_cons, List.map_append, List.nodup_cons,
        List.mem_append, not_or] at distinct
      have other : (n == m) = false := beq_false_of_ne fun e => distinct.1.2 (e ▸ first)
      rw [List.lookup_cons, other]
      exact lookup_of_mem (List.nodup_append.1 distinct.2).2.1 h

theorem nodup_of_find? : ∀ {path : List String} {e x : Entry},
    (e.descendants.map (·.1)).Nodup → e.find? path = some x → (x.descendants.map (·.1)).Nodup
  | [], _, _, distinct, h => by
    cases h
    exact distinct
  | n :: rest, e, x, distinct, h => by
    obtain ⟨es, f, rfl, hf, hx⟩ := find?_cons_eq_some.1 h
    obtain ⟨before, after, rfl, -⟩ := List.lookup_eq_some_iff.1 hf
    have inner := distinct.sublist (sublist_descendantsIn (n := n) (f := f) (by simp))
    exact nodup_of_find? (List.nodup_cons.1 inner).2.of_map hx

/-- What lies below an entry is what paths from it lead to. -/
theorem mem_descendants : ∀ {path : List String} {e x : Entry},
    (e.descendants.map (·.1)).Nodup →
      ((path, x) ∈ e.descendants ↔ path ≠ [] ∧ e.find? path = some x)
  | path, e, x, distinct => by
    refine ⟨fun h => ?_, fun h => mem_descendants_of_find? h.1 h.2⟩
    cases e with
    | file => cases h
    | folder es =>
      obtain ⟨n, f, hf, h⟩ := mem_descendantsIn.1 h
      have found := lookup_of_mem distinct hf
      rcases h with h | ⟨⟨rest, y⟩, hy, h⟩
      · cases h
        exact ⟨List.cons_ne_nil _ _, find?_cons_eq_some.2 ⟨es, x, rfl, found, rfl⟩⟩
      · cases h
        have step : (folder es).find? [n] = some f :=
          find?_cons_eq_some.2 ⟨es, f, rfl, found, rfl⟩
        have inner := nodup_of_find? distinct step
        exact ⟨List.cons_ne_nil _ _, find?_cons_eq_some.2 ⟨es, f, rfl, found,
          ((mem_descendants inner).1 hy).2⟩⟩
termination_by path => path.length

end Entry

section listing

variable [Text.Halves]

namespace Service.Shelf

/-! ## The order of paths -/

theorem before_self (as : List String) : before as as = false := by
  induction as with
  | nil => rfl
  | cons a as ih => simp [before, ih, Text.before, Text.areBefore_irrefl]

theorem before_trans {as bs cs : List String} (hab : before as bs = true)
    (hbc : before bs cs = true) : before as cs = true := by
  induction as generalizing bs cs with
  | nil => cases bs <;> cases cs <;> simp_all [before]
  | cons a as ih =>
    cases bs with
    | nil => simp [before] at hab
    | cons b bs =>
      cases cs with
      | nil => simp [before] at hbc
      | cons c cs =>
        simp only [before, Bool.or_eq_true, Bool.and_eq_true, beq_iff_eq] at hab hbc ⊢
        rcases hab with hab | ⟨rfl, hab⟩ <;> rcases hbc with hbc | ⟨rfl, hbc⟩
        · exact .inl (Text.areBefore_trans hab hbc)
        · exact .inl hab
        · exact .inl hbc
        · exact .inr ⟨rfl, ih hab hbc⟩

theorem before_asymm {as bs : List String} (h : before as bs = true) : before bs as = false := by
  by_contra hba
  have self := before_trans h (by simpa using hba)
  rw [before_self] at self
  cases self

theorem eq_of_not_before : ∀ {as bs : List String}, before as bs = false →
    before bs as = false → as = bs
  | [], [], _, _ => rfl
  | [], _ :: _, h, _ => absurd h (by simp [before])
  | _ :: _, [], _, h => absurd h (by simp [before])
  | a :: as, b :: bs, hab, hba => by
    simp only [before, Bool.or_eq_false_iff] at hab hba
    obtain rfl : a = b := String.toList_inj.1 (Text.eq_of_not_areBefore hab.1 hba.1)
    simp only [BEq.rfl, Bool.true_and] at hab hba
    rw [eq_of_not_before hab.2 hba.2]

theorem before_or_eq (as bs : List String) :
    before as bs = true ∨ as = bs ∨ before bs as = true := by
  rcases hab : before as bs
  · rcases hba : before bs as
    · exact .inr (.inl (eq_of_not_before hab hba))
    · exact .inr (.inr rfl)
  · exact .inl rfl

/-- Paths that are all different are put in their strict order. -/
theorem pairwise_before {paths : List (List String)} (distinct : paths.Nodup) :
    (paths.mergeSort fun a b => !before b a).Pairwise fun a b => before a b = true := by
  have other {a b : List String} (h : before b a = false) (ne : a ≠ b) : before a b = true := by
    rcases before_or_eq a b with hab | rfl | hba
    · exact hab
    · exact absurd rfl ne
    · rw [h] at hba
      cases hba
  have trans (a b c : List String) (hab : (!before b a) = true) (hbc : (!before c b) = true) :
      (!before c a) = true := by
    rw [Bool.not_eq_true'] at hab hbc ⊢
    by_cases ne : a = b
    · rwa [ne]
    · by_cases ne' : b = c
      · rwa [← ne']
      · exact before_asymm (before_trans (other hab ne) (other hbc ne'))
  have total (a b : List String) : (!before b a || !before a b) = true := by
    rcases h : before a b
    · rw [Bool.not_false, Bool.or_true]
    · rw [before_asymm h]
      rfl
  have sorted := List.pairwise_mergeSort trans total paths
  have distinct := (List.mergeSort_perm paths fun a b => !before b a).nodup_iff.2 distinct
  exact (sorted.and distinct).imp fun ⟨h, ne⟩ => other (by rwa [Bool.not_eq_true'] at h) ne

/-! ## The listing -/

open Files

variable {s : Shelf} {home : List String}

theorem isSendable_listing (paths : List (List String)) :
    isSendable (.object [("files", .list (paths.map entryDatum))]) = true := by
  have each : ∀ paths : List (List String), areSendable (paths.map entryDatum) = true := by
    intro paths
    induction paths with
    | nil => rfl
    | cons path paths ih =>
      rw [List.map_cons, areSendable, ih, Bool.and_true]
      rfl
  change (true && (areSendable (paths.map entryDatum) && true)) = true
  rw [each]
  rfl

/-- The paths that are listed are those with the name of a dialogue file, in order. -/
theorem paths_spec (sound : s.files.IsSound) (root : s.files.locate s.root = .folder home) :
    ∃ paths, s.paths = .ok paths ∧ paths.Pairwise (fun a b => before a b = true) ∧
      ∀ path, path ∈ paths ↔ path.getLast?.any isDialogueName = true ∧
        ∃ e, s.files.top.find? (home ++ path) = some e := by
  obtain ⟨-, -, es, folder⟩ := sound.locate_folder root
  have distinct := Entry.nodup_of_find? sound.distinct folder
  rw [paths, root]
  simp only [folder]
  refine ⟨_, rfl, pairwise_before (distinct.filter _), fun path => ?_⟩
  have goes : s.files.top.find? (home ++ path) = (Entry.folder es).find? path := by
    rw [Entry.find?_append, folder]
    rfl
  rw [List.mem_mergeSort, List.mem_filter, List.mem_map, goes, and_comm, and_congr_right_iff]
  intro named
  constructor
  · rintro ⟨⟨_, e⟩, he, rfl⟩
    exact ⟨e, ((Entry.mem_descendants distinct).1 he).2⟩
  · rintro ⟨e, he⟩
    have some : path ≠ [] := by
      rintro rfl
      cases named
    exact ⟨_, (Entry.mem_descendants distinct).2 ⟨some, he⟩, rfl⟩

/-- The listing has the folders with the name of a dialogue file among the files. All that is listed
is there once, in the order of paths; a file is loaded by its path, a folder is not found. -/
theorem lists_names (sound : s.files.IsSound) (root : s.files.locate s.root = .folder home) :
    ∃ paths : List (List String),
      (∀ (v : Service) (body : Except Fault Datum), v.shelf = s → v.serve body .listing =
        (v, .ok ⟨200, some (.object [("files", .list (paths.map entryDatum))])⟩)) ∧
      paths.Pairwise (fun a b => before a b = true) ∧
      (∀ path, path ∈ paths ↔ path.getLast?.any isDialogueName = true ∧
        ∃ e, s.files.top.find? (home ++ path) = some e) ∧
      ∀ path ∈ paths, ∀ (v : Service) (k : Service → Tree → Heap → Answer), v.shelf = s →
        (∀ b, s.files.top.find? (home ++ path) = some (.file b) →
          v.withFile ("/".intercalate path) k =
            match v.readTree (s.tree (s.files.resolve s.root ++ path)) with
            | (v, .ok (t, h)) => k v t h
            | (v, .error f) => (v, refuseTree f)) ∧
        ∀ es, s.files.top.find? (home ++ path) = some (.folder es) →
          v.withFile ("/".intercalate path) k = (v, .ok .fileNotFound) := by
  obtain ⟨paths, listed, sorted, members⟩ := paths_spec sound root
  refine ⟨paths, ?_, sorted, members, ?_⟩
  · rintro v body rfl
    rw [serve, listing, listed]
    change (v, Response.send 200 _) = _
    rw [Response.send, if_pos (isSendable_listing paths)]
  · rintro path hp v k rfl
    have some : path ≠ [] := by
      rintro rfl
      cases ((members []).1 hp).1
    constructor
    · intro b h
      rw [withFile, find?_below sound root some h]
      rfl
    · intro es h
      rw [withFile, find?_below sound root some h]
      rfl

end Service.Shelf

end listing

namespace Service.Shelf

attribute [local instance] Text.noHalves

/-- Files and a folder of such names next to each other, in folders and out of them. -/
theorem lists_names_docks :
    let top : Entry := .folder [("quay.json", .folder [("b.json", .file "{}".toUTF8)]),
      ("a.JSON", .file "{}".toUTF8), (".json", .file "{}".toUTF8), ("quay", .folder [])]
    let s : Shelf := ⟨⟨top, []⟩, .ofText "."⟩
    s.files.IsSound ∧ s.files.locate s.root = .folder [] ∧
      ∃ paths : List (List String), paths.Pairwise (fun a b => before a b = true) ∧
        [".json"] ∈ paths ∧ ["quay.json"] ∈ paths ∧ ["quay.json", "b.json"] ∈ paths ∧
        ["a.JSON"] ∉ paths ∧ ["quay"] ∉ paths ∧ ∀ (v : Service) (k : Service → Tree → Heap → Answer),
          v.shelf = s → v.withFile "quay.json" k = (v, .ok .fileNotFound) := by
  intro top s
  have sound : s.files.IsSound :=
    Files.isSound_noHalves (by decide +kernel) (by decide +kernel) (by decide +kernel) ⟨_, rfl⟩
  have root : s.files.locate s.root = .folder [] := by decide +kernel
  obtain ⟨paths, -, sorted, members, loads⟩ := lists_names sound root
  have folder : ["quay.json"] ∈ paths := (members _).2 ⟨by decide +kernel, _, rfl⟩
  refine ⟨sound, root, paths, sorted, (members _).2 ⟨by decide +kernel, _, rfl⟩, folder,
    (members _).2 ⟨by decide +kernel, _, rfl⟩, fun h => ?_, fun h => ?_,
    fun v k hv => (loads _ folder v k hv).2 _ rfl⟩
  · exact absurd ((members _).1 h).1 (by decide +kernel)
  · exact absurd ((members _).1 h).1 (by decide +kernel)

/-- A folder is listed that is not found. -/
theorem lists_folder :
    let top : Entry := .folder [("dir.json", .folder [("x.txt", .file "x".toUTF8)])]
    let v : Service := { shelf := ⟨⟨top, []⟩, .ofText "."⟩ }
    let get (path : String) : Option Response :=
      (Request.make "GET" path "application/json" .nothing).toOption.map fun q => (v.handle q).2
    get "/api/dialogues" = some ⟨200, some (.object [("files", .list [.object
        [("relative_path", .text "dir.json"), ("name", .text "dir"),
          ("category", .text "root")]])])⟩ ∧
      get "/api/dialogue/dir.json" = some .fileNotFound := by
  decide +kernel

end Service.Shelf

end Colloquy
