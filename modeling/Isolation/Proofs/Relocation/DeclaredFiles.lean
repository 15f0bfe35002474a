/-
Files that are loaded by their own path, across a relocation.

A section of a package moves the directories of its mapped paths, then puts the files that it declares back. It only
looks for them in the directories that it has moved itself: a file that one section moves and only the other one
declares stays in the target. So does a file that is moved twice.

- `relocatePaths_away`, `relocatePaths_home`: the moves of one section.
- `restoreFile_restores`: what putting back one declared file does.
- `relocate_keeps_iff`: which files one section keeps.
- `declared_file_kept`: a file that each section of a package keeps is where it was declared.
-/
import Isolation.Proofs.Relocation.Steps

namespace Isolation

namespace Relocator

open Isolation.Action

/-! ## Paths of a section -/

/-- the location of a path of the package -/
def placeOf (installDir path : String) : Location :=
  Disk.lexical [] (Text.splitAt '/' (Path.normalize (Path.join installDir path)))

/-- the directory that a mapped path names -/
def sourceAt (installDir path : String) : Location := placeOf installDir (Text.trimBoth '/' path)

/-- where a file is declared -/
def declaredAt (installDir file : String) : Location := placeOf installDir (Text.trimStart '/' file)

/-- the paths that everything is seen from are absolute, and the prefix is a namespace -/
structure Grounded (r : Relocator) (installDir : String) : Prop where
  install : Path.isAbsolute installDir = true
  staging : Path.isAbsolute r.staging = true
  segments_ne : r.vendorPrefix.segments ≠ []
  labels : r.vendorPrefix.segments.all isLabel = true

section Runs

variable {r : Relocator} {installDir package path : String} {d d' : Disk} {l : Location} {bytes : List UInt8}
  {moved moved' : List MovedDirectory} {ms sources : List Location}

namespace Grounded

theorem placeOf_eq (hr : r.Grounded installDir) (path : String) :
    Path.normalize (Path.join installDir path) = Disk.pathOf (placeOf installDir path) ∧
      PlainLocation (placeOf installDir path) := by
  obtain ⟨l, hl, hnormal⟩ := Path.normalize_eq (Path.isAbsolute_join hr.install path)
  rw [placeOf, hnormal, Disk.lexical_pathOf hl]
  exact ⟨rfl, hl⟩

theorem plain (hr : r.Grounded installDir) : PlainLocation r.vendorPrefix.segments :=
  fun label hlabel => plain_of_label (List.all_eq_true.1 hr.labels label hlabel)

theorem join_prefixPath (hr : r.Grounded installDir) {s : Location} (hs : PlainLocation s) :
    Path.join (Disk.pathOf s) r.prefixPath = Disk.pathOf (s ++ r.vendorPrefix.segments) :=
  Path.join_pathOf hs hr.plain hr.segments_ne

end Grounded

/-! ## Moves -/

/-- the locations of the directories that were moved -/
structure Places (moved : List MovedDirectory) (ms : List Location) : Prop where
  sources : moved.map (·.source) = ms.map Disk.pathOf
  plain : ∀ s ∈ ms, PlainLocation s

theorem Places.exists_moved (h : Places moved ms) {s : Location} (hs : s ∈ ms) :
    ∃ m ∈ moved, m.source = Disk.pathOf s := by
  have hmem : Disk.pathOf s ∈ moved.map (·.source) := h.sources ▸ List.mem_map_of_mem hs
  exact List.mem_map.1 hmem

theorem Places.exists_place (h : Places moved ms) {m : MovedDirectory} (hm : m ∈ moved) :
    ∃ s ∈ ms, Disk.pathOf s = m.source := by
  have hmem : m.source ∈ ms.map Disk.pathOf := h.sources ▸ List.mem_map_of_mem hm
  exact List.mem_map.1 hmem

/-- the record of one moved directory -/
def movedFrom (r : Relocator) (package : String) (s : Location) : MovedDirectory :=
  ⟨package, Disk.pathOf s, Disk.pathOf (s ++ r.vendorPrefix.segments)⟩

/-- What one path does: nothing if its directory was moved or its target is there, else its directory is moved. -/
theorem relocatePath_cases (hr : r.Grounded installDir) (ht : d.Tree) (hplaces : Places moved ms)
    (h : Ends (r.relocatePath package installDir moved path) d moved' d') :
    (moved' = moved ∧ d' = d ∧ (sourceAt installDir path ∈ ms ∨
        (d.get? (sourceAt installDir path ++ r.vendorPrefix.segments)).isSome = true)) ∨
      (sourceAt installDir path ∉ ms ∧ d.get? (sourceAt installDir path ++ r.vendorPrefix.segments) = none ∧
        Moved r.vendorPrefix.segments (sourceAt installDir path) d d' ∧
        Places moved' (sourceAt installDir path :: ms) ∧
        moved' = r.movedFrom package (sourceAt installDir path) :: moved ∧
        d.get? r.stagingAt = none ∧ ¬ sourceAt installDir path <+: r.stagingAt) := by
  obtain ⟨hsource, hplain⟩ := hr.placeOf_eq (Text.trimBoth '/' path)
  rw [← sourceAt] at hsource hplain
  have hmem : moved.any (fun m => Path.same m.source (Disk.pathOf (sourceAt installDir path))) = true ↔
      sourceAt installDir path ∈ ms := by
    rw [List.any_eq_true]
    constructor
    · rintro ⟨m, hm, hsame⟩
      obtain ⟨s, hs, hsource'⟩ := hplaces.exists_place hm
      rw [← hsource', Path.same_pathOf (hplaces.plain s hs) hplain] at hsame
      rwa [← of_decide_eq_true hsame]
    · intro hs
      obtain ⟨m, hm, hsource'⟩ := hplaces.exists_moved hs
      exact ⟨m, hm, by rw [hsource', Path.same_pathOf hplain hplain, decide_eq_true rfl]⟩
  rw [relocatePath] at h
  simp only [hsource, hr.join_prefixPath hplain] at h
  obtain ⟨_, _, hget, h⟩ := ends_bind.1 h
  obtain ⟨rfl, rfl⟩ := ends_get.1 hget
  rw [Disk.exists?_pathOf ht (hplain.append hr.plain)] at h
  split at h
  · rename_i hskip
    obtain ⟨rfl, rfl⟩ := ends_pure.1 h
    exact .inl ⟨rfl, rfl, (Bool.or_eq_true_iff.1 hskip).imp_left hmem.1⟩
  · rename_i hskip
    rw [Bool.or_eq_true, not_or, hmem, Option.not_isSome_iff_eq_none] at hskip
    obtain ⟨_, _, hmove, h⟩ := ends_bind.1 h
    obtain ⟨rfl, rfl⟩ := ends_pure.1 h
    obtain ⟨hnone, _, _, hstaged, -, -⟩ := moveDirectory_staged ht hplain hr.staging hmove
    refine .inr ⟨hskip.1, hskip.2, moveDirectory_moved ht hplain hr.plain hr.staging hmove, ⟨?_, ?_⟩, rfl, hnone,
      hstaged.not_inside⟩
    · rw [List.map_cons, List.map_cons, hplaces.sources]
    · exact List.forall_mem_cons.2 ⟨hplain, hplaces.plain⟩

/-- **The moves of one section, with the file gone with a directory.** It stays in the target. -/
theorem relocatePaths_away {paths : List String} {s x : Location} (hr : r.Grounded installDir) (ht : d.Tree)
    (hplaces : Places moved ms) (hms : ms ⊆ sources) (hpaths : ∀ path ∈ paths, sourceAt installDir path ∈ sources)
    (hs : s ∈ ms) (hclear : Clear r.vendorPrefix.segments (s ++ x) s sources)
    (haway : Away r.vendorPrefix.segments s x bytes d)
    (h : Ends (r.relocatePaths package installDir moved paths) d moved' d') :
    ∃ ms', d'.Tree ∧ Places moved' ms' ∧ ms' ⊆ sources ∧ s ∈ ms' ∧ Away r.vendorPrefix.segments s x bytes d' := by
  induction paths generalizing moved ms d with
  | nil =>
    obtain ⟨rfl, rfl⟩ := ends_pure.1 h
    exact ⟨ms, ht, hplaces, hms, hs, haway⟩
  | cons path rest ih =>
    obtain ⟨hpath, hrest⟩ := List.forall_mem_cons.1 hpaths
    obtain ⟨moved₁, d₁, hstep, hnext⟩ := ends_bind.1 h
    rcases relocatePath_cases hr ht hplaces hstep with ⟨rfl, rfl, -⟩ | ⟨hnew, -, hmoved, hplaces₁, -⟩
    · exact ih ht hplaces hms hrest hs haway hnext
    · have hother : sourceAt installDir path ≠ s := fun heq => hnew (heq ▸ hs)
      exact ih hmoved.tree hplaces₁ (List.cons_subset.2 ⟨hpath, hms⟩) hrest (List.mem_cons_of_mem _ hs)
        (haway.of_moved (hclear _ hpath hother) hmoved) hnext

/-- **The moves of one section, with the file where it was.** It is still there, and each directory around it had its
target; or the one around it had none, and the file has gone with it. -/
theorem relocatePaths_home {paths : List String} (hr : r.Grounded installDir) (ht : d.Tree) (hplaces : Places moved ms)
    (hms : ms ⊆ sources) (hpaths : ∀ path ∈ paths, sourceAt installDir path ∈ sources)
    (hsafe : Safe r.vendorPrefix.segments sources l) (hout : ∀ s ∈ ms, ¬ s <+: l)
    (hfile : d.get? l = some (.file bytes))
    (h : Ends (r.relocatePaths package installDir moved paths) d moved' d') :
    ∃ ms', d'.Tree ∧ Places moved' ms' ∧ ms' ⊆ sources ∧
      ((∀ s ∈ ms', ¬ s <+: l) ∧ d'.get? l = some (.file bytes) ∧ (∀ path ∈ paths, sourceAt installDir path <+: l →
          (d.get? (sourceAt installDir path ++ r.vendorPrefix.segments)).isSome = true) ∨
        ∃ s x, s ∈ ms' ∧ l = s ++ x ∧ ¬ r.vendorPrefix.segments <+: x ∧ d.get? (s ++ r.vendorPrefix.segments) = none ∧
          Away r.vendorPrefix.segments s x bytes d') := by
  induction paths generalizing moved ms d with
  | nil =>
    obtain ⟨rfl, rfl⟩ := ends_pure.1 h
    exact ⟨ms, ht, hplaces, hms, .inl ⟨hout, hfile, by simp⟩⟩
  | cons path rest ih =>
    obtain ⟨hpath, hrest⟩ := List.forall_mem_cons.1 hpaths
    obtain ⟨moved₁, d₁, hstep, hnext⟩ := ends_bind.1 h
    rcases relocatePath_cases hr ht hplaces hstep with ⟨rfl, rfl, hskip⟩ | ⟨hnew, hfree, hmoved, hplaces₁, -⟩
    · obtain ⟨ms', ht', hplaces', hms', hend⟩ := ih ht hplaces hms hrest hout hfile hnext
      refine ⟨ms', ht', hplaces', hms', hend.imp_left fun ⟨hout', hfile', htargets⟩ => ⟨hout', hfile', ?_⟩⟩
      exact List.forall_mem_cons.2 ⟨fun haround => hskip.resolve_left fun hmem => hout _ hmem haround, htargets⟩
    have hms₁ := List.cons_subset.2 ⟨hpath, hms⟩
    by_cases haround : sourceAt installDir path <+: l
    · -- from here on it is in the target
      obtain ⟨-, hclear⟩ := hsafe _ hpath haround
      obtain ⟨x, hx⟩ := haround
      subst hx
      obtain ⟨hpx, haway⟩ := hmoved.away ht hfree hfile
      obtain ⟨ms', ht', hplaces', hms', hs', haway'⟩ :=
        relocatePaths_away hr hmoved.tree hplaces₁ hms₁ hrest List.mem_cons_self hclear haway hnext
      exact ⟨ms', ht', hplaces', hms', .inr ⟨_, x, hs', rfl, hpx, hfree, haway'⟩⟩
    · -- the targets of directories around it are as they were
      have htarget : ∀ s ∈ sources, s <+: l → d₁.get? (s ++ r.vendorPrefix.segments) =
          d.get? (s ++ r.vendorPrefix.segments) := by
        intro s hs hsl
        have hother : sourceAt installDir path ≠ s := fun heq => haround (heq ▸ hsl)
        exact hmoved.rest _ ((hsafe s hs hsl).2 _ hpath hother).2.1
      obtain ⟨ms', ht', hplaces', hms', hend⟩ := ih hmoved.tree hplaces₁ hms₁ hrest
        (List.forall_mem_cons.2 ⟨haround, hout⟩) ((hmoved.rest l haround).trans hfile) hnext
      refine ⟨ms', ht', hplaces', hms', hend.imp ?_ ?_⟩
      · rintro ⟨hout', hfile', htargets⟩
        refine ⟨hout', hfile', List.forall_mem_cons.2 ⟨fun h => absurd h haround, fun other hother hsl => ?_⟩⟩
        rw [← htarget _ (hrest other hother) hsl]
        exact htargets other hother hsl
      · rintro ⟨s, x, hs, rfl, hpx, hfree', haway⟩
        rw [htarget s (hms' hs) (List.prefix_append s x)] at hfree'
        exact ⟨s, x, hs, rfl, hpx, hfree', haway⟩

/-! ## Files put back -/

/-- where a declared file is looked for in one moved directory -/
theorem lexical_place {s x : Location} (hs : PlainLocation s) (hne : s ≠ []) (hx : PlainLocation x) :
    Disk.lexical [] (Text.splitAt '/' (Path.join (Disk.pathOf s) (Text.joinWith '/' x))) = s ++ x := by
  by_cases hnil : x = []
  · -- the path of the directory with a slash behind it
    have hjoin : Path.join (Disk.pathOf s) (Text.joinWith '/' []) = Disk.pathOf s ++ "/" := by
      have hends := Path.not_endsWith_pathOf hs hne
      have hpath : Disk.pathOf s ≠ "" := by
        intro hempty
        have habsolute := Disk.isAbsolute_pathOf s
        rw [hempty] at habsolute
        cases habsolute
      rw [Path.join, if_neg (by decide), if_neg (by simp [hpath, hends])]
      exact String.append_empty
    have hsplit : Text.splitAt '/' (Disk.pathOf s ++ "/") = Text.splitAt '/' (Disk.pathOf s) ++ [""] := by
      rw [Text.splitAt, String.toList_append, show "/".toList = '/' :: [] from rfl, List.splitOn_append_cons_self,
        List.map_append]
      rfl
    rw [hnil, hjoin, hsplit, Disk.lexical_append, Disk.lexical_pathOf hs, List.append_nil]
    rfl
  · rw [Path.join_pathOf hs hx hnil, Disk.lexical_pathOf (hs.append hx)]

/-- a declared file that is not found is in no moved directory -/
theorem movedPlace?_eq_none {g : Location} (hr : r.Grounded installDir) (ht : d.Tree) (hplaces : Places moved ms)
    (hg : PlainLocation g) (h : r.movedPlace? d (Disk.pathOf g) moved = none) :
    ∀ s ∈ ms, ∀ x, x ≠ [] → g = s ++ x → d.get? (s ++ r.vendorPrefix.segments ++ x) = none := by
  rintro s hs x hx rfl
  rw [movedPlace?, List.findSome?_eq_none_iff] at h
  obtain ⟨m, hm, hsource⟩ := hplaces.exists_moved hs
  have hhere := h m hm
  have hs := hplaces.plain s hs
  have hx' := hg.of_append_right
  have hsp := hs.append hr.plain
  rw [hsource, Path.relativeTo?_pathOf hg hs, if_pos (List.prefix_append s x), List.drop_left,
    Option.bind_some] at hhere
  dsimp only at hhere
  rw [hr.join_prefixPath hs, Path.join_pathOf hsp hx' hx, Disk.exists?_pathOf ht (hsp.append hx')] at hhere
  cases hget : d.get? (s ++ r.vendorPrefix.segments ++ x) with
  | none => rfl
  | some e =>
    rw [hget] at hhere
    cases hhere

/-- one that is found is looked for in the target of a directory that it was in -/
theorem movedPlace?_eq_some {g : Location} {place : String} (hr : r.Grounded installDir) (hplaces : Places moved ms)
    (hg : PlainLocation g) (h : r.movedPlace? d (Disk.pathOf g) moved = some place) :
    ∃ s ∈ ms, ∃ x, g = s ++ x ∧
      place = Path.join (Disk.pathOf (s ++ r.vendorPrefix.segments)) (Text.joinWith '/' x) := by
  rw [movedPlace?] at h
  obtain ⟨m, hm, hplace⟩ := List.exists_of_findSome?_eq_some h
  obtain ⟨s, hs, hsource⟩ := hplaces.exists_place hm
  have hs' := hplaces.plain s hs
  rw [← hsource, Path.relativeTo?_pathOf hg hs'] at hplace
  split at hplace
  · rename_i hfront
    obtain ⟨x, rfl⟩ := hfront
    rw [List.drop_left, Option.bind_some, hr.join_prefixPath hs'] at hplace
    dsimp only at hplace
    split at hplace
    · cases hplace
      exact ⟨s, hs, x, rfl, rfl⟩
    · cases hplace
  · cases hplace

/-- What putting back one declared file does: nothing if it is in no moved directory, else it goes back from one. -/
theorem restoreFile_cases {file : String} {restored : List String} (hr : r.Grounded installDir) (ht : d.Tree)
    (hplaces : Places moved ms) (h : Ends (r.restoreFile installDir moved file) d restored d') :
    (restored = [] ∧ d' = d ∧ ∀ s ∈ ms, ∀ x, x ≠ [] → declaredAt installDir file = s ++ x →
        d.get? (s ++ r.vendorPrefix.segments ++ x) = none) ∨
      (restored = [Disk.pathOf (declaredAt installDir file)] ∧ ∃ s x d₁, s ∈ ms ∧ x ≠ [] ∧
        declaredAt installDir file = s ++ x ∧ PutBack r.vendorPrefix.segments s x d d₁ d') := by
  obtain ⟨hdeclared, hplain⟩ := hr.placeOf_eq (Text.trimStart '/' file)
  rw [← declaredAt] at hdeclared hplain
  rw [restoreFile] at h
  simp only [hdeclared] at h
  obtain ⟨_, _, hget, h⟩ := ends_bind.1 h
  obtain ⟨rfl, rfl⟩ := ends_get.1 hget
  split at h
  · rename_i hnone
    obtain ⟨rfl, rfl⟩ := ends_pure.1 h
    exact .inl ⟨rfl, rfl, movedPlace?_eq_none hr ht hplaces hplain hnone⟩
  · rename_i place hsome
    obtain ⟨_, d₁, hparent, h⟩ := ends_bind.1 h
    obtain ⟨_, _, hattempt, h⟩ := ends_bind.1 h
    obtain ⟨rfl, rfl⟩ := ends_pure.1 h
    obtain ⟨s, hs, x, hg, rfl⟩ := movedPlace?_eq_some hr hplaces hplain hsome
    have hgrown := makeParent_grown ht hplain hparent
    have hsp := (hplaces.plain s hs).append hr.plain
    have hne : s ++ r.vendorPrefix.segments ≠ [] := by simp [hr.segments_ne]
    have hmoved : s ++ r.vendorPrefix.segments ++ x ≠ s ++ x := by simp [hr.segments_ne]
    rw [hg] at hgrown hplain hattempt
    have hrenamed := Disk.renamed_of_rename hgrown.tree (Path.isAbsolute_join (Disk.isAbsolute_pathOf _) _)
      (Disk.isAbsolute_pathOf (s ++ x)) (lexical_place hsp hne hplain.of_append_right) (Disk.lexical_pathOf hplain)
      hmoved (ends_attempt.1 hattempt)
    refine .inr ⟨rfl, s, x, d₁, hs, ?_, hg, hgrown, hrenamed⟩
    -- the directory itself does not go back from inside itself
    rintro rfl
    refine hrenamed.not_around ?_
    rw [List.append_nil, List.append_nil]
    exact List.prefix_append s _

/-- **What putting back one declared file does.** -/
theorem restoreFile_restores {file : String} {restored : List String} (hr : r.Grounded installDir) (ht : d.Tree)
    (hplaces : Places moved ms) (h : Ends (r.restoreFile installDir moved file) d restored d') :
    Restores r.vendorPrefix.segments ms (declaredAt installDir file) d d' := by
  rcases restoreFile_cases hr ht hplaces h with ⟨-, rfl, hnone⟩ | ⟨-, s, x, d₁, hs, hx, hg, hback⟩
  · exact .nothing hnone
  · exact .back s x hs hx hg hback

theorem restoreFiles_cons {file : String} {rest restored : List String} (hr : r.Grounded installDir) (ht : d.Tree)
    (hplaces : Places moved ms) (h : Ends (r.restoreFiles installDir moved (file :: rest)) d restored d') :
    ∃ d₁ later, Restores r.vendorPrefix.segments ms (declaredAt installDir file) d d₁ ∧ d₁.Tree ∧
      Ends (r.restoreFiles installDir moved rest) d₁ later d' := by
  obtain ⟨_, d₁, hstep, h⟩ := ends_bind.1 h
  obtain ⟨later, _, hrun, h⟩ := ends_bind.1 h
  obtain ⟨-, rfl⟩ := ends_pure.1 h
  have hrestores := restoreFile_restores hr ht hplaces hstep
  exact ⟨d₁, later, hrestores, hrestores.tree ht, hrun⟩

theorem restoreFiles_off {files restored : List String} (hr : r.Grounded installDir) (ht : d.Tree)
    (hplaces : Places moved ms) (hl : ∀ s ∈ ms, ¬ s <+: l) {e : Entry} (he : d.get? l = some e)
    (h : Ends (r.restoreFiles installDir moved files) d restored d') : d'.Tree ∧ d'.get? l = some e := by
  induction files generalizing restored d with
  | nil =>
    obtain ⟨-, rfl⟩ := ends_pure.1 h
    exact ⟨ht, he⟩
  | cons file rest ih =>
    obtain ⟨d₁, later, hrestores, ht₁, hrun⟩ := restoreFiles_cons hr ht hplaces h
    exact ih ht₁ (hrestores.off hl he) hrun

theorem restoreFiles_back {files restored : List String} {s x : Location} (hr : r.Grounded installDir) (ht : d.Tree)
    (hplaces : Places moved ms) (hclear : Clear r.vendorPrefix.segments (s ++ x) s ms) (hs : s ∈ ms)
    (hpx : ¬ r.vendorPrefix.segments <+: x) (hback : Back r.vendorPrefix.segments s x bytes d)
    (h : Ends (r.restoreFiles installDir moved files) d restored d') :
    d'.Tree ∧ d'.get? (s ++ x) = some (.file bytes) := by
  induction files generalizing restored d with
  | nil =>
    obtain ⟨-, rfl⟩ := ends_pure.1 h
    exact ⟨ht, hback.file⟩
  | cons file rest ih =>
    obtain ⟨d₁, later, hrestores, ht₁, hrun⟩ := restoreFiles_cons hr ht hplaces h
    exact ih ht₁ (hback.step ht hclear hs hpx hrestores) hrun

/-- **The files of one section, with this one in the target.** It is back exactly if the section declares it, or a
directory around it. -/
theorem restoreFiles_away {files restored : List String} {s x : Location} (hr : r.Grounded installDir) (ht : d.Tree)
    (hplaces : Places moved ms) (hclear : Clear r.vendorPrefix.segments (s ++ x) s ms) (hs : s ∈ ms)
    (hpx : ¬ r.vendorPrefix.segments <+: x) (haway : Away r.vendorPrefix.segments s x bytes d)
    (h : Ends (r.restoreFiles installDir moved files) d restored d') :
    d'.Tree ∧ (d'.get? (s ++ x) = some (.file bytes) ↔
      ∃ file ∈ files, Between s (declaredAt installDir file) (s ++ x)) := by
  induction files generalizing restored d with
  | nil =>
    obtain ⟨-, rfl⟩ := ends_pure.1 h
    exact ⟨ht, fun hfile => absurd hfile (haway.left bytes), by simp⟩
  | cons file rest ih =>
    obtain ⟨d₁, later, hrestores, ht₁, hrun⟩ := restoreFiles_cons hr ht hplaces h
    rcases haway.step ht hclear hs hpx hrestores with ⟨haway₁, hother⟩ | ⟨hback, hbetween⟩
    · rw [List.exists_mem_cons_iff, or_iff_right hother]
      exact ih ht₁ haway₁ hrun
    · obtain ⟨ht', hfile⟩ := restoreFiles_back hr ht₁ hplaces hclear hs hpx hback hrun
      exact ⟨ht', iff_of_true hfile ⟨file, List.mem_cons_self, hbetween⟩⟩

/-! ## Sections -/

/-- the directories that a section moves -/
def sourcesOf (r : Relocator) (installDir : String) (autoload : AutoloadMap) : List Location :=
  (r.prefixedPaths autoload).map (sourceAt installDir)

/-- A directory around the file has its target already, or the section puts the file back. -/
def Guards (r : Relocator) (installDir : String) (l : Location) (autoload : AutoloadMap) (d : Disk) : Prop :=
  ∀ s ∈ r.sourcesOf installDir autoload, s <+: l → (d.get? (s ++ r.vendorPrefix.segments)).isSome = true ∨
    ∃ file ∈ autoload.files, Between s (declaredAt installDir file) l

instance {l : Location} {autoload : AutoloadMap} : Decidable (r.Guards installDir l autoload d) :=
  inferInstanceAs (Decidable (∀ s ∈ r.sourcesOf installDir autoload, s <+: l → _ ∨ _))

/-- **Which files one section keeps.** -/
theorem relocate_keeps_iff {autoload : AutoloadMap} {report : RelocationReport} (hr : r.Grounded installDir)
    (ht : d.Tree) (hsafe : Safe r.vendorPrefix.segments (r.sourcesOf installDir autoload) l)
    (hfile : d.get? l = some (.file bytes)) (h : Ends (r.relocate package installDir autoload) d report d') :
    d'.Tree ∧ (d'.get? l = some (.file bytes) ↔ r.Guards installDir l autoload d) := by
  obtain ⟨moved, d₁, hmove, h⟩ := ends_bind.1 h
  obtain ⟨restored, d₂, hrestore, h⟩ := ends_bind.1 h
  obtain ⟨-, rfl⟩ := ends_pure.1 h
  obtain ⟨ms, ht₁, hplaces, hms, hend⟩ := relocatePaths_home hr ht ⟨rfl, by simp⟩ (List.nil_subset _)
    (fun path hpath => List.mem_map_of_mem hpath) hsafe (by simp) hfile hmove
  have hplaces' : Places moved.reverse ms.reverse :=
    ⟨by rw [List.map_reverse, List.map_reverse, hplaces.sources], fun s hs => hplaces.plain s (List.mem_reverse.1 hs)⟩
  rcases hend with ⟨hout, hthere, htargets⟩ | ⟨s, x, hs, rfl, hpx, hfree, haway⟩
  · obtain ⟨ht', hfile'⟩ :=
      restoreFiles_off hr ht₁ hplaces' (fun s hs => hout s (List.mem_reverse.1 hs)) hthere hrestore
    refine ⟨ht', iff_of_true hfile' fun s hs haround => .inl ?_⟩
    obtain ⟨path, hpath, rfl⟩ := List.mem_map.1 hs
    exact htargets path hpath haround
  · have haround := List.prefix_append s x
    have hclear := (hsafe s (hms hs) haround).2
    obtain ⟨ht', hiff⟩ := restoreFiles_away hr ht₁ hplaces' (fun t ht => hclear t (hms (List.mem_reverse.1 ht)))
      (List.mem_reverse.2 hs) hpx haway hrestore
    refine ⟨ht', hiff.trans ⟨fun hdeclared t ht htl => ?_, fun hguards => ?_⟩⟩
    · -- no other directory is around the file
      obtain rfl : t = s := by_contra fun hts => (hclear t ht hts).1 htl
      exact .inr hdeclared
    · refine (hguards s (hms hs) haround).resolve_left ?_
      rw [hfree]
      exact Bool.false_ne_true

/-- each section, on the disk that it finds, keeps the file -/
def Spares (r : Relocator) (package installDir : String) (l : Location) : List AutoloadMap → Disk → Prop
  | [], _ => True
  | autoload :: rest, d =>
    Safe r.vendorPrefix.segments (r.sourcesOf installDir autoload) l ∧ r.Guards installDir l autoload d ∧
      ∀ report d', Ends (r.relocate package installDir autoload) d report d' → r.Spares package installDir l rest d'

theorem relocateSections_keeps {sections : List AutoloadMap} {report : RelocationReport} (hr : r.Grounded installDir)
    (ht : d.Tree) (hspares : r.Spares package installDir l sections d) (hfile : d.get? l = some (.file bytes))
    (h : Ends (r.relocateSections package installDir sections) d report d') :
    d'.Tree ∧ d'.get? l = some (.file bytes) := by
  induction sections generalizing report d with
  | nil =>
    obtain ⟨-, rfl⟩ := ends_pure.1 h
    exact ⟨ht, hfile⟩
  | cons autoload rest ih =>
    obtain ⟨hsafe, hguards, hrest⟩ := hspares
    obtain ⟨_, d₁, hone, h⟩ := ends_bind.1 h
    obtain ⟨_, _, hrun, h⟩ := ends_bind.1 h
    obtain ⟨-, rfl⟩ := ends_pure.1 h
    obtain ⟨ht₁, hkept⟩ := relocate_keeps_iff hr ht hsafe hfile hone
    exact ih ht₁ (hrest _ d₁ hone) (hkept.2 hguards) hrun

/-- **A declared file stays.** If relocating a package goes through, a file that was at its declared path is there
afterwards with the same bytes, provided that each section keeps it on the disk that it finds: a directory around the
file is not the file, the other directories of the section are neither around the file nor around or inside its target,
and the section declares the file unless the target is there already. -/
theorem declared_file_kept {package : Package} {file : String} {report : RelocationReport} (hr : r.Grounded installDir)
    (ht : d.Tree) (hspares : r.Spares package.name installDir (declaredAt installDir file) package.sections d)
    (hfile : d.entryAt? (Path.normalize (Path.join installDir (Text.trimStart '/' file))) = some (.file bytes))
    (h : Ends (r.relocatePackage package installDir) d report d') :
    d'.entryAt? (Path.normalize (Path.join installDir (Text.trimStart '/' file))) = some (.file bytes) := by
  obtain ⟨hdeclared, hplain⟩ := hr.placeOf_eq (Text.trimStart '/' file)
  rw [hdeclared, Disk.entryAt?_pathOf ht hplain] at hfile
  obtain ⟨ht', hfile'⟩ := relocateSections_keeps hr ht hspares hfile h
  rw [hdeclared, Disk.entryAt?_pathOf ht' hplain]
  exact hfile'

end Runs

def sampleRelocator : Relocator := make ⟨["P", "Q"]⟩ "/v"

/-- both sections map the directory around a file that only the first one declares, and the second one maps another -/
def samplePackage : Package where
  name := "acme/legacy"
  autoload := some ⟨[("psr-0", .mapping [("P\\Q\\L\\", .single "lib/")]),
    ("files", .paths ["lib/b/a.php"])]⟩
  autoloadDev := some ⟨[("psr-0", .mapping [("P\\Q\\T\\", .several ["lib", "tests/"])])]⟩

def samplePackageDisk : Disk where
  entries := [(["v"], .directory), (["v", "a"], .directory), (["v", "a", "lib"], .directory),
    (["v", "a", "lib", "b"], .directory), (["v", "a", "lib", "b", "a.php"], .file [1]),
    (["v", "a", "tests"], .directory)]

/-- two directories are moved, and the file is where it was -/
theorem declared_file_kept_sample :
    samplePackageDisk.entryAt? "/v/a/lib/b/a.php" = some (.file [1]) ∧
      ∃ report d', Ends (sampleRelocator.relocatePackage samplePackage "/v/a") samplePackageDisk report d' ∧
        report.moved.map (·.source) = ["/v/a/lib", "/v/a/tests"] ∧
        d'.entryAt? "/v/a/lib/b/a.php" = some (.file [1]) := by
  have hgrounded : sampleRelocator.Grounded "/v/a" := ⟨rfl, rfl, by decide, by decide +kernel⟩
  have htree : samplePackageDisk.Tree := Disk.tree_of_isTree (by decide +kernel)
  have hspares : sampleRelocator.Spares samplePackage.name "/v/a" (declaredAt "/v/a" "lib/b/a.php")
      samplePackage.sections samplePackageDisk := by
    refine ⟨by decide +kernel, by decide +kernel, fun report d' hfirst => ⟨by decide +kernel, ?_, fun _ _ _ => trivial⟩⟩
    obtain rfl := congrArg Prod.snd hfirst
    decide +kernel
  have hpath : Path.normalize (Path.join "/v/a" (Text.trimStart '/' "lib/b/a.php")) = "/v/a/lib/b/a.php" := by
    decide +kernel
  have hfile : samplePackageDisk.entryAt? "/v/a/lib/b/a.php" = some (.file [1]) := by decide +kernel
  have hmoved : ((sampleRelocator.relocatePackage samplePackage "/v/a").run.run samplePackageDisk).1.toOption.map
      (fun report => report.moved.map (·.source)) = some ["/v/a/lib", "/v/a/tests"] := by decide +kernel
  rcases hrun : (sampleRelocator.relocatePackage samplePackage "/v/a").run.run samplePackageDisk with ⟨_ | report, d'⟩
  · rw [hrun] at hmoved
    cases hmoved
  · rw [hrun] at hmoved
    have hkept := declared_file_kept hgrounded htree hspares (hpath.symm ▸ hfile) hrun
    rw [hpath] at hkept
    exact ⟨hfile, report, d', hrun, Option.some.inj hmoved, hkept⟩

end Relocator

end Isolation
