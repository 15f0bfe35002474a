/-
The layout of a disk after the relocation of one section, if the directories that the section maps are there and none
is inside another: what is where afterwards, location by location.

- `Laid`: the disk after some directories were moved and some files were put back, told from the disk before.
- `Laid.move`, `Returns.laid_after`: one directory moved, one file put back.
- `relocatePaths_moving`, `restoreFiles_laid`: the moves of a section, then its files.
- `file_placed`, `exists_origin`, `placeAfter_injective`: no file is lost, new or merged with another.
- `relocate_layout`: the layout after a section, its report, and a second relocation.
- `relocate_leaves_staging`: a section with nothing to move does not look at the staging path.
-/
import Isolation.Proofs.Relocation.DeclaredFiles

namespace Isolation

/-- an absolute path leads nowhere if nothing is at its location -/
theorem Disk.exists?_eq_false {d : Disk} (ht : d.Tree) {path : String} (habsolute : Path.isAbsolute path = true)
    (h : d.get? (Disk.lexical [] (Text.splitAt '/' path)) = none) : d.exists? path = false := by
  rw [Disk.exists?, Disk.entryAt?]
  split
  · rename_i l entry hfound
    obtain ⟨hlocation, hentry⟩ := Disk.locate_tree ht habsolute hfound
    rw [← hlocation] at h
    cases h.symm.trans hentry
  · rfl

namespace Relocator

open Isolation.Action

variable {d₀ d d₁ d' : Disk} {p s t x y l g : Location} {ms gs sources : List Location}

/-! ## Directories apart from each other -/

/-- none of the directories is inside another -/
def Separate (sources : List Location) : Prop := ∀ s ∈ sources, ∀ t ∈ sources, s <+: t → s = t

instance : Decidable (Separate sources) :=
  inferInstanceAs (Decidable (∀ s ∈ sources, ∀ t ∈ sources, s <+: t → s = t))

/-- at most one of them is around a location -/
theorem Separate.eq_of_around (h : Separate sources) (hs : s ∈ sources) (ht : t ∈ sources) (hsl : s <+: l)
    (htl : t <+: l) : s = t := by
  rcases List.prefix_or_prefix_of_prefix hsl htl with hst | hts
  · exact h s hs t ht hst
  · exact (h t ht s hs hts).symm

theorem Separate.subset (h : Separate sources) (hms : ms ⊆ sources) : Separate ms :=
  fun s hs t ht => h s (hms hs) t (hms ht)

/-! ## The disk in between -/

/-- the disk `d` that `d₀` becomes when the directories `ms` are moved and the files `gs` of them are put back -/
structure Laid (p : Location) (ms gs : List Location) (d₀ d : Disk) : Prop where
  tree : d.Tree
  /-- a target has what its directory had, but for what was put back -/
  target : ∀ s ∈ ms, ∀ x, d.get? (s ++ p ++ x) = if s ++ x ∈ gs then none else d₀.get? (s ++ x)
  /-- what was put back is where it was -/
  back : ∀ s ∈ ms, ∀ x, ¬ p <+: x → s ++ x ∈ gs → d.get? (s ++ x) = d₀.get? (s ++ x)
  /-- outside the target no other file is left -/
  emptied : ∀ s ∈ ms, ∀ x, ¬ p <+: x → s ++ x ∉ gs → d.NoFile (s ++ x)
  /-- what is in none of the directories is as it was -/
  rest : ∀ l, (∀ s ∈ ms, ¬ s <+: l) → d.get? l = d₀.get? l
  /-- the directories had no targets -/
  free : ∀ s ∈ ms, d₀.get? (s ++ p) = none
  /-- only files are put back -/
  files : ∀ g ∈ gs, ∃ bytes, d₀.get? g = some (.file bytes)

namespace Laid

theorem refl (ht : d.Tree) (p : Location) : Laid p [] [] d d where
  tree := ht
  target := by simp
  back := by simp
  emptied := by simp
  rest := fun _ _ => rfl
  free := by simp
  files := by simp

/-- **One directory moved.** -/
theorem move (h : Laid p ms [] d₀ d) (hsep : Separate (s :: ms)) (hnew : s ∉ ms) (hfree : d.get? (s ++ p) = none)
    (hmoved : Moved p s d d') : Laid p (s :: ms) [] d₀ d' := by
  have hs : s ∈ s :: ms := List.mem_cons_self
  have hother : ∀ t ∈ ms, t ∈ s :: ms := fun t ht => List.mem_cons_of_mem s ht
  -- what is in the directory was left alone before, and what is in the others is left alone now
  have hbefore : ∀ x, d.get? (s ++ x) = d₀.get? (s ++ x) := by
    intro x
    apply h.rest
    intro t ht htx
    exact hnew (hsep.eq_of_around hs (hother t ht) (List.prefix_append s x) htx ▸ ht)
  have hnow : ∀ t ∈ ms, ∀ x, d'.get? (t ++ x) = d.get? (t ++ x) := by
    intro t ht x
    apply hmoved.rest
    intro hsx
    exact hnew (hsep.eq_of_around hs (hother t ht) hsx (List.prefix_append t x) ▸ ht)
  constructor
  case tree => exact hmoved.tree
  case target =>
    rw [List.forall_mem_cons]
    constructor
    · intro x
      rw [hmoved.target, hbefore, if_neg List.not_mem_nil]
    · intro t ht x
      rw [List.append_assoc, hnow t ht, ← List.append_assoc, h.target t ht]
  case back => exact fun t ht x hpx hx => absurd hx List.not_mem_nil
  case emptied =>
    rw [List.forall_mem_cons]
    constructor
    · intro x hpx hx bytes hfile
      rcases hmoved.emptied x hpx with hnone | hdirectory
      · cases hnone.symm.trans hfile
      · cases hdirectory.symm.trans hfile
    · intro t ht x hpx hx bytes hfile
      rw [hnow t ht] at hfile
      exact h.emptied t ht x hpx hx bytes hfile
  case rest =>
    intro l hl
    rw [List.forall_mem_cons] at hl
    rw [hmoved.rest l hl.1, h.rest l hl.2]
  case free =>
    rw [List.forall_mem_cons]
    exact ⟨hbefore p ▸ hfree, h.free⟩
  case files => exact fun g hg => absurd hg List.not_mem_nil

theorem reverse (h : Laid p ms gs d₀ d) : Laid p ms.reverse gs d₀ d where
  tree := h.tree
  target := fun s hs => h.target s (List.mem_reverse.1 hs)
  back := fun s hs => h.back s (List.mem_reverse.1 hs)
  emptied := fun s hs => h.emptied s (List.mem_reverse.1 hs)
  rest := fun l hl => h.rest l fun s hs => hl s (List.mem_reverse.2 hs)
  free := fun s hs => h.free s (List.mem_reverse.1 hs)
  files := h.files

/-- nothing was below the target of a moved directory -/
theorem not_below (ht₀ : d₀.Tree) (h : Laid p ms gs d₀ d) (hs : s ∈ ms) {e : Entry} (he : d₀.get? (s ++ x) = some e) :
    ¬ p <+: x := by
  rintro ⟨y, rfl⟩
  have hbelow : s ++ p <+: s ++ (p ++ y) := by
    rw [List.prefix_append_right_inj]
    exact List.prefix_append p y
  cases (ht₀.none_below hbelow (h.free s hs)).symm.trans he

end Laid

/-! ## One file put back -/

/-- the file at `x` in the directory `s` goes back, and has not gone back before -/
structure Returns (p : Location) (ms gs : List Location) (s x : Location) (d₀ d d₁ d' : Disk) : Prop where
  tree₀ : d₀.Tree
  laid : Laid p ms gs d₀ d
  separate : Separate ms
  moved : s ∈ ms
  fresh : s ++ x ∉ gs
  file : ∃ bytes, d₀.get? (s ++ x) = some (.file bytes)
  putBack : PutBack p s x d d₁ d'

/-- what goes back and was no directory is a file that has not gone back before -/
theorem Laid.returns (ht₀ : d₀.Tree) (h : Laid p ms gs d₀ d) (hsep : Separate ms) (hs : s ∈ ms)
    (hfile : d₀.get? (s ++ x) ≠ some .directory) (hback : PutBack p s x d d₁ d') : Returns p ms gs s x d₀ d d₁ d' := by
  have hthere := hback.there
  rw [h.target s hs] at hthere
  split at hthere
  · cases hthere
  · rename_i hx
    obtain ⟨e, he⟩ := Option.isSome_iff_exists.1 hthere
    refine ⟨ht₀, h, hsep, hs, hx, ?_, hback⟩
    cases e with
    | file bytes => exact ⟨bytes, he⟩
    | directory => exact absurd he hfile
    | link target => exact absurd he (ht₀.no_link _ target)

namespace Returns

theorem mem_iff : s ++ y ∈ gs ++ [s ++ x] ↔ s ++ y ∈ gs ∨ y = x := by
  rw [List.mem_append, List.mem_singleton, List.append_cancel_left_eq]

variable (h : Returns p ms gs s x d₀ d d₁ d')
include h

theorem not_below : ¬ p <+: x := by
  obtain ⟨bytes, hbytes⟩ := h.file
  exact h.laid.not_below h.tree₀ h.moved hbytes

/-- below a file there is nothing -/
theorem none_below {z : Location} (hz : z ≠ []) : d₀.get? (s ++ (x ++ z)) = none := by
  obtain ⟨bytes, hbytes⟩ := h.file
  cases hget : d₀.get? (s ++ (x ++ z)) with
  | none => rfl
  | some e =>
    rw [← List.append_assoc] at hget
    cases hbytes.symm.trans (h.tree₀.directory_of_append hz hget)

/-- another directory and its target are left alone -/
theorem other (ht : t ∈ ms) (hts : t ≠ s) (y : Location) :
    d'.get? (t ++ y) = d.get? (t ++ y) ∧ (t ++ y ∈ gs ++ [s ++ x] ↔ t ++ y ∈ gs) := by
  have hout : ¬ t <+: s := fun hfront => hts (h.separate t ht s h.moved hfront)
  have hin : ¬ s <+: t := fun hfront => hts (h.separate s h.moved t ht hfront).symm
  refine ⟨h.putBack.get?_apart hout hin y, ?_⟩
  rw [List.mem_append, List.mem_singleton, or_iff_left]
  intro heq
  exact hts (h.separate.eq_of_around ht h.moved (List.prefix_append t y) (heq ▸ List.prefix_append s x))

theorem target (y : Location) :
    d'.get? (s ++ p ++ y) = if s ++ y ∈ gs ++ [s ++ x] then none else d₀.get? (s ++ y) := by
  rw [h.putBack.get?_target h.not_below]
  by_cases hxy : x <+: y
  · obtain ⟨z, rfl⟩ := hxy
    by_cases hz : z = []
    · subst hz
      simp
    · simp [h.none_below hz]
  · have hne : y ≠ x := fun heq => hxy (heq ▸ List.prefix_refl y)
    simp only [if_neg hxy, h.laid.target s h.moved, mem_iff, or_iff_left hne]

theorem back (hpy : ¬ p <+: y) (hy : s ++ y ∈ gs ++ [s ++ x]) : d'.get? (s ++ y) = d₀.get? (s ++ y) := by
  rcases mem_iff.1 hy with hgs | rfl
  · obtain ⟨bytes, hbytes⟩ := h.laid.files _ hgs
    have hxy : ¬ x <+: y := by
      rintro ⟨z, rfl⟩
      by_cases hz : z = []
      · rw [hz, List.append_nil] at hgs
        exact h.fresh hgs
      · cases (h.none_below hz).symm.trans hbytes
    rw [h.putBack.get?_source hpy hxy, hbytes]
    exact h.putBack.grown.keeps _ _ ((h.laid.back s h.moved y hpy hgs).trans hbytes)
  · have hhere := h.putBack.get?_back hpy []
    rw [List.append_nil] at hhere
    rw [hhere, h.laid.target s h.moved, if_neg h.fresh]

theorem emptied (hpy : ¬ p <+: y) (hy : s ++ y ∉ gs ++ [s ++ x]) : d'.NoFile (s ++ y) := by
  rw [mem_iff, not_or] at hy
  intro bytes hbytes
  by_cases hxy : x <+: y
  · obtain ⟨z, rfl⟩ := hxy
    have hz : z ≠ [] := fun hz => hy.2 (by rw [hz, List.append_nil])
    rw [h.putBack.get?_back h.not_below, h.laid.target s h.moved, if_neg hy.1, h.none_below hz] at hbytes
    cases hbytes
  · rw [h.putBack.get?_source hpy hxy] at hbytes
    exact h.putBack.grown.noFile (h.laid.emptied s h.moved y hpy hy.1) bytes hbytes

/-- outside the directory nothing is new: the way to it is there -/
theorem rest (hl : ¬ s <+: l) : d'.get? l = d.get? l := by
  rw [h.putBack.get?_outside hl]
  by_cases hway : l <+: s ++ x
  · have hls : l <+: s := (List.prefix_or_prefix_of_prefix hway (List.prefix_append s x)).resolve_right hl
    have hsx : s <+: s ++ p ++ x := (List.prefix_append s p).trans (List.prefix_append _ x)
    obtain ⟨e, he⟩ := Option.isSome_iff_exists.1 h.putBack.there
    have hdirectory := h.laid.tree.directory_above (hls.trans hsx) (fun heq => hl (heq ▸ hsx)) he
    rw [hdirectory]
    exact h.putBack.grown.keeps l _ hdirectory
  · exact h.putBack.grown.get?_eq hway

/-- **One file put back.** -/
theorem laid_after : Laid p ms (gs ++ [s ++ x]) d₀ d' := by
  constructor
  case tree => exact h.putBack.renamed.tree
  case target =>
    intro t ht y
    by_cases hts : t = s
    · rw [hts, h.target]
    · obtain ⟨hsame, -⟩ := h.other ht hts (p ++ y)
      obtain ⟨-, hmem⟩ := h.other ht hts y
      rw [List.append_assoc, hsame, ← List.append_assoc, h.laid.target t ht]
      simp only [hmem]
  case back =>
    intro t ht y hpy hy
    by_cases hts : t = s
    · rw [hts] at hy ⊢
      exact h.back hpy hy
    · obtain ⟨hsame, hmem⟩ := h.other ht hts y
      rw [hsame, h.laid.back t ht y hpy (hmem.1 hy)]
  case emptied =>
    intro t ht y hpy hy
    by_cases hts : t = s
    · rw [hts] at hy ⊢
      exact h.emptied hpy hy
    · obtain ⟨hsame, hmem⟩ := h.other ht hts y
      rw [hmem] at hy
      intro bytes hbytes
      exact h.laid.emptied t ht y hpy hy bytes (hsame.symm.trans hbytes)
  case rest =>
    intro l hl
    rw [h.rest (hl s h.moved), h.laid.rest l hl]
  case free => exact h.laid.free
  case files =>
    intro g hg
    rcases List.mem_append.1 hg with hg | hg
    · exact h.laid.files g hg
    · rw [List.mem_singleton.1 hg]
      exact h.file

end Returns

/-! ## The moves of a section -/

section Runs

variable {r : Relocator} {installDir package path : String} {moved moved' : List MovedDirectory}

/-- the directories `ms` have been moved and recorded, the latest first -/
structure Moving (r : Relocator) (package : String) (sources : List Location) (d₀ : Disk) (ms : List Location)
    (moved : List MovedDirectory) (d : Disk) : Prop where
  laid : Laid r.vendorPrefix.segments ms [] d₀ d
  record : moved = ms.map (r.movedFrom package)
  plain : ∀ s ∈ ms, PlainLocation s
  nodup : ms.Nodup
  sources : ms ⊆ sources
  /-- the staging path was free, and is in none of the directories -/
  staging : ∀ s ∈ ms, ¬ s <+: r.stagingAt ∧ d₀.get? r.stagingAt = none
  unmoved : ms = [] → d = d₀

theorem Moving.places (h : Moving r package sources d₀ ms moved d) : Places moved ms := by
  refine ⟨?_, h.plain⟩
  rw [h.record, List.map_map]
  rfl

/-- a directory that has not been moved is as it was -/
theorem Moving.untouched (h : Moving r package sources d₀ ms moved d) (hsep : Separate sources) (hs : s ∈ sources)
    (hnew : s ∉ ms) (x : Location) : d.get? (s ++ x) = d₀.get? (s ++ x) := by
  apply h.laid.rest
  intro t ht htx
  exact hnew (hsep.eq_of_around hs (h.sources ht) (List.prefix_append s x) htx ▸ ht)

/-- one path of the section: its directory has been moved, or had its target -/
theorem relocatePath_moving (hr : r.Grounded installDir) (hsep : Separate sources)
    (hmoving : Moving r package sources d₀ ms moved d) (hpath : sourceAt installDir path ∈ sources)
    (h : Ends (r.relocatePath package installDir moved path) d moved' d') :
    ∃ ms', Moving r package sources d₀ ms' moved' d' ∧ ms ⊆ ms' ∧ (sourceAt installDir path ∈ ms' ∨
      (d₀.get? (sourceAt installDir path ++ r.vendorPrefix.segments)).isSome = true) := by
  rcases relocatePath_cases hr hmoving.laid.tree hmoving.places h with
    ⟨rfl, rfl, hskip⟩ | ⟨hnew, hfree, hmoved, hplaces, hrecord, hnone, hstaging⟩
  · refine ⟨ms, hmoving, List.Subset.refl ms, ?_⟩
    by_cases hmem : sourceAt installDir path ∈ ms
    · exact .inl hmem
    · have htarget := hskip.resolve_left hmem
      rw [hmoving.untouched hsep hpath hmem] at htarget
      exact .inr htarget
  · have hsources : sourceAt installDir path :: ms ⊆ sources := List.cons_subset.2 ⟨hpath, hmoving.sources⟩
    have hfree₀ : d₀.get? r.stagingAt = none := by
      rw [← hmoving.laid.rest _ fun s hs => (hmoving.staging s hs).1]
      exact hnone
    refine ⟨_, ?_, List.subset_cons_self _ ms, .inl List.mem_cons_self⟩
    constructor
    case laid => exact hmoving.laid.move (hsep.subset hsources) hnew hfree hmoved
    case record => rw [hrecord, hmoving.record, List.map_cons]
    case plain => exact hplaces.plain
    case nodup => exact List.nodup_cons.2 ⟨hnew, hmoving.nodup⟩
    case sources => exact hsources
    case staging => exact List.forall_mem_cons.2 ⟨⟨hstaging, hfree₀⟩, hmoving.staging⟩
    case unmoved => exact fun hnil => absurd hnil (List.cons_ne_nil _ ms)

/-- **The moves of one section.** Each of its directories has been moved, or had its target. -/
theorem relocatePaths_moving {paths : List String} (hr : r.Grounded installDir) (hsep : Separate sources)
    (hmoving : Moving r package sources d₀ ms moved d) (hpaths : ∀ path ∈ paths, sourceAt installDir path ∈ sources)
    (h : Ends (r.relocatePaths package installDir moved paths) d moved' d') :
    ∃ ms', Moving r package sources d₀ ms' moved' d' ∧ ms ⊆ ms' ∧ ∀ path ∈ paths, sourceAt installDir path ∈ ms' ∨
      (d₀.get? (sourceAt installDir path ++ r.vendorPrefix.segments)).isSome = true := by
  induction paths generalizing moved ms d with
  | nil =>
    obtain ⟨rfl, rfl⟩ := ends_pure.1 h
    exact ⟨ms, hmoving, List.Subset.refl ms, by simp⟩
  | cons path rest ih =>
    obtain ⟨hpath, hrest⟩ := List.forall_mem_cons.1 hpaths
    obtain ⟨moved₁, d₁, hstep, hnext⟩ := ends_bind.1 h
    obtain ⟨ms₁, hmoving₁, hms₁, hdone⟩ := relocatePath_moving hr hsep hmoving hpath hstep
    obtain ⟨ms', hmoving', hms', hall⟩ := ih hmoving₁ hrest hnext
    refine ⟨ms', hmoving', List.Subset.trans hms₁ hms', List.forall_mem_cons.2 ⟨?_, hall⟩⟩
    exact hdone.imp_left fun hmem => hms' hmem

/-! ## The files of a section -/

/-- one declared file: it has gone back now or before, if it was there and in a moved directory -/
theorem restoreFile_laid {file : String} {restored : List String} (hr : r.Grounded installDir) (ht₀ : d₀.Tree)
    (hsep : Separate ms) (hdirs : ∀ s ∈ ms, d₀.get? s = some .directory) (hplaces : Places moved ms)
    (hlaid : Laid r.vendorPrefix.segments ms gs d₀ d) (hnodup : gs.Nodup)
    (hfile : d₀.get? (declaredAt installDir file) ≠ some .directory)
    (h : Ends (r.restoreFile installDir moved file) d restored d') :
    ∃ back, restored = back.map Disk.pathOf ∧ Laid r.vendorPrefix.segments ms (gs ++ back) d₀ d' ∧
      (gs ++ back).Nodup ∧ (∀ g ∈ back, g = declaredAt installDir file ∧ ∃ s ∈ ms, s <+: g) ∧
      ∀ s ∈ ms, s <+: declaredAt installDir file → (d₀.get? (declaredAt installDir file)).isSome = true →
        declaredAt installDir file ∈ gs ++ back := by
  rcases restoreFile_cases hr hlaid.tree hplaces h with
    ⟨rfl, rfl, hnone⟩ | ⟨rfl, s, x, d₁, hs, hx, hg, hback⟩
  · refine ⟨[], rfl, ?_, ?_, by simp, ?_⟩
    · rwa [List.append_nil]
    · rwa [List.append_nil]
    · rintro s hs ⟨x, hx⟩ hthere
      have hne : x ≠ [] := by
        rintro rfl
        rw [← hx, List.append_nil] at hfile
        exact hfile (hdirs s hs)
      have hgone := hnone s hs x hne hx.symm
      rw [hlaid.target s hs] at hgone
      rw [← hx] at hthere ⊢
      by_contra hmem
      rw [List.append_nil] at hmem
      rw [if_neg hmem] at hgone
      rw [hgone] at hthere
      cases hthere
  · rw [hg] at hfile ⊢
    have hreturns := hlaid.returns ht₀ hsep hs hfile hback
    refine ⟨[s ++ x], rfl, hreturns.laid_after, ?_, ?_, ?_⟩
    · rw [← List.concat_eq_append, List.nodup_concat]
      exact ⟨hreturns.fresh, hnodup⟩
    · intro g hmem
      obtain rfl := List.mem_singleton.1 hmem
      exact ⟨rfl, s, hs, List.prefix_append s x⟩
    · intro _ _ _ _
      exact List.mem_append_right gs List.mem_cons_self

/-- **The files of one section.** Those that were there and in a moved directory have gone back, and no others. -/
theorem restoreFiles_laid {files restored : List String} (hr : r.Grounded installDir) (ht₀ : d₀.Tree)
    (hsep : Separate ms) (hdirs : ∀ s ∈ ms, d₀.get? s = some .directory) (hplaces : Places moved ms)
    (hlaid : Laid r.vendorPrefix.segments ms gs d₀ d) (hnodup : gs.Nodup)
    (hfiles : ∀ file ∈ files, d₀.get? (declaredAt installDir file) ≠ some .directory)
    (h : Ends (r.restoreFiles installDir moved files) d restored d') :
    ∃ back, restored = back.map Disk.pathOf ∧ Laid r.vendorPrefix.segments ms (gs ++ back) d₀ d' ∧
      (gs ++ back).Nodup ∧ (∀ g ∈ back, g ∈ files.map (declaredAt installDir) ∧ ∃ s ∈ ms, s <+: g) ∧
      ∀ g ∈ files.map (declaredAt installDir), ∀ s ∈ ms, s <+: g → (d₀.get? g).isSome = true → g ∈ gs ++ back := by
  induction files generalizing restored gs d with
  | nil =>
    obtain ⟨rfl, rfl⟩ := ends_pure.1 h
    exact ⟨[], rfl, by rwa [List.append_nil], by rwa [List.append_nil], by simp, by simp⟩
  | cons file rest ih =>
    obtain ⟨hfile, hrest⟩ := List.forall_mem_cons.1 hfiles
    obtain ⟨first, d₁, hstep, h⟩ := ends_bind.1 h
    obtain ⟨later, _, hrun, h⟩ := ends_bind.1 h
    obtain ⟨rfl, rfl⟩ := ends_pure.1 h
    obtain ⟨back₁, rfl, hlaid₁, hnodup₁, hback₁, hdone⟩ :=
      restoreFile_laid hr ht₀ hsep hdirs hplaces hlaid hnodup hfile hstep
    obtain ⟨back, rfl, hlaid', hnodup', hback, hall⟩ := ih hlaid₁ hnodup₁ hrest hrun
    rw [List.append_assoc] at hlaid' hnodup' hall
    simp only [List.map_cons, List.mem_cons]
    refine ⟨back₁ ++ back, by rw [List.map_append], hlaid', hnodup', ?_, ?_⟩
    · intro g hg
      rcases List.mem_append.1 hg with hg | hg
      · exact (hback₁ g hg).imp_left .inl
      · exact (hback g hg).imp_left .inr
    · intro g hg s hs haround hthere
      rcases hg with hg | hg
      · rw [hg] at haround hthere ⊢
        rw [← List.append_assoc]
        exact List.mem_append_left back (hdone s hs haround hthere)
      · exact hall g hg s hs haround hthere

/-! ## A second relocation -/

theorem relocatePaths_skip {paths : List String} (hr : r.Grounded installDir) (ht : d.Tree)
    (htargets : ∀ path ∈ paths, (d.get? (sourceAt installDir path ++ r.vendorPrefix.segments)).isSome = true) :
    Ends (r.relocatePaths package installDir moved paths) d moved d := by
  induction paths with
  | nil => exact ends_pure.2 ⟨rfl, rfl⟩
  | cons path rest ih =>
    obtain ⟨htarget, hrest⟩ := List.forall_mem_cons.1 htargets
    obtain ⟨hsource, hplain⟩ := hr.placeOf_eq (Text.trimBoth '/' path)
    rw [← sourceAt] at hsource hplain
    have hstep : Ends (r.relocatePath package installDir moved path) d moved d := by
      rw [relocatePath]
      simp only [hsource, hr.join_prefixPath hplain]
      refine ends_bind.2 ⟨d, d, ends_get.2 ⟨rfl, rfl⟩, ?_⟩
      rw [Disk.exists?_pathOf ht (hplain.append hr.plain), htarget, Bool.or_true, if_pos rfl]
      exact ends_pure.2 ⟨rfl, rfl⟩
    exact ends_bind.2 ⟨moved, d, hstep, ih hrest⟩

theorem restoreFiles_skip (files : List String) : Ends (r.restoreFiles installDir [] files) d [] d := by
  induction files with
  | nil => exact ends_pure.2 ⟨rfl, rfl⟩
  | cons file rest ih =>
    have hstep : Ends (r.restoreFile installDir [] file) d [] d :=
      ends_bind.2 ⟨d, d, ends_get.2 ⟨rfl, rfl⟩, ends_pure.2 ⟨rfl, rfl⟩⟩
    exact ends_bind.2 ⟨[], d, hstep, ends_bind.2 ⟨[], d, ih, ends_pure.2 ⟨rfl, rfl⟩⟩⟩

/-- with every target there, nothing is done -/
theorem relocate_skip {autoload : AutoloadMap} (hr : r.Grounded installDir) (ht : d.Tree)
    (htargets : ∀ s ∈ r.sourcesOf installDir autoload, (d.get? (s ++ r.vendorPrefix.segments)).isSome = true) :
    Ends (r.relocate package installDir autoload) d {} d := by
  have hmoves : Ends (r.relocatePaths package installDir [] (r.prefixedPaths autoload)) d [] d :=
    relocatePaths_skip hr ht fun path hpath => htargets _ (List.mem_map_of_mem hpath)
  exact ends_bind.2 ⟨[], d, hmoves, ends_bind.2 ⟨[], d, restoreFiles_skip autoload.files, ends_pure.2 ⟨rfl, rfl⟩⟩⟩

/-! ## The layout -/

variable {autoload : AutoloadMap} {report : RelocationReport}

/-- the files that a section declares -/
def declaredOf (installDir : String) (autoload : AutoloadMap) : List Location :=
  autoload.files.map (declaredAt installDir)

/-- the section moved the directories `ms` and put the files `gs` back -/
structure Relocated (r : Relocator) (package installDir : String) (autoload : AutoloadMap) (ms gs : List Location)
    (d : Disk) (report : RelocationReport) (d' : Disk) : Prop where
  laid : Laid r.vendorPrefix.segments ms gs d d'
  moved : ms.Nodup ∧ report.moved = ms.map (r.movedFrom package)
  restored : gs.Nodup ∧ report.restored = gs.map Disk.pathOf
  mem_moved : ∀ s, s ∈ ms ↔ s ∈ r.sourcesOf installDir autoload ∧ d.get? (s ++ r.vendorPrefix.segments) = none
  mem_restored : ∀ g, g ∈ gs ↔ g ∈ declaredOf installDir autoload ∧ (d.get? g).isSome = true ∧ ∃ s ∈ ms, s <+: g
  staging : ∀ s ∈ ms, ¬ s <+: r.stagingAt ∧ d.get? r.stagingAt = none
  unmoved : ms = [] → d' = d

/-- **What one section does.** -/
theorem relocate_relocated (hr : r.Grounded installDir) (ht : d.Tree)
    (hsep : Separate (r.sourcesOf installDir autoload))
    (hdirs : ∀ s ∈ r.sourcesOf installDir autoload, d.get? s = some .directory)
    (hfiles : ∀ g ∈ declaredOf installDir autoload, d.get? g ≠ some .directory)
    (h : Ends (r.relocate package installDir autoload) d report d') :
    ∃ ms gs, Relocated r package installDir autoload ms gs d report d' := by
  obtain ⟨moved, d₁, hmove, h⟩ := ends_bind.1 h
  obtain ⟨restored, d₂, hrestore, h⟩ := ends_bind.1 h
  obtain ⟨rfl, rfl⟩ := ends_pure.1 h
  have hstart : Moving r package (r.sourcesOf installDir autoload) d [] [] d := by
    refine ⟨.refl ht _, rfl, by simp, List.nodup_nil, List.nil_subset _, by simp, fun _ => rfl⟩
  obtain ⟨ms, hmoving, -, hall⟩ :=
    relocatePaths_moving hr hsep hstart (fun path hpath => List.mem_map_of_mem hpath) hmove
  have hplaces : Places moved.reverse ms.reverse := by
    refine ⟨?_, fun s hs => hmoving.plain s (List.mem_reverse.1 hs)⟩
    rw [List.map_reverse, List.map_reverse, hmoving.places.sources]
  have hms : ms.reverse ⊆ r.sourcesOf installDir autoload := fun s hs => hmoving.sources (List.mem_reverse.1 hs)
  obtain ⟨gs, hrecord, hlaid, hnodup, hback, hdone⟩ := restoreFiles_laid hr ht (hsep.subset hms)
    (fun s hs => hdirs s (hms hs)) hplaces hmoving.laid.reverse List.nodup_nil
    (fun file hfile => hfiles _ (List.mem_map_of_mem hfile)) hrestore
  rw [List.nil_append] at hlaid hnodup hdone
  refine ⟨ms.reverse, gs, ?_⟩
  constructor
  case laid => exact hlaid
  case moved =>
    refine ⟨List.nodup_reverse.2 hmoving.nodup, ?_⟩
    rw [List.map_reverse, ← hmoving.record]
  case restored => exact ⟨hnodup, hrecord⟩
  case mem_moved =>
    intro s
    constructor
    · exact fun hs => ⟨hms hs, hlaid.free s hs⟩
    · rintro ⟨hs, hfree⟩
      obtain ⟨path, hpath, rfl⟩ := List.mem_map.1 hs
      refine List.mem_reverse.2 ((hall path hpath).resolve_right ?_)
      rw [hfree]
      exact Bool.false_ne_true
  case mem_restored =>
    intro g
    constructor
    · intro hg
      obtain ⟨bytes, hbytes⟩ := hlaid.files g hg
      exact ⟨(hback g hg).1, by rw [hbytes]; rfl, (hback g hg).2⟩
    · rintro ⟨hg, hthere, s, hs, haround⟩
      exact hdone g hg s hs haround hthere
  case staging => exact fun s hs => hmoving.staging s (List.mem_reverse.1 hs)
  case unmoved =>
    intro hnil
    have hempty : ms = [] := List.reverse_eq_nil_iff.1 hnil
    rw [hmoving.record, hempty] at hrestore
    have hsame : d₂ = d₁ := congrArg Prod.snd (hrestore.symm.trans (restoreFiles_skip autoload.files))
    rw [hsame, hmoving.unmoved hempty]

/-- where what is at a location is after the section: it goes with the directory around it, unless that has its target
already or the section declares it -/
def placeAfter (r : Relocator) (installDir : String) (autoload : AutoloadMap) (d : Disk) (l : Location) : Location :=
  match (r.sourcesOf installDir autoload).find? fun s => s.isPrefixOf l with
  | none => l
  | some s =>
    if (d.get? (s ++ r.vendorPrefix.segments)).isSome || (declaredOf installDir autoload).contains l then l
    else s ++ r.vendorPrefix.segments ++ l.drop s.length

theorem placeAfter_kept
    (h : ∀ s ∈ r.sourcesOf installDir autoload, s <+: l → (d.get? (s ++ r.vendorPrefix.segments)).isSome = true) :
    r.placeAfter installDir autoload d l = l := by
  rw [placeAfter]
  split
  · rfl
  · rename_i s hfound
    have hfront := List.find?_some hfound
    have haround : s <+: l := List.isPrefixOf_iff_prefix.1 hfront
    rw [h s (List.mem_of_find?_eq_some hfound) haround, Bool.true_or, if_pos rfl]

theorem placeAfter_moved (hsep : Separate (r.sourcesOf installDir autoload))
    (hs : s ∈ r.sourcesOf installDir autoload) (hfree : d.get? (s ++ r.vendorPrefix.segments) = none) (x : Location) :
    r.placeAfter installDir autoload d (s ++ x) =
      if s ++ x ∈ declaredOf installDir autoload then s ++ x else s ++ r.vendorPrefix.segments ++ x := by
  have hfound : ((r.sourcesOf installDir autoload).find? fun t => t.isPrefixOf (s ++ x)) = some s := by
    cases hfind : (r.sourcesOf installDir autoload).find? fun t => t.isPrefixOf (s ++ x) with
    | none =>
      have hnot := List.find?_eq_none.1 hfind s hs
      rw [List.isPrefixOf_iff_prefix] at hnot
      exact absurd (List.prefix_append s x) hnot
    | some t =>
      have hfront := List.find?_some hfind
      have haround : t <+: s ++ x := List.isPrefixOf_iff_prefix.1 hfront
      rw [hsep.eq_of_around (List.mem_of_find?_eq_some hfind) hs haround (List.prefix_append s x)]
  rw [placeAfter, hfound]
  simp [hfree]

namespace Relocated

variable (h : Relocated r package installDir autoload ms gs d report d')
include h

/-- a file of a moved directory is put back exactly if it is declared -/
theorem restored_iff (hs : s ∈ ms) {bytes : List UInt8} (hfile : d.get? (s ++ x) = some (.file bytes)) :
    s ++ x ∈ gs ↔ s ++ x ∈ declaredOf installDir autoload := by
  rw [h.mem_restored]
  constructor
  · exact fun hg => hg.1
  · exact fun hg => ⟨hg, by rw [hfile]; rfl, s, hs, List.prefix_append s x⟩

/-- a file of a moved directory is in the target, or where it was declared -/
theorem file_moved (ht : d.Tree) (hs : s ∈ ms) {bytes : List UInt8} (hfile : d.get? (s ++ x) = some (.file bytes)) :
    d'.get? (if s ++ x ∈ declaredOf installDir autoload then s ++ x else s ++ r.vendorPrefix.segments ++ x) =
      some (.file bytes) := by
  have hiff := h.restored_iff hs hfile
  split
  · rename_i hdeclared
    rw [h.laid.back s hs x (h.laid.not_below ht hs hfile) (hiff.2 hdeclared), hfile]
  · rename_i hdeclared
    rw [h.laid.target s hs, if_neg fun hg => hdeclared (hiff.1 hg), hfile]

/-- what is in no directory without a target is as it was -/
theorem kept (hl : ∀ s ∈ r.sourcesOf installDir autoload, s <+: l →
    (d.get? (s ++ r.vendorPrefix.segments)).isSome = true) : d'.get? l = d.get? l := by
  apply h.laid.rest
  intro s hs haround
  have htarget := hl s ((h.mem_moved s).1 hs).1 haround
  rw [h.laid.free s hs] at htarget
  cases htarget

/-- a location is in a moved directory, or every directory around it has its target -/
theorem around (l : Location) : (∃ s ∈ ms, ∃ x, l = s ++ x) ∨
    ∀ s ∈ r.sourcesOf installDir autoload, s <+: l → (d.get? (s ++ r.vendorPrefix.segments)).isSome = true := by
  by_cases hmoved : ∃ s ∈ ms, s <+: l
  · obtain ⟨s, hs, x, rfl⟩ := hmoved
    exact .inl ⟨s, hs, x, rfl⟩
  · refine .inr fun s hs hsl => ?_
    cases hget : d.get? (s ++ r.vendorPrefix.segments) with
    | none => exact absurd ⟨s, (h.mem_moved s).2 ⟨hs, hget⟩, hsl⟩ hmoved
    | some e => rfl

/-- **No file is lost.** -/
theorem file_placed (ht : d.Tree) (hsep : Separate (r.sourcesOf installDir autoload)) {bytes : List UInt8}
    (hfile : d.get? l = some (.file bytes)) : d'.get? (r.placeAfter installDir autoload d l) = some (.file bytes) := by
  rcases h.around l with ⟨s, hs, x, rfl⟩ | hkept
  · rw [placeAfter_moved hsep ((h.mem_moved s).1 hs).1 (h.laid.free s hs)]
    exact h.file_moved ht hs hfile
  · rw [placeAfter_kept hkept, h.kept hkept, hfile]

/-- **Each file was there before.** -/
theorem exists_origin (hsep : Separate (r.sourcesOf installDir autoload)) {bytes : List UInt8}
    (hfile : d'.get? l = some (.file bytes)) :
    ∃ k, d.get? k = some (.file bytes) ∧ r.placeAfter installDir autoload d k = l := by
  rcases h.around l with ⟨s, hs, x, rfl⟩ | hkept
  · obtain ⟨hsource, hfree⟩ := (h.mem_moved s).1 hs
    by_cases hpx : r.vendorPrefix.segments <+: x
    · -- in the target
      obtain ⟨y, rfl⟩ := hpx
      rw [← List.append_assoc, h.laid.target s hs] at hfile
      split at hfile
      · cases hfile
      · rename_i hy
        refine ⟨s ++ y, hfile, ?_⟩
        rw [placeAfter_moved hsep hsource hfree, if_neg fun hdeclared => hy ((h.restored_iff hs hfile).2 hdeclared),
          List.append_assoc]
    · by_cases hx : s ++ x ∈ gs
      · rw [h.laid.back s hs x hpx hx] at hfile
        refine ⟨s ++ x, hfile, ?_⟩
        rw [placeAfter_moved hsep hsource hfree, if_pos ((h.mem_restored _).1 hx).1]
      · exact absurd hfile (h.laid.emptied s hs x hpx hx bytes)
  · exact ⟨l, (h.kept hkept).symm.trans hfile, placeAfter_kept hkept⟩

theorem placeAfter_cases (hsep : Separate (r.sourcesOf installDir autoload)) (l : Location) :
    (∃ s ∈ ms, ∃ x, l = s ++ x ∧ r.placeAfter installDir autoload d l = s ++ (r.vendorPrefix.segments ++ x)) ∨
      r.placeAfter installDir autoload d l = l := by
  rcases h.around l with ⟨s, hs, x, rfl⟩ | hkept
  · obtain ⟨hsource, hfree⟩ := (h.mem_moved s).1 hs
    rw [placeAfter_moved hsep hsource hfree]
    split
    · exact .inr rfl
    · exact .inl ⟨s, hs, x, rfl, List.append_assoc _ _ x⟩
  · exact .inr (placeAfter_kept hkept)

/-- **No two files become one.** -/
theorem placeAfter_injective (ht : d.Tree) (hsep : Separate (r.sourcesOf installDir autoload)) {k : Location}
    {bytes : List UInt8} (hk : d.get? k = some (.file bytes)) (hl : d.get? l = some (.file bytes))
    (heq : r.placeAfter installDir autoload d k = r.placeAfter installDir autoload d l) : k = l := by
  have hsource : ∀ s ∈ ms, s ∈ r.sourcesOf installDir autoload := fun s hs => ((h.mem_moved s).1 hs).1
  -- in the targets there were no files
  have hnew : ∀ s ∈ ms, ∀ x, d.get? (s ++ (r.vendorPrefix.segments ++ x)) ≠ some (.file bytes) := fun s hs x hfile =>
    h.laid.not_below ht hs hfile (List.prefix_append _ x)
  rcases h.placeAfter_cases hsep k with ⟨s, hs, x, rfl, hplace⟩ | hplace
  · rcases h.placeAfter_cases hsep l with ⟨t, ht, y, rfl, hplace'⟩ | hplace'
    · rw [hplace, hplace'] at heq
      obtain rfl : s = t := hsep.eq_of_around (hsource s hs) (hsource t ht) (List.prefix_append s _)
        (heq ▸ List.prefix_append t _)
      rw [List.append_cancel_left_eq, List.append_cancel_left_eq] at heq
      rw [heq]
    · rw [hplace, hplace'] at heq
      exact absurd (heq ▸ hl) (hnew s hs x)
  · rcases h.placeAfter_cases hsep l with ⟨t, ht, y, rfl, hplace'⟩ | hplace'
    · rw [hplace, hplace'] at heq
      exact absurd (heq ▸ hk) (hnew t ht y)
    · rw [hplace, hplace'] at heq
      exact heq

theorem staging_free_after (hr : r.Grounded installDir) (hmoved : ms ≠ []) : d'.exists? r.staging = false := by
  obtain ⟨s, hs⟩ := List.exists_mem_of_ne_nil ms hmoved
  have hfree : d'.get? r.stagingAt = none := by
    rw [h.laid.rest _ fun t ht => (h.staging t ht).1]
    exact (h.staging s hs).2
  exact Disk.exists?_eq_false h.laid.tree hr.staging hfree

/-- **Every directory has its target afterwards.** -/
theorem target_after (hsep : Separate (r.sourcesOf installDir autoload))
    (hdirs : ∀ s ∈ r.sourcesOf installDir autoload, d.get? s = some .directory)
    (hs : s ∈ r.sourcesOf installDir autoload) : (d'.get? (s ++ r.vendorPrefix.segments)).isSome = true := by
  by_cases hmoved : s ∈ ms
  · have hnot : s ∉ gs := by
      intro hg
      obtain ⟨bytes, hbytes⟩ := h.laid.files s hg
      cases (hdirs s hs).symm.trans hbytes
    have htarget := h.laid.target s hmoved []
    rw [List.append_nil, List.append_nil, if_neg hnot, hdirs s hs] at htarget
    rw [htarget]
    rfl
  · have hthere : (d.get? (s ++ r.vendorPrefix.segments)).isSome = true := by
      cases hget : d.get? (s ++ r.vendorPrefix.segments) with
      | none => exact absurd ((h.mem_moved s).2 ⟨hs, hget⟩) hmoved
      | some e => rfl
    rw [h.kept]
    · exact hthere
    · intro t ht haround
      rwa [hsep.eq_of_around ht hs haround (List.prefix_append s _)]

end Relocated

/-- what holds of the disk and the report after the relocation of a section -/
structure Layout (r : Relocator) (package installDir : String) (autoload : AutoloadMap) (d : Disk)
    (report : RelocationReport) (d' : Disk) : Prop where
  /-- a file of a directory without a target is in the target, or where it was declared -/
  moved : ∀ s ∈ r.sourcesOf installDir autoload, d.get? (s ++ r.vendorPrefix.segments) = none → ∀ x bytes,
    d.get? (s ++ x) = some (.file bytes) →
      d'.get? (if s ++ x ∈ declaredOf installDir autoload then s ++ x else s ++ r.vendorPrefix.segments ++ x) =
        some (.file bytes)
  /-- what is in no such directory is as it was -/
  kept : ∀ l, (∀ s ∈ r.sourcesOf installDir autoload, s <+: l →
    (d.get? (s ++ r.vendorPrefix.segments)).isSome = true) → d'.get? l = d.get? l
  /-- each file is in one place, and in each place is one of them -/
  placed : ∀ k bytes, d.get? k = some (.file bytes) →
    d'.get? (r.placeAfter installDir autoload d k) = some (.file bytes)
  origin : ∀ l bytes, d'.get? l = some (.file bytes) →
    ∃! k, d.get? k = some (.file bytes) ∧ r.placeAfter installDir autoload d k = l
  /-- after a move the staging path is free; without one nothing has changed -/
  staging : report.moved ≠ [] → d'.exists? r.staging = false
  unmoved : report.moved = [] → d' = d
  /-- the report lists the directories that had no target, and the declared files that were in them -/
  directories : ∃ ms : List Location, ms.Nodup ∧ report.moved = ms.map (r.movedFrom package) ∧
    ∀ s, s ∈ ms ↔ s ∈ r.sourcesOf installDir autoload ∧ d.get? (s ++ r.vendorPrefix.segments) = none
  restored : ∃ gs : List Location, gs.Nodup ∧ report.restored = gs.map Disk.pathOf ∧
    ∀ g, g ∈ gs ↔ g ∈ declaredOf installDir autoload ∧ (d.get? g).isSome = true ∧
      ∃ s ∈ r.sourcesOf installDir autoload, d.get? (s ++ r.vendorPrefix.segments) = none ∧ s <+: g
  /-- a second relocation moves and restores nothing -/
  again : Ends (r.relocate package installDir autoload) d' {} d'

/-- **The layout after a relocation.** Let the directories of a section be there and none inside another, and let the
section declare no directory. If its relocation goes through, each file of a directory without a target is in the
target, or where the section declares it; everything else is as it was, and no file is lost, doubled or overwritten. -/
theorem relocate_layout (hr : r.Grounded installDir) (ht : d.Tree)
    (hsep : Separate (r.sourcesOf installDir autoload))
    (hdirs : ∀ s ∈ r.sourcesOf installDir autoload, d.get? s = some .directory)
    (hfiles : ∀ g ∈ declaredOf installDir autoload, d.get? g ≠ some .directory)
    (h : Ends (r.relocate package installDir autoload) d report d') :
    Layout r package installDir autoload d report d' := by
  obtain ⟨ms, gs, hdone⟩ := relocate_relocated hr ht hsep hdirs hfiles h
  constructor
  case moved => exact fun s hs hfree x bytes hfile => hdone.file_moved ht ((hdone.mem_moved s).2 ⟨hs, hfree⟩) hfile
  case kept => exact fun l hl => hdone.kept hl
  case placed => exact fun k bytes hfile => hdone.file_placed ht hsep hfile
  case origin =>
    intro l bytes hfile
    obtain ⟨k, hk, hplace⟩ := hdone.exists_origin hsep hfile
    refine ⟨k, ⟨hk, hplace⟩, ?_⟩
    rintro k' ⟨hk', hplace'⟩
    exact hdone.placeAfter_injective ht hsep hk' hk (hplace'.trans hplace.symm)
  case staging =>
    intro hmoved
    rw [hdone.moved.2, Ne, List.map_eq_nil_iff] at hmoved
    exact hdone.staging_free_after hr hmoved
  case unmoved =>
    intro hmoved
    rw [hdone.moved.2, List.map_eq_nil_iff] at hmoved
    exact hdone.unmoved hmoved
  case directories => exact ⟨ms, hdone.moved.1, hdone.moved.2, hdone.mem_moved⟩
  case restored =>
    refine ⟨gs, hdone.restored.1, hdone.restored.2, fun g => ?_⟩
    rw [hdone.mem_restored]
    simp only [hdone.mem_moved, and_assoc]
  case again =>
    apply relocate_skip hr hdone.laid.tree
    intro s hs
    exact hdone.target_after hsep hdirs hs

end Runs

/-- two spellings of a directory with a declared file on the way to its target, and a directory that has its target -/
def sampleSection : AutoloadMap :=
  ⟨[("psr-0", .mapping [("P\\Q\\L\\", .several ["lib/", "./lib"]), ("P\\Q\\O_", .single "old")]),
    ("files", .paths ["/lib/P/f.php"])]⟩

def sampleLayoutDisk : Disk where
  entries := [(["v"], .directory), (["v", "a"], .directory), (["v", "a", "lib"], .directory),
    (["v", "a", "lib", "l.php"], .file [1]), (["v", "a", "lib", "P"], .directory),
    (["v", "a", "lib", "P", "f.php"], .file [2]), (["v", "a", "old"], .directory), (["v", "a", "old", "P"], .directory),
    (["v", "a", "old", "P", "Q"], .directory), (["v", "a", "old", "P", "Q", "o.php"], .file [3])]

/-- one directory is moved once, and its declared file goes back beside the target -/
theorem relocate_layout_sample :
    ∃ report d', Ends (sampleRelocator.relocate "acme/legacy" "/v/a" sampleSection) sampleLayoutDisk report d' ∧
      report.moved.map (·.source) = ["/v/a/lib"] ∧ report.restored = ["/v/a/lib/P/f.php"] ∧
      Layout sampleRelocator "acme/legacy" "/v/a" sampleSection sampleLayoutDisk report d' := by
  have hgrounded : sampleRelocator.Grounded "/v/a" := ⟨rfl, rfl, by decide, by decide +kernel⟩
  have htree : sampleLayoutDisk.Tree := Disk.tree_of_isTree (by decide +kernel)
  have hrun : ((sampleRelocator.relocate "acme/legacy" "/v/a" sampleSection).run.run sampleLayoutDisk).1.toOption.map
      (fun report => (report.moved.map (·.source), report.restored)) = some (["/v/a/lib"], ["/v/a/lib/P/f.php"]) := by
    decide +kernel
  rcases hends : (sampleRelocator.relocate "acme/legacy" "/v/a" sampleSection).run.run sampleLayoutDisk with
    ⟨_ | report, d'⟩
  · rw [hends] at hrun
    cases hrun
  · rw [hends] at hrun
    obtain ⟨hmoved, hrestored⟩ := Prod.mk.inj (Option.some.inj hrun)
    have hlayout := relocate_layout hgrounded htree (by decide +kernel) (by decide +kernel) (by decide +kernel) hends
    exact ⟨report, d', hends, hmoved, hrestored, hlayout⟩

/-- a directory with its target there, and something at the staging path -/
def sampleLeftoverDisk : Disk where
  entries := [(["v"], .directory), (["v", "a"], .directory), (["v", "a", "lib"], .directory),
    (["v", "a", "lib", "P"], .directory), (["v", "a", "lib", "P", "Q"], .directory), (["v", "a", "old"], .directory),
    (["v", "a", "old", "P"], .directory), (["v", "a", "old", "P", "Q"], .directory),
    (["v", "_isolate_tmp"], .directory)]

/-- with nothing to move, a relocation goes through and leaves the staging path as it is -/
theorem relocate_leaves_staging :
    sampleRelocator.Grounded "/v/a" ∧ sampleLeftoverDisk.Tree ∧
      Separate (sampleRelocator.sourcesOf "/v/a" sampleSection) ∧
      (∀ s ∈ sampleRelocator.sourcesOf "/v/a" sampleSection, sampleLeftoverDisk.get? s = some .directory) ∧
      (∀ g ∈ declaredOf "/v/a" sampleSection, sampleLeftoverDisk.get? g ≠ some .directory) ∧
      Ends (sampleRelocator.relocate "acme/legacy" "/v/a" sampleSection) sampleLeftoverDisk {} sampleLeftoverDisk ∧
      sampleLeftoverDisk.exists? sampleRelocator.staging = true := by
  have hgrounded : sampleRelocator.Grounded "/v/a" := ⟨rfl, rfl, by decide, by decide +kernel⟩
  have htree : sampleLeftoverDisk.Tree := Disk.tree_of_isTree (by decide +kernel)
  refine ⟨hgrounded, htree, by decide +kernel, by decide +kernel, by decide +kernel, ?_, by decide +kernel⟩
  exact relocate_skip hgrounded htree (by decide +kernel)

end Relocator

end Isolation
