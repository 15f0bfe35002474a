/-
Absolute paths as texts, and the locations they name.

- `normalize_eq`: a normalized absolute path is the text of a location, its names plain.
- `join_pathOf`, `parent?_pathOf`, `relativeTo?_pathOf`: what is done to the texts is done to the locations.
-/
import Isolation.Disk.Operations
import Isolation.Proofs.Name.Joining

namespace Isolation

/-- a name that stands for itself in a path -/
structure Plain (name : String) : Prop where
  ne_empty : name ≠ ""
  ne_dot : name ≠ "."
  ne_dots : name ≠ ".."
  no_slash : '/' ∉ name.toList

/-- a location that a path can name -/
def PlainLocation (l : Location) : Prop := ∀ name ∈ l, Plain name

theorem PlainLocation.append {l m : Location} (hl : PlainLocation l) (hm : PlainLocation m) : PlainLocation (l ++ m) :=
  fun name hname => (List.mem_append.1 hname).elim (hl name) (hm name)

theorem PlainLocation.of_append_left {l m : Location} (h : PlainLocation (l ++ m)) : PlainLocation l :=
  fun name hname => h name (List.mem_append_left _ hname)

theorem PlainLocation.of_append_right {l m : Location} (h : PlainLocation (l ++ m)) : PlainLocation m :=
  fun name hname => h name (List.mem_append_right _ hname)

theorem plain_of_label {s : String} (h : isLabel s = true) : Plain s := by
  obtain ⟨c, cs, hs, hc, -⟩ := isLabel_cons h
  have hdot : c ≠ '.' := by
    rintro rfl
    exact absurd hc (by decide)
  have hslash : '/' ∉ s.toList := fun hmem => absurd (isLabel_rest h _ hmem) (by decide)
  refine ⟨?_, ?_, ?_, hslash⟩
  · rintro rfl
    cases hs
  · rintro rfl
    exact hdot (List.cons.inj hs).1.symm
  · rintro rfl
    exact hdot (List.cons.inj hs).1.symm

/-! ## Pieces of a path -/

theorem not_mem_of_mem_splitOn {c : Char} {cs piece : List Char} (h : piece ∈ cs.splitOn c) : c ∉ piece := by
  induction cs generalizing piece with
  | nil =>
    rw [List.splitOn_nil, List.mem_singleton] at h
    rw [h]
    exact List.not_mem_nil
  | cons x xs ih =>
    rw [List.splitOn_cons_eq_if_modifyHead] at h
    split at h
    · rcases List.mem_cons.1 h with rfl | h
      · exact List.not_mem_nil
      · exact ih h
    · rename_i hx
      obtain ⟨first, rest, hsplit⟩ := List.exists_cons_of_ne_nil (List.splitOn_ne_nil c xs)
      rw [hsplit] at h ih
      rcases List.mem_cons.1 h with rfl | h
      · rintro (_ | ⟨_, hmem⟩)
        · simp at hx
        · exact ih List.mem_cons_self hmem
      · exact ih (List.mem_cons_of_mem _ h)

theorem no_slash_of_mem_splitAt {p name : String} (h : name ∈ Text.splitAt '/' p) : '/' ∉ name.toList := by
  obtain ⟨piece, hpiece, rfl⟩ := List.mem_map.1 h
  rw [String.toList_ofList]
  exact not_mem_of_mem_splitOn hpiece

namespace Disk

theorem pathOf_toList (l : Location) : (pathOf l).toList = '/' :: ['/'].intercalate (l.map String.toList) := by
  simp [pathOf, Text.joinWith]

theorem isAbsolute_pathOf (l : Location) : Path.isAbsolute (pathOf l) = true := by
  rw [Path.isAbsolute, Text.startsWith, pathOf_toList]
  rfl

theorem splitAt_pathOf {l : Location} (h : PlainLocation l) (hl : l ≠ []) : Text.splitAt '/' (pathOf l) = "" :: l := by
  have hparts : (pathOf l).toList = ['/'].intercalate ([] :: l.map String.toList) := by
    obtain ⟨name, rest, rfl⟩ := List.exists_cons_of_ne_nil hl
    rw [pathOf_toList, List.map_cons, List.intercalate_cons_cons]
    rfl
  rw [Text.splitAt, hparts, List.splitOn_intercalate]
  · simp
  · simp only [List.forall_mem_cons, List.not_mem_nil, not_false_iff, true_and]
    intro chars hchars
    obtain ⟨name, hname, rfl⟩ := List.mem_map.1 hchars
    exact (h name hname).no_slash
  · exact List.cons_ne_nil _ _

end Disk

namespace Path

theorem piece?_plain {name : String} (h : Plain name) : piece? name = some (.normal name) := by
  simp [piece?, h.ne_empty, h.ne_dot, h.ne_dots]

theorem filterMap_piece? {l : Location} (h : PlainLocation l) : l.filterMap piece? = l.map .normal := by
  induction l with
  | nil => rfl
  | cons name rest ih =>
    rw [List.filterMap_cons_some (piece?_plain (h name List.mem_cons_self)),
      ih fun n hn => h n (List.mem_cons_of_mem name hn), List.map_cons]

theorem components_pathOf {l : Location} (h : PlainLocation l) :
    components (Disk.pathOf l) = .root :: l.map .normal := by
  rw [components, if_pos (Disk.isAbsolute_pathOf l)]
  by_cases hl : l = []
  · subst hl
    rfl
  · rw [Disk.splitAt_pathOf h hl]
    exact congrArg (.root :: ·) (filterMap_piece? h)

theorem pathOf_injective {l m : Location} (hl : PlainLocation l) (hm : PlainLocation m)
    (h : components (Disk.pathOf l) = components (Disk.pathOf m)) : l = m := by
  rw [components_pathOf hl, components_pathOf hm, List.cons.injEq, and_iff_right rfl] at h
  exact List.map_injective_iff.2 (fun _ _ => Component.normal.inj) h

theorem same_pathOf {l m : Location} (hl : PlainLocation l) (hm : PlainLocation m) :
    same (Disk.pathOf l) (Disk.pathOf m) = decide (l = m) := by
  rw [same, Bool.beq_eq_decide_eq, decide_eq_decide]
  exact ⟨pathOf_injective hl hm, fun h => by rw [h]⟩

/-! ## Normal forms -/

/-- a component that goes up, or down to a name -/
def IsStep (c : Component) : Prop := c = .parent ∨ ∃ name, c = .normal name ∧ Plain name

theorem isStep_of_piece {p : String} {c : Component} (h : c ∈ (Text.splitAt '/' p).filterMap piece?) : IsStep c := by
  obtain ⟨name, hname, hpiece⟩ := List.mem_filterMap.1 h
  unfold piece? at hpiece
  split at hpiece
  · cases hpiece
  · rename_i hskip
    split at hpiece
    · exact .inl (Option.some.inj hpiece).symm
    · rename_i hup
      simp only [Bool.or_eq_true, decide_eq_true_eq, not_or] at hskip
      exact .inr ⟨name, (Option.some.inj hpiece).symm, hskip.1, hskip.2, hup, no_slash_of_mem_splitAt hname⟩

/-- A normal form with its last component first: names on the root, or on a row of `..`. -/
def Stacked (absolute : Bool) (stack : List Component) : Prop :=
  ∃ names ups, PlainLocation names ∧
    stack = names.map .normal ++ if absolute then [.root] else List.replicate ups .parent

/-- `..` takes a name away; without one it stays, but not on the root -/
theorem Stacked.step {absolute : Bool} {stack : List Component} {c : Component} (h : Stacked absolute stack)
    (hc : IsStep c) : Stacked absolute (normalizeStep stack c) := by
  obtain ⟨names, ups, hnames, rfl⟩ := h
  rcases hc with rfl | ⟨name, rfl, hname⟩
  · cases names with
    | cons last rest => exact ⟨rest, ups, fun n hn => hnames n (List.mem_cons_of_mem last hn), rfl⟩
    | nil =>
      cases absolute with
      | true => exact ⟨[], 0, hnames, rfl⟩
      | false =>
        refine ⟨[], ups + 1, hnames, ?_⟩
        cases ups <;> simp [normalizeStep, List.replicate_succ]
  · exact ⟨name :: names, ups, List.forall_mem_cons.2 ⟨hname, hnames⟩, rfl⟩

theorem Stacked.run {absolute : Bool} {cs stack : List Component} (h : Stacked absolute stack)
    (hcs : ∀ c ∈ cs, IsStep c) : Stacked absolute (cs.foldl normalizeStep stack) := by
  induction cs generalizing stack with
  | nil => exact h
  | cons c cs ih =>
    obtain ⟨hc, hrest⟩ := List.forall_mem_cons.1 hcs
    exact ih (h.step hc) hrest

theorem map_text (l : Location) : (l.map Component.normal).map render.text = l := by
  rw [List.map_map]
  exact List.map_id l

theorem render_root (l : Location) : render (.root :: l.map .normal) = Disk.pathOf l := by
  rw [render, map_text, Disk.pathOf]

/-- **A normalized absolute path is the text of a location.** -/
theorem normalize_eq {p : String} (h : isAbsolute p = true) : ∃ l, PlainLocation l ∧ normalize p = Disk.pathOf l := by
  have hbottom : Stacked true [.root] := ⟨[], 0, fun _ hn => absurd hn List.not_mem_nil, rfl⟩
  obtain ⟨names, _, hnames, hfold⟩ := hbottom.run fun _ => isStep_of_piece (p := p)
  refine ⟨names.reverse, fun n hn => hnames n (List.mem_reverse.1 hn), ?_⟩
  rw [normalize, components, if_pos h, normalizeComponents, List.foldl_cons]
  have hroot : normalizeStep [] .root = [.root] := rfl
  rw [hroot, hfold, if_pos rfl, List.reverse_append, List.reverse_singleton, List.singleton_append, ← List.map_reverse,
    render_root]

/-! ## Joins, parents and what is left -/

theorem intercalate_append {l m : List (List Char)} (hl : l ≠ []) (hm : m ≠ []) :
    ['/'].intercalate (l ++ m) = ['/'].intercalate l ++ '/' :: ['/'].intercalate m := by
  induction l with
  | nil => exact absurd rfl hl
  | cons a rest ih =>
    cases rest with
    | nil =>
      obtain ⟨b, m, rfl⟩ := List.exists_cons_of_ne_nil hm
      rw [List.singleton_append, List.intercalate_cons_cons]
      simp [List.intercalate]
    | cons b rest =>
      rw [List.cons_append, List.cons_append, List.intercalate_cons_cons, ← List.cons_append, ih (by simp),
        List.intercalate_cons_cons]
      simp

theorem pathOf_append {l m : Location} (hl : l ≠ []) (hm : m ≠ []) :
    Disk.pathOf (l ++ m) = Disk.pathOf l ++ "/" ++ Text.joinWith '/' m := by
  apply String.toList_inj.1
  have hmap : ∀ {n : Location}, n ≠ [] → n.map String.toList ≠ [] := fun hn h => hn (List.map_eq_nil_iff.1 h)
  rw [Disk.pathOf_toList, List.map_append, intercalate_append (hmap hl) (hmap hm)]
  simp [Disk.pathOf_toList, Text.joinWith]

theorem splitAt_joinWith {m : List String} (hm : ∀ name ∈ m, '/' ∉ name.toList) (hne : m ≠ []) :
    Text.splitAt '/' (Text.joinWith '/' m) = m := by
  rw [Text.splitAt, Text.joinWith, String.toList_ofList, List.splitOn_intercalate]
  · simp
  · intro chars hchars
    obtain ⟨name, hname, rfl⟩ := List.mem_map.1 hchars
    exact hm name hname
  · exact fun h => hne (List.map_eq_nil_iff.1 h)

/-- pieces in a row, none of them empty, are no absolute path -/
theorem not_isAbsolute_joinWith {m : List String} (hm : ∀ name ∈ m, '/' ∉ name.toList) (hfilled : "" ∉ m) :
    isAbsolute (Text.joinWith '/' m) = false := by
  by_cases hne : m = []
  · subst hne
    rfl
  by_contra habsolute
  rw [Bool.not_eq_false, isAbsolute, Text.startsWith_iff] at habsolute
  obtain ⟨rest, hrest⟩ := habsolute
  have hsplit := splitAt_joinWith hm hne
  rw [Text.splitAt, ← hrest] at hsplit
  have hfront : (['/'] ++ rest).splitOn '/' = [] :: rest.splitOn '/' := by
    rw [List.singleton_append, List.splitOn_cons_eq_if_modifyHead, if_pos (by simp)]
  rw [show "/".toList = ['/'] from rfl, hfront, List.map_cons] at hsplit
  exact hfilled (hsplit ▸ List.mem_cons_self)

/-- the path of a location below the top does not end with a separator -/
theorem not_endsWith_pathOf {l : Location} (hl : PlainLocation l) (hne : l ≠ []) :
    Text.endsWith (Disk.pathOf l) "/" = false := by
  by_contra hends
  rw [Bool.not_eq_false, Text.endsWith, List.isSuffixOf_iff_suffix] at hends
  obtain ⟨front, hfront⟩ := hends
  have hsplit := Disk.splitAt_pathOf hl hne
  rw [Text.splitAt, ← hfront, show "/".toList = '/' :: [] from rfl, List.splitOn_append_cons_self, List.splitOn_nil,
    List.map_append] at hsplit
  have hlast : "" ∈ l := by
    have hgetLast := congrArg List.getLast? hsplit
    rw [List.map_singleton, List.getLast?_concat, List.getLast?_cons_of_ne_nil hne] at hgetLast
    exact List.mem_of_getLast? hgetLast.symm
  exact (hl "" hlast).ne_empty rfl

theorem join_pathOf {l m : Location} (hl : PlainLocation l) (hm : PlainLocation m) (hne : m ≠ []) :
    join (Disk.pathOf l) (Text.joinWith '/' m) = Disk.pathOf (l ++ m) := by
  have hrelative : isAbsolute (Text.joinWith '/' m) = false :=
    not_isAbsolute_joinWith (fun n hn => (hm n hn).no_slash) fun hempty => (hm "" hempty).ne_empty rfl
  rw [join, if_neg (by rw [hrelative]; exact Bool.false_ne_true)]
  by_cases htop : l = []
  · subst htop
    rfl
  · rw [if_neg, pathOf_append htop hne]
    rw [not_endsWith_pathOf hl htop]
    simp [Disk.pathOf]

theorem isAbsolute_join {p : String} (h : isAbsolute p = true) (q : String) : isAbsolute (join p q) = true := by
  have happend : ∀ {s : String}, isAbsolute s = true → ∀ u, isAbsolute (s ++ u) = true := by
    intro s hs u
    rw [isAbsolute, Text.startsWith_iff] at hs ⊢
    rw [String.toList_append]
    exact hs.trans (List.prefix_append _ _)
  rw [join]
  split
  · assumption
  split
  · exact happend h q
  · exact happend (happend h "/") q

theorem parent?_pathOf {l : Location} {name : String} (h : PlainLocation (l ++ [name])) :
    parent? (Disk.pathOf (l ++ [name])) = some (Disk.pathOf l) := by
  rw [parent?, components_pathOf h, List.map_append, ← List.cons_append, List.reverse_append]
  simp only [List.map_cons, List.map_nil, List.reverse_singleton, List.singleton_append, List.reverse_reverse]
  rw [render_root]

theorem dropFront?_eq {α : Type} [BEq α] [LawfulBEq α] [DecidableEq α] (as bs : List α) :
    Text.dropFront? as bs = if as <+: bs then some (bs.drop as.length) else none := by
  induction as generalizing bs with
  | nil => rw [Text.dropFront?, if_pos List.nil_prefix]; rfl
  | cons a as ih =>
    cases bs with
    | nil => simp [Text.dropFront?]
    | cons b bs =>
      rw [Text.dropFront?, ih]
      by_cases hab : a = b
      · subst hab
        simp [List.cons_prefix_cons]
      · simp [List.cons_prefix_cons, hab]

theorem render_names (l : Location) : render (l.map .normal) = Text.joinWith '/' l := by
  cases l with
  | nil => rfl
  | cons name rest =>
    rw [List.map_cons, render, ← List.map_cons, map_text]
    · exact nofun
    · exact nofun

theorem relativeTo?_pathOf {l m : Location} (hl : PlainLocation l) (hm : PlainLocation m) :
    relativeTo? (Disk.pathOf l) (Disk.pathOf m) =
      if m <+: l then some (Text.joinWith '/' (l.drop m.length)) else none := by
  have hfront : (.root :: m.map Component.normal) <+: .root :: l.map Component.normal ↔ m <+: l := by
    rw [List.cons_prefix_cons, and_iff_right rfl]
    exact List.prefix_map_iff_of_injective fun _ _ => Component.normal.inj
  rw [relativeTo?, components_pathOf hl, components_pathOf hm, dropFront?_eq]
  by_cases h : m <+: l
  · rw [if_pos (hfront.2 h), if_pos h, Option.map_some, List.length_cons, List.length_map, List.drop_succ_cons,
      ← List.map_drop, render_names]
  · rw [if_neg fun hc => h (hfront.1 hc), if_neg h]
    rfl

end Path

end Isolation
