/-
What a whitelist made of the declarations of a set of files covers.

- `whitelist`: the declared namespaces of all files of all packages, with their ancestors.
- `discoverPlan_namespaces`: this is what a run works with, on the trees of the files it can read.
- `join_mem_whitelist_iff`: a namespace is in the whitelist exactly when it is declared or lies above a declared one.
- `editsAt_declaration`: what becomes of a declaration, by its position.
- `whitelist_isolates`: every declaration is moved unless its name is not ASCII or starts with the prefix, and nothing
  is moved that no file declares.
-/
import Isolation.Proofs.Name.Whitelist
import Isolation.Proofs.Prefixing.Declarations
import Isolation.Run

namespace Isolation

open SyntaxNode

/-! ## Files with well-formed names -/

/-- a name in the file is a row of labels -/
def Mention.Labelled : Mention → Prop
  | name n => n.Labelled
  | quoted _ => True

instance (m : Mention) : Decidable m.Labelled :=
  match m with
  | .name n => inferInstanceAs (Decidable n.Labelled)
  | .quoted _ => isTrue trivial

/-- every name in the file is a row of labels, at least one -/
def WellNamed (nodes : List SyntaxNode) : Prop := ∀ m ∈ mentions nodes, m.Labelled

instance (nodes : List SyntaxNode) : Decidable (WellNamed nodes) := inferInstanceAs (Decidable (∀ _ ∈ _, _))

/-- the names of an accepted file are well formed, whatever the parser -/
theorem wellNamed_of_parse {source : List UInt8} {path : String} {parser : Parser} {nodes : List SyntaxNode}
    (h : Php.parse source path parser = .ok nodes) : WellNamed nodes := by
  rw [Php.parse] at h
  split at h
  · rename_i root _
    cases h
    intro m hm
    have hread := Php.lowerChildren_read root.children m hm
    cases m with
    | quoted l => trivial
    | name n => exact hread.held.1
  · cases h

theorem WellNamed.declared {nodes : List SyntaxNode} {n : WrittenName} (h : WellNamed nodes)
    (hn : n ∈ declarations nodes) : n.Labelled := by
  obtain ⟨p, m, hm, hdeclares⟩ := Prefixing.mem_declarations_iff.1 hn
  refine h (.name n) (Prefixing.mentionsOf_subset hm ?_)
  cases m with
  | namespaceLine name => exact List.mem_map.2 ⟨n, by simpa [declared?] using hdeclares, rfl⟩
  | namespaceBlock name body =>
    exact List.mem_append_left _ (List.mem_map.2 ⟨n, by simpa [declared?] using hdeclares, rfl⟩)
  | _ => cases hdeclares

/-! ## The whitelist of some packages -/

/-- the namespaces that the files of a package declare -/
def packageNamespaces (trees : List (List SyntaxNode)) : NamespaceSet :=
  trees.foldl (fun set nodes => set.insertAll (declaredNamespaces nodes)) {}

/-- the namespaces that the files of all packages declare -/
def gathered (packages : List (List (List SyntaxNode))) : NamespaceSet :=
  packages.foldl (fun set trees => set.union (packageNamespaces trees)) {}

/-- the namespaces that the files of all packages declare, with their ancestors -/
def whitelist (packages : List (List (List SyntaxNode))) : NamespaceSet := (gathered packages).closeOverAncestors

theorem mem_foldl_insertAll {set : NamespaceSet} {trees : List (List SyntaxNode)} {x : String} :
    x ∈ (trees.foldl (fun set nodes => set.insertAll (declaredNamespaces nodes)) set).names ↔
      x ∈ set.names ∨ ∃ nodes ∈ trees, ∃ n ∈ declarations nodes, x = trimSeparators (spaceText n) ∧ x ≠ "" := by
  induction trees generalizing set with
  | nil => simp
  | cons nodes rest ih =>
    rw [List.foldl_cons, ih, NamespaceSet.mem_insertAll, declaredNamespaces_eq]
    simp [or_assoc]

section Whitelist

variable {packages : List (List (List SyntaxNode))}

/-- the name is declared in one of the files -/
def DeclaredIn (packages : List (List (List SyntaxNode))) (n : WrittenName) : Prop :=
  ∃ trees ∈ packages, ∃ nodes ∈ trees, n ∈ declarations nodes

theorem joinSegments_injective {a b : List String} (ha : a ≠ []) (hla : a.all isLabel = true) (hb : b ≠ [])
    (hlb : b.all isLabel = true) (h : joinSegments a = joinSegments b) : a = b := by
  rw [← splitSegments_joinLabels ha hla, h, splitSegments_joinLabels hb hlb]

/-- before ancestors are added, the set holds the declared names -/
theorem mem_gathered (hnames : ∀ trees ∈ packages, ∀ nodes ∈ trees, WellNamed nodes) {x : String} :
    x ∈ (gathered packages).names ↔ ∃ n, DeclaredIn packages n ∧ x = joinSegments n.segments := by
  have hnone : ∀ y : String, y ∉ ({} : NamespaceSet).names := fun y hy => by cases hy
  rw [gathered, NamespaceSet.mem_foldl_union]
  constructor
  · rintro (hx | ⟨trees, htrees, hx⟩)
    · exact absurd hx (hnone x)
    rw [packageNamespaces, mem_foldl_insertAll] at hx
    rcases hx with hx | ⟨nodes, hnodes, n, hn, rfl, -⟩
    · exact absurd hx (hnone x)
    obtain ⟨hne, hlabels⟩ := (hnames trees htrees nodes hnodes).declared hn
    exact ⟨n, ⟨trees, htrees, nodes, hnodes, hn⟩, trimSeparators_join hne hlabels⟩
  · rintro ⟨n, ⟨trees, htrees, nodes, hnodes, hn⟩, rfl⟩
    obtain ⟨hne, hlabels⟩ := (hnames trees htrees nodes hnodes).declared hn
    refine .inr ⟨trees, htrees, ?_⟩
    rw [packageNamespaces, mem_foldl_insertAll]
    refine .inr ⟨nodes, hnodes, n, hn, (trimSeparators_join hne hlabels).symm, fun hempty => ?_⟩
    have hsome := (anchored_joinLabels hne hlabels).ne_nil
    rw [hempty] at hsome
    exact hsome rfl

/-- **What is in the whitelist.** A row of labels is in it exactly when it is declared or stands in front of a declared
name. -/
theorem join_mem_whitelist_iff (hnames : ∀ trees ∈ packages, ∀ nodes ∈ trees, WellNamed nodes) {segments : List String}
    (hne : segments ≠ []) (hlabels : segments.all isLabel = true) :
    joinSegments segments ∈ (whitelist packages).names ↔ ∃ n, DeclaredIn packages n ∧ segments <+: n.segments := by
  have hdeclared : ∀ {n}, DeclaredIn packages n → n.Labelled := by
    rintro n ⟨trees, htrees, nodes, hnodes, hn⟩
    exact (hnames trees htrees nodes hnodes).declared hn
  rw [whitelist, NamespaceSet.mem_closeOverAncestors]
  constructor
  · rintro (hx | ⟨s, hs, hx⟩)
    · obtain ⟨n, hn, heq⟩ := (mem_gathered hnames).1 hx
      obtain ⟨hnne, hnlabels⟩ := hdeclared hn
      rw [joinSegments_injective hne hlabels hnne hnlabels heq]
      exact ⟨n, hn, List.prefix_rfl⟩
    · obtain ⟨n, hn, rfl⟩ := (mem_gathered hnames).1 hs
      obtain ⟨hnne, hnlabels⟩ := hdeclared hn
      obtain ⟨front, hfront, hahead, -, heq⟩ := (NamespaceSet.mem_ancestors_join hnne hnlabels).1 hx
      have hfrontLabels : front.all isLabel = true :=
        List.all_eq_true.2 fun l hl => List.all_eq_true.1 hnlabels l (hahead.subset hl)
      rw [joinSegments_injective hne hlabels hfront hfrontLabels heq]
      exact ⟨n, hn, hahead⟩
  · rintro ⟨n, hn, hahead⟩
    obtain ⟨hnne, hnlabels⟩ := hdeclared hn
    have hin := (mem_gathered hnames).2 ⟨n, hn, rfl⟩
    by_cases heq : segments = n.segments
    · exact .inl (heq ▸ hin)
    · exact .inr ⟨_, hin, (NamespaceSet.mem_ancestors_join hnne hnlabels).2 ⟨segments, hne, hahead, heq, rfl⟩⟩

end Whitelist

namespace Prefixing

/-! ## Edits by position -/

/-- the edits of what stands at a position -/
def editsAt (policy : Policy) (nodes : List SyntaxNode) (p : Position) : List Edit :=
  movedEdits policy (occurrencesAt nodes p)

theorem movedEdits_flatMap (policy : Policy) {α : Type} (f : α → List Occurrence) (xs : List α) :
    movedEdits policy (xs.flatMap f) = xs.flatMap fun x => movedEdits policy (f x) := by
  induction xs with
  | nil => rfl
  | cons x rest ih => rw [List.flatMap_cons, movedEdits_append, ih, List.flatMap_cons]

/-- the walk makes the edits of each position, one position after the other -/
theorem edits_eq_editsAt (policy : Policy) (nodes : List SyntaxNode) :
    edits policy nodes = (positions nodes).flatMap (editsAt policy nodes) := by
  have hnone : Binds ({} : Context).aliases [] := by simp [Binds, AliasTable.isAlias]
  have hwalk := (visitAll_walks policy {} [] hnone nodes).edits
  rw [movedEdits_flatMap] at hwalk
  exact hwalk

theorem occurrencesAt_declaration {nodes : List SyntaxNode} {p : Position} {n : WrittenName}
    (h : DeclaresAt nodes p n) : occurrencesAt nodes p = [.space n] := by
  obtain ⟨m, hm, hdeclares⟩ := h
  rw [occurrencesAt, hm]
  cases m with
  | namespaceLine name =>
    obtain rfl : name = some n := hdeclares
    rfl
  | namespaceBlock name body =>
    obtain rfl : name = some n := hdeclares
    rfl
  | _ => cases hdeclares

/-- what becomes of a declaration: it is moved if its name is ASCII, does not start with the prefix and is in the
whitelist -/
theorem editsAt_declaration (policy : Policy) {nodes : List SyntaxNode} {p : Position} {n : WrittenName}
    (h : DeclaresAt nodes p n) (hn : n.Labelled) :
    editsAt policy nodes p =
      if Ascii.isAsciiText (joinSegments n.segments) = true ∧ policy.excludes (joinSegments n.segments) = false ∧
          joinSegments n.segments ∈ policy.namespaces.names then
        [⟨n.span, n.text, policy.vendorPrefix ++ "\\" ++ joinSegments n.segments⟩]
      else [] := by
  have hmoves : (Occurrence.space n).Moves policy ↔ Ascii.isAsciiText (joinSegments n.segments) = true ∧
      policy.excludes (joinSegments n.segments) = false ∧ joinSegments n.segments ∈ policy.namespaces.names := by
    rw [Occurrence.Moves, Policy.prefixSegments_isSome_iff hn.2, and_iff_right hn.1]
  rw [editsAt, occurrencesAt_declaration h, movedEdits]
  by_cases hm : (Occurrence.space n).Moves policy
  · rw [if_pos (hmoves.1 hm), List.filter_cons_of_pos (by simpa using hm), List.filter_nil]
    rfl
  · rw [if_neg (fun hc => hm (hmoves.2 hc)), List.filter_cons_of_neg (by simpa using hm), List.filter_nil]
    rfl

/-- the namespace by which a name is moved: a declared name and the front of a group by themselves, any other name by
what stands in front of its last segment -/
def Occurrence.space? : Occurrence → Option (List String)
  | space name => some name.segments
  | imported name => some name.segments.dropLast
  | referred name _ _ => some name.segments.dropLast
  | quoted _ => none

/-- what a name needs to be moved besides its namespace -/
def Occurrence.Movable : Occurrence → Prop
  | space _ => True
  | imported name => 2 ≤ name.segments.length
  | referred name scope bound =>
    name.relative = false ∧ 2 ≤ name.segments.length ∧ (name.rooted = true ∨ scope = .global) ∧
      name.firstSegment ∉ bound
  | quoted _ => False

/-- whether a name is moved depends on the policy by its namespace alone -/
theorem Occurrence.moves_iff {policy : Policy} {o : Occurrence} {space : List String} (h : o.space? = some space) :
    o.Moves policy ↔ o.Movable ∧ (policy.prefixSegments space).isSome = true := by
  cases o with
  | quoted l => cases h
  | _ =>
    cases h
    simp [Moves, Movable, and_assoc]

/-- the namespace of a name is a row of labels -/
theorem Occurrence.space_labels {o : Occurrence} {n : WrittenName} {space : List String} (hname : o.name? = some n)
    (hspace : o.space? = some space) (hn : n.Labelled) : space.all isLabel = true := by
  have hsub : space ⊆ n.segments := by
    cases o with
    | space name =>
      cases hspace
      cases hname
      exact List.Subset.refl _
    | quoted l => cases hspace
    | _ =>
      cases hspace
      cases hname
      exact List.dropLast_subset _
  exact List.all_eq_true.2 fun l hl => List.all_eq_true.1 hn.2 l (hsub hl)

theorem name?_of_space? {o : Occurrence} {space : List String} (h : o.space? = some space) : ∃ n, o.name? = some n := by
  cases o with
  | quoted l => cases h
  | _ => exact ⟨_, rfl⟩

/-- **The whitelist of a set of files isolates them.** The names of a file that was read are well formed, see
`wellNamed_of_parse`. In every file the walk makes the edits of each position, one position after the other. At a
declaration that is an edit to the name under the prefix, exactly when the name is ASCII and does not start with the
prefix, case aside. And wherever a name is moved, the namespace it is moved by is declared in one of the files or stands
above one that is. -/
theorem whitelist_isolates {packages : List (List (List SyntaxNode))} (vendorPrefix : String)
    (hnames : ∀ trees ∈ packages, ∀ nodes ∈ trees, WellNamed nodes) :
    ∀ trees ∈ packages, ∀ nodes ∈ trees,
      edits ⟨whitelist packages, vendorPrefix⟩ nodes =
          (positions nodes).flatMap (editsAt ⟨whitelist packages, vendorPrefix⟩ nodes) ∧
        (∀ p n, DeclaresAt nodes p n → p ∈ positions nodes ∧
          editsAt ⟨whitelist packages, vendorPrefix⟩ nodes p =
            if Ascii.isAsciiText (joinSegments n.segments) = true ∧
                Text.startsWith (Ascii.lower (joinSegments n.segments)) (Ascii.lower vendorPrefix) = false then
              [⟨n.span, n.text, vendorPrefix ++ "\\" ++ joinSegments n.segments⟩]
            else []) ∧
        ∀ p o space, o ∈ occurrencesAt nodes p → o.Moves ⟨whitelist packages, vendorPrefix⟩ → o.space? = some space →
          ∃ trees' ∈ packages, ∃ nodes' ∈ trees', ∃ p' n, DeclaresAt nodes' p' n ∧
            space ≠ [] ∧ space <+: n.segments := by
  intro trees htrees nodes hnodes
  have hwell := hnames trees htrees nodes hnodes
  refine ⟨edits_eq_editsAt _ nodes, fun p n hdeclares => ?_, fun p o space ho hmoves hspace => ?_⟩
  · have hdeclared := mem_declarations_iff.2 ⟨p, hdeclares⟩
    have hn := hwell.declared hdeclared
    have hin : joinSegments n.segments ∈ (whitelist packages).names :=
      (join_mem_whitelist_iff hnames hn.1 hn.2).2
        ⟨n, ⟨trees, htrees, nodes, hnodes, hdeclared⟩, List.prefix_rfl⟩
    obtain ⟨m, hm, -⟩ := id hdeclares
    refine ⟨nodeAt?_mem_positions hm, ?_⟩
    rw [editsAt_declaration _ hdeclares hn]
    simp only [hin, and_true]
    rfl
  · obtain ⟨n, hname⟩ := name?_of_space? hspace
    have hn : n.Labelled := hwell (.name n) (occurrencesAt_mentioned ho hname)
    have hlabels := Occurrence.space_labels hname hspace hn
    obtain ⟨hne, -, -, hmem⟩ :=
      (Policy.prefixSegments_isSome_iff hlabels).1 ((Occurrence.moves_iff hspace).1 hmoves).2
    obtain ⟨k, ⟨trees', htrees', nodes', hnodes', hk⟩, hahead⟩ := (join_mem_whitelist_iff hnames hne hlabels).1 hmem
    obtain ⟨p', hp'⟩ := mem_declarations_iff.1 hk
    exact ⟨trees', htrees', nodes', hnodes', p', k, hp', hne, hahead⟩

/-- a file that declares `A\B` and refers to a class of `A` -/
def sampleLibrary : List SyntaxNode :=
  [.namespaceLine (some ⟨⟨16, 19⟩, "A\\B", false, false, ["A", "B"]⟩),
    .other [.reference ⟨⟨26, 30⟩, "\\A\\C", true, false, ["A", "C"]⟩]]

/-- a file with a block for `P\D` -/
def sampleBlock : List SyntaxNode :=
  [.other [.namespaceBlock (some ⟨⟨16, 19⟩, "P\\D", false, false, ["P", "D"]⟩) []]]

/-- under the prefix `P` the declaration of `A\B` is moved and that of `P\D` is not; the reference to a class of `A` is
moved by a namespace that stands above a declared one -/
theorem whitelist_isolates_sample :
    editsAt ⟨whitelist [[sampleLibrary], [sampleBlock]], "P"⟩ sampleLibrary [0] =
        [⟨⟨16, 19⟩, "A\\B", "P\\A\\B"⟩] ∧
      editsAt ⟨whitelist [[sampleLibrary], [sampleBlock]], "P"⟩ sampleBlock [0, 0] = [] ∧
      ∃ trees ∈ [[sampleLibrary], [sampleBlock]], ∃ nodes ∈ trees, ∃ p n, DeclaresAt nodes p n ∧
        ["A"] ≠ [] ∧ ["A"] <+: n.segments := by
  have hnames : ∀ trees ∈ [[sampleLibrary], [sampleBlock]], ∀ nodes ∈ trees, WellNamed nodes := by decide +kernel
  have hlibrary := whitelist_isolates "P" hnames [sampleLibrary] (by simp) sampleLibrary (by simp)
  have hblock := whitelist_isolates "P" hnames [sampleBlock] (by simp) sampleBlock (by simp)
  refine ⟨(hlibrary.2.1 [0] _ ⟨_, rfl, rfl⟩).2.trans (by decide +kernel),
    (hblock.2.1 [0, 0] _ ⟨_, rfl, rfl⟩).2.trans (by decide +kernel), ?_⟩
  exact hlibrary.2.2 [1, 0] _ ["A"] (List.mem_singleton.2 rfl) (by decide +kernel) rfl

end Prefixing

/-! ## The whitelist of a run -/

namespace Discovery

/-- the tree of a file that can be read -/
def nodes? (parser : Parser) (d : Disk) (path : String) : Option (List SyntaxNode) :=
  (SourceFile.readBytes d path).toOption.bind fun source => (Php.parse source path parser).toOption

variable {parser : Parser} {d : Disk} {path : String}

theorem wellNamed_nodes? {nodes : List SyntaxNode} (h : nodes? parser d path = some nodes) : WellNamed nodes := by
  obtain ⟨source, -, hparse⟩ := Option.bind_eq_some_iff.1 h
  cases hresult : Php.parse source path parser with
  | error f =>
    rw [hresult] at hparse
    cases hparse
  | ok found =>
    rw [hresult] at hparse
    cases hparse
    exact wellNamed_of_parse hresult

theorem toOption_file (parser : Parser) (d : Disk) (path : String) :
    (file d path parser).toOption = (nodes? parser d path).map declaredNamespaces := by
  rw [file, nodes?]
  cases SourceFile.readBytes d path with
  | error f => rfl
  | ok source =>
    cases h : Php.parse source path parser <;>
      simp [bind, Except.bind, pure, Except.pure, Except.mapError, h, Except.toOption]

theorem addFile_namespaces (parser : Parser) (d : Disk) (found : PackageDiscovery) (path : String) :
    (addFile d parser found path).namespaces =
      ((nodes? parser d path).toList.foldl (fun set nodes => set.insertAll (declaredNamespaces nodes))
        found.namespaces) := by
  have hfile := toOption_file parser d path
  rw [addFile]
  cases h : file d path parser with
  | error f =>
    rw [h] at hfile
    rw [Option.map_eq_none_iff.1 hfile.symm]
    rfl
  | ok names =>
    rw [h] at hfile
    obtain ⟨nodes, hnodes, rfl⟩ := Option.map_eq_some_iff.1 hfile.symm
    rw [hnodes]
    rfl

/-- the namespaces found in a package are those of the files that can be read -/
theorem package_namespaces (parser : Parser) (d : Disk) (root : String) (extensions : List String) :
    (package d root extensions parser).namespaces =
      packageNamespaces ((SourceFile.collect d root extensions).filterMap (nodes? parser d)) := by
  have hfold : ∀ (paths : List String) (found : PackageDiscovery), (paths.foldl (addFile d parser) found).namespaces =
      (paths.filterMap (nodes? parser d)).foldl (fun set nodes => set.insertAll (declaredNamespaces nodes))
        found.namespaces := by
    intro paths
    induction paths with
    | nil => exact fun _ => rfl
    | cons path rest ih =>
      intro found
      rw [List.foldl_cons, ih, addFile_namespaces, List.filterMap_cons]
      cases nodes? parser d path <;> rfl
  exact hfold _ {}

end Discovery

/-- the trees of the packages that a run is about -/
def Engine.trees (e : Engine) (d : Disk) (plan : List (Package × Option String)) : List (List (List SyntaxNode)) :=
  (Engine.eligible plan).map fun package =>
    (SourceFile.collect d package.2 e.config.extensions).filterMap (Discovery.nodes? e.parser d)

/-- what is discovered package by package is the union of what is found in each -/
theorem Engine.foldl_addDiscovery_namespaces (e : Engine) (d : Disk) (packages : List (String × String))
    (report : DiscoveryReport) :
    (packages.foldl (e.addDiscovery d) report).namespaces =
      packages.foldl
        (fun set package => set.union (Discovery.package d package.2 e.config.extensions e.parser).namespaces)
        report.namespaces := by
  induction packages generalizing report with
  | nil => rfl
  | cons package rest ih => exact ih (e.addDiscovery d report package)

/-- what a run discovers is the whitelist of its files, all of which have well-formed names -/
theorem Engine.discoverPlan_namespaces (e : Engine) (d : Disk) (plan : List (Package × Option String)) :
    (e.discoverPlan d plan).namespaces = whitelist (e.trees d plan) ∧
      ∀ trees ∈ e.trees d plan, ∀ nodes ∈ trees, WellNamed nodes := by
  constructor
  · rw [discoverPlan, whitelist, gathered, trees, List.foldl_map]
    simp only [← Discovery.package_namespaces]
    exact congrArg NamespaceSet.closeOverAncestors (e.foldl_addDiscovery_namespaces d (eligible plan) {})
  · intro trees htrees nodes hnodes
    obtain ⟨package, -, rfl⟩ := List.mem_map.1 htrees
    obtain ⟨path, -, hpath⟩ := List.mem_filterMap.1 hnodes
    exact Discovery.wellNamed_nodes? hpath

end Isolation
