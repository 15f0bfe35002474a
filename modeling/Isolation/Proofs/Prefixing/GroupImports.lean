/-
Group imports against the imports of their names one by one. The front of a group is decided about as a namespace, and
all of its clauses follow; an import by itself is decided about by the namespace in front of its last segment.

- `namesAfter`: the names that an import brings in once its edits are made.
- `ImportsAlone`: an import of one clause of a group by itself.
- `namesAfter_group`, `namesAfter_expansion`: what a group and its expansion bring in.
- `group_import_expands`: in a closed whitelist both bind the same aliases, and they bring in the same name for a clause
  unless the front is moved and the namespace of the clause's own name is not.
- `group_import_differs`: such a clause exists.
-/
import Isolation.Proofs.Name.Whitelist
import Isolation.Proofs.Prefixing.Sites
import Isolation.Proofs.Source.Reading

namespace Isolation.Prefixing

/-! ## What an import brings in -/

/-- the segments that stand for a name once the edits are made -/
def segmentsAfter (edits : List Edit) (name : WrittenName) : List String :=
  match edits.find? (fun e => e.span = name.span) with
  | some e => splitSegments e.replacement
  | none => name.segments

/-- the names that an import brings in once its edits are made, clause by clause and from the root -/
def namesAfter (policy : Policy) (decl : Import) : List (List String) :=
  match decl.front? with
  | some front => decl.clauses.map fun clause => segmentsAfter (editImport policy decl) front ++ clause.name.segments
  | none => decl.clauses.map fun clause => segmentsAfter (editImport policy decl) clause.name

/-- an import of one clause of a group by itself, wherever it stands and however its name is written -/
def ImportsAlone (front : WrittenName) (clause : ImportClause) (decl : Import) : Prop :=
  ∃ name, decl = ⟨none, [⟨name, clause.alias?⟩]⟩ ∧ name.segments = front.segments ++ clause.name.segments

/-- the name, under the vendor prefix if the namespace is moved -/
def nameUnder (policy : Policy) (space name : List String) : List String :=
  if (policy.prefixSegments space).isSome then splitSegments policy.vendorPrefix ++ name else name

variable {policy : Policy} {front name : WrittenName} {clause : ImportClause} {clauses : List ImportClause}

/-- the edit of an occurrence that moves spells the prefix and the name -/
theorem segmentsAfter_moved (hname : name.Labelled) {o : Occurrence} (hspan : (o.edit policy).span = name.span)
    (hedit : (o.edit policy).replacement = policy.vendorPrefix ++ "\\" ++ joinSegments name.segments) :
    segmentsAfter (movedEdits policy [o]) name =
      if o.Moves policy then splitSegments policy.vendorPrefix ++ name.segments else name.segments := by
  rw [movedEdits]
  split
  · rename_i hmoves
    rw [List.filter_cons_of_pos (by simpa using hmoves), List.map_cons, segmentsAfter,
      List.find?_cons_of_pos (by simpa using hspan)]
    dsimp only
    rw [hedit, splitSegments_append, splitSegments_joinLabels hname.1 hname.2]
  · rename_i hmoves
    rw [List.filter_cons_of_neg (by simpa using hmoves)]
    rfl

/-- a group brings in every name by the decision about its front -/
theorem namesAfter_group (hfront : front.Labelled) :
    namesAfter policy ⟨some front, clauses⟩ =
      clauses.map fun clause => nameUnder policy front.segments (front.segments ++ clause.name.segments) := by
  have hedits : editImport policy ⟨some front, clauses⟩ = movedEdits policy [.space front] := editNamespace_eq policy front
  have hafter : segmentsAfter (editImport policy ⟨some front, clauses⟩) front =
      nameUnder policy front.segments front.segments := by
    rw [hedits, segmentsAfter_moved hfront rfl rfl]
    rfl
  rw [namesAfter]
  refine List.map_congr_left fun clause _ => ?_
  rw [hafter, nameUnder, nameUnder]
  split
  · rw [List.append_assoc]
  · rfl

/-- an import by itself brings in its name by the decision about the name's own namespace -/
theorem namesAfter_alone {decl : Import} (hfront : front.Labelled) (hclause : clause.name.Labelled)
    (h : ImportsAlone front clause decl) :
    namesAfter policy decl =
      [nameUnder policy (front.segments ++ clause.name.segments.dropLast) (front.segments ++ clause.name.segments)] := by
  obtain ⟨name, rfl, hsegments⟩ := h
  have hname : name.Labelled := by
    rw [WrittenName.Labelled, hsegments, List.all_append, hfront.2, hclause.2]
    exact ⟨by simp [hfront.1], rfl⟩
  have hqualified : 2 ≤ name.segments.length := by
    have hfrontPos := List.length_pos_of_ne_nil hfront.1
    have hclausePos := List.length_pos_of_ne_nil hclause.1
    rw [hsegments, List.length_append]
    omega
  have hedits : editImport policy ⟨none, [⟨name, clause.alias?⟩]⟩ = movedEdits policy [.imported name] := by
    rw [← editImported_eq]
    exact List.append_nil _
  have hafter : segmentsAfter (editImport policy ⟨none, [⟨name, clause.alias?⟩]⟩) name =
      nameUnder policy name.segments.dropLast name.segments := by
    rw [hedits, segmentsAfter_moved hname rfl rfl]
    simp only [Occurrence.Moves, hqualified, true_and]
    rfl
  rw [namesAfter, List.map_singleton, hafter, hsegments, List.dropLast_append_of_ne_nil hclause.1]

/-- the imports of the clauses one by one -/
theorem namesAfter_expansion {decls : List Import} (hfront : front.Labelled)
    (hclauses : ∀ clause ∈ clauses, clause.name.Labelled) (h : List.Forall₂ (ImportsAlone front) clauses decls) :
    decls.flatMap (namesAfter policy) = clauses.map fun clause =>
      nameUnder policy (front.segments ++ clause.name.segments.dropLast) (front.segments ++ clause.name.segments) := by
  induction h with
  | nil => rfl
  | cons halone _ ih =>
    rw [List.forall_mem_cons] at hclauses
    rw [List.flatMap_cons, namesAfter_alone hfront hclauses.1 halone, ih hclauses.2]
    rfl

/-! ## Aliases -/

/-- a clause binds its alias to the same name in a group and by itself -/
theorem bindAliases_expansion {decls : List Import} (hfront : front.Labelled)
    (hclauses : ∀ clause ∈ clauses, clause.name.Labelled) (h : List.Forall₂ (ImportsAlone front) clauses decls)
    (table : AliasTable) :
    decls.foldl (fun table decl => bindAliases decl table) table = bindAliases ⟨some front, clauses⟩ table := by
  induction h generalizing table with
  | nil => rfl
  | @cons clause decl rest decls halone _ ih =>
    rw [List.forall_mem_cons] at hclauses
    obtain ⟨name, rfl, hsegments⟩ := halone
    have htarget : aliasTarget ⟨none, [⟨name, clause.alias?⟩]⟩ ⟨name, clause.alias?⟩ =
        aliasTarget ⟨some front, clause :: rest⟩ clause := by
      rw [aliasTarget, aliasTarget, hsegments, joinSegments_append _ _ hfront.1 hclauses.1.1]
    rw [List.foldl_cons, ih hclauses.2]
    simp only [bindAliases, List.foldl_cons, List.foldl_nil, htarget]
    rfl

/-- imports in a row leave the scope as it is and bind their aliases in turn -/
theorem visitAll_imports (context : Context) (decls : List Import) :
    (visitAll policy context (decls.map .imports)).2 =
      { context with aliases := decls.foldl (fun table decl => bindAliases decl table) context.aliases } := by
  induction decls generalizing context with
  | nil => rfl
  | cons decl rest ih => rw [List.map_cons, visitAll, ih]; rfl

/-! ## Groups and their expansion -/

/-- in a closed whitelist, with a namespace that is moved every namespace above it is moved -/
theorem prefixSegments_above (hclosed : policy.namespaces.Closed) {space rest : List String} (hne : space ≠ [])
    (h : (space ++ rest).all isLabel = true) (hmoved : (policy.prefixSegments (space ++ rest)).isSome = true) :
    (policy.prefixSegments space).isSome = true := by
  have hspace : space.all isLabel = true := by
    rw [List.all_append, Bool.and_eq_true] at h
    exact h.1
  have hmoves := (Policy.moves_closed (by simp [hne]) h).2 ((Policy.prefixSegments_isSome_iff h).1 hmoved).2
  have habove := Policy.moves_above hclosed h hne (List.prefix_append _ _) hmoves
  exact (Policy.prefixSegments_isSome_iff hspace).2 ⟨hne, (Policy.moves_closed hne hspace).1 habove⟩

theorem nameUnder_eq_iff {space rest name : List String} (hbelow : (policy.prefixSegments rest).isSome = true →
    (policy.prefixSegments space).isSome = true) :
    nameUnder policy space name = nameUnder policy rest name ↔
      ((policy.prefixSegments space).isSome = true → (policy.prefixSegments rest).isSome = true) := by
  have hlonger : splitSegments policy.vendorPrefix ++ name ≠ name := by simp [splitSegments_ne_nil]
  rw [nameUnder, nameUnder]
  by_cases hrest : (policy.prefixSegments rest).isSome = true
  · simp [hrest, hbelow hrest]
  · by_cases hspace : (policy.prefixSegments space).isSome = true
    · simp [hrest, hspace, hlonger]
    · simp [hrest, hspace]

/-- **Group imports.** Let the whitelist be closed, and let each import of a row import one clause of a group by itself.
Behind the row the context is the one behind the group, aliases included. The group brings in each name by the decision
about its front, the row by the decision about the namespace of the name itself; these give the same name exactly if that
namespace is moved whenever the front is, so always for a clause of one segment. -/
theorem group_import_expands (hclosed : policy.namespaces.Closed) (hfront : front.Labelled)
    (hclauses : ∀ clause ∈ clauses, clause.name.Labelled) {decls : List Import}
    (h : List.Forall₂ (ImportsAlone front) clauses decls) (context : Context) :
    (visitAll policy context (decls.map .imports)).2 = (visit policy context (.imports ⟨some front, clauses⟩)).2 ∧
      namesAfter policy ⟨some front, clauses⟩ = clauses.map (fun clause =>
        nameUnder policy front.segments (front.segments ++ clause.name.segments)) ∧
      decls.flatMap (namesAfter policy) = clauses.map (fun clause =>
        nameUnder policy (front.segments ++ clause.name.segments.dropLast) (front.segments ++ clause.name.segments)) ∧
      ∀ clause ∈ clauses,
        nameUnder policy front.segments (front.segments ++ clause.name.segments) =
            nameUnder policy (front.segments ++ clause.name.segments.dropLast)
              (front.segments ++ clause.name.segments) ↔
          ((policy.prefixSegments front.segments).isSome = true →
            (policy.prefixSegments (front.segments ++ clause.name.segments.dropLast)).isSome = true) := by
  refine ⟨?_, namesAfter_group hfront, namesAfter_expansion hfront hclauses h, fun clause hclause => ?_⟩
  · rw [visitAll_imports, bindAliases_expansion hfront hclauses h, visit]
  · refine nameUnder_eq_iff (prefixSegments_above hclosed hfront.1 ?_)
    have hlabels := List.all_eq_true.1 (hclauses clause hclause).2
    rw [List.all_append, hfront.2, Bool.true_and, List.all_eq_true]
    exact fun s hs => hlabels s (List.dropLast_subset _ hs)

/-- a name at some place in the file -/
def sampleName (start stop : Nat) (segments : List String) : WrittenName :=
  ⟨⟨start, stop⟩, joinSegments segments, false, false, segments⟩

/-- `C as D`, `B\E` and `F\G` in a group in front of which `A` stands -/
def sampleClauses : List ImportClause :=
  [⟨sampleName 7 8 ["C"], some "D"⟩, ⟨sampleName 15 18 ["B", "E"], none⟩, ⟨sampleName 20 23 ["F", "G"], none⟩]

/-- the same imports one by one -/
def sampleImports : List Import :=
  [⟨none, [⟨sampleName 4 7 ["A", "C"], some "D"⟩]⟩, ⟨none, [⟨sampleName 18 23 ["A", "B", "E"], none⟩]⟩,
    ⟨none, [⟨sampleName 29 34 ["A", "F", "G"], none⟩]⟩]

/-- under a whitelist of `A` and `A\B` the last clause is moved in the group only -/
theorem group_import_expands_sample :
    (visitAll ⟨⟨["A", "A\\B"]⟩, "P"⟩ {} (sampleImports.map .imports)).2 =
        (visit ⟨⟨["A", "A\\B"]⟩, "P"⟩ {} (.imports ⟨some (sampleName 4 5 ["A"]), sampleClauses⟩)).2 ∧
      namesAfter ⟨⟨["A", "A\\B"]⟩, "P"⟩ ⟨some (sampleName 4 5 ["A"]), sampleClauses⟩ =
        [["P", "A", "C"], ["P", "A", "B", "E"], ["P", "A", "F", "G"]] ∧
      sampleImports.flatMap (namesAfter ⟨⟨["A", "A\\B"]⟩, "P"⟩) =
        [["P", "A", "C"], ["P", "A", "B", "E"], ["A", "F", "G"]] := by
  have halone : List.Forall₂ (ImportsAlone (sampleName 4 5 ["A"])) sampleClauses sampleImports :=
    .cons ⟨_, rfl, rfl⟩ (.cons ⟨_, rfl, rfl⟩ (.cons ⟨_, rfl, rfl⟩ .nil))
  have hclosed : (Policy.namespaces ⟨⟨["A", "A\\B"]⟩, "P"⟩).Closed := by decide +kernel
  obtain ⟨hcontext, hgroup, hrow, -⟩ :=
    group_import_expands hclosed (by decide +kernel) (by decide +kernel) halone {}
  exact ⟨hcontext, hgroup.trans (by decide +kernel), hrow.trans (by decide +kernel)⟩

/-- in the closed whitelist of `A` alone a group moves `A\B\C`, and the import of this name by itself does not -/
theorem group_import_differs :
    NamespaceSet.Closed ⟨["A"]⟩ ∧
      ImportsAlone (sampleName 4 5 ["A"]) ⟨sampleName 7 10 ["B", "C"], none⟩
        ⟨none, [⟨sampleName 4 9 ["A", "B", "C"], none⟩]⟩ ∧
      namesAfter ⟨⟨["A"]⟩, "P"⟩ ⟨some (sampleName 4 5 ["A"]), [⟨sampleName 7 10 ["B", "C"], none⟩]⟩ =
        [["P", "A", "B", "C"]] ∧
      namesAfter ⟨⟨["A"]⟩, "P"⟩ ⟨none, [⟨sampleName 4 9 ["A", "B", "C"], none⟩]⟩ = [["A", "B", "C"]] :=
  ⟨by decide +kernel, ⟨_, rfl, rfl⟩, by decide +kernel, by decide +kernel⟩

end Isolation.Prefixing
