/-
References that go through an import. A name that an import binds with `as` is an alias, and a reference that starts with
an alias is left alone. Without `as` an import binds the last segment of its name, and that is no alias: `Lib\Thing`
behind an import of `Acme\Lib` is moved if `Lib` is.

- `ImportedBefore`: the import clauses that stand before a position.
- `boundName`: the name that a clause binds.
- `mem_aliasesAt_iff`: the aliases of a position are those that the clauses before it give.
- `reference_through_import_edited_iff`: which references through an import are edited.
-/
import Isolation.Proofs.Prefixing.Coverage

namespace Isolation.Prefixing

/-! ## Imports before a position -/

/-- a clause of an import of the file -/
def Imported (nodes : List SyntaxNode) (clause : ImportClause) : Prop :=
  ∃ q decl, nodeAt? nodes q = some (.imports decl) ∧ clause ∈ decl.clauses

/-- a clause of an import that stands before a position -/
def ImportedBefore (nodes : List SyntaxNode) (p : Position) (clause : ImportClause) : Prop :=
  ∃ q decl, q < p ∧ nodeAt? nodes q = some (.imports decl) ∧ clause ∈ decl.clauses

/-- the name that a clause binds: its alias or, without one, the last segment of what it imports -/
def boundName (clause : ImportClause) : String := clause.alias?.getD clause.name.lastSegment

/-- the aliases that a node binds itself -/
def ownAliases : SyntaxNode → List String
  | .imports decl => decl.clauses.filterMap (·.alias?)
  | _ => []

variable {nodes : List SyntaxNode} {p : Position} {m : SyntaxNode} {clause : ImportClause} {x : String}

theorem aliases_eq_flatMap (nodes : List SyntaxNode) : aliases nodes = nodes.flatMap aliasesOf := by
  induction nodes with
  | nil => rfl
  | cons n rest ih => rw [aliases, ih, List.flatMap_cons]

theorem aliasesOf_eq (n : SyntaxNode) : aliasesOf n = ownAliases n ++ (inside n).flatMap aliasesOf := by
  rw [← aliases_eq_flatMap]
  cases n <;> simp [aliasesOf, ownAliases, inside, aliases]

/-- an alias is bound in a file by a clause of one of its imports -/
theorem mem_aliases_iff : x ∈ aliases nodes ↔ ∃ clause, Imported nodes clause ∧ clause.alias? = some x := by
  rw [aliases_eq_flatMap, mem_flatMap_iff_nodeAt? aliasesOf_eq]
  constructor
  · rintro ⟨q, m, hq, hx⟩
    cases m with
    | imports decl =>
      obtain ⟨clause, hclause, halias⟩ := List.mem_filterMap.1 hx
      exact ⟨clause, ⟨q, decl, hq, hclause⟩, halias⟩
    | _ => cases hx
  · rintro ⟨clause, ⟨q, decl, hq, hclause⟩, halias⟩
    exact ⟨q, _, hq, List.mem_filterMap.2 ⟨clause, hclause, halias⟩⟩

/-- the nodes in front of the `i`-th one, with what they hold -/
theorem nodeAt?_take {i k : Nat} {q : Position} :
    nodeAt? (nodes.take i) (k :: q) = some m ↔ k < i ∧ nodeAt? nodes (k :: q) = some m := by
  cases q with
  | nil => simp [nodeAt?, List.getElem?_take]
  | cons j q =>
    rw [nodeAt?, nodeAt?, List.getElem?_take]
    by_cases hk : k < i <;> simp [hk]

/-- an import before a position is in an earlier node of the outermost list, or before the position in the same node -/
theorem importedBefore_cons {i : Nat} :
    ImportedBefore nodes (i :: p) clause ↔ Imported (nodes.take i) clause ∨
      ∃ q decl, q < p ∧ nodeAt? nodes (i :: q) = some (.imports decl) ∧ clause ∈ decl.clauses := by
  constructor
  · rintro ⟨q, decl, hlt, hq, hclause⟩
    cases q with
    | nil => cases hq
    | cons k q =>
      rcases List.cons_lt_cons_iff.1 hlt with hk | ⟨rfl, hbefore⟩
      · exact .inl ⟨k :: q, decl, nodeAt?_take.2 ⟨hk, hq⟩, hclause⟩
      · exact .inr ⟨q, decl, hbefore, hq, hclause⟩
  · rintro (⟨q, decl, hq, hclause⟩ | ⟨q, decl, hlt, hq, hclause⟩)
    · cases q with
      | nil => cases hq
      | cons k q =>
        obtain ⟨hk, hq⟩ := nodeAt?_take.1 hq
        exact ⟨k :: q, decl, List.cons_lt_cons_iff.2 (.inl hk), hq, hclause⟩
    · exact ⟨i :: q, decl, List.cons_lt_cons_iff.2 (.inr ⟨rfl, hlt⟩), hq, hclause⟩

/-- inside a node, what stands before a position of the file stands before it in the node -/
theorem importedBefore_inside {i j : Nat} {n : SyntaxNode} (hn : nodes[i]? = some n)
    (hm : nodeAt? (inside n) (j :: p) = some m) :
    (∃ q decl, q < j :: p ∧ nodeAt? nodes (i :: q) = some (.imports decl) ∧ clause ∈ decl.clauses) ↔
      ImportedBefore (inside n) (j :: p) clause := by
  refine exists_congr fun q => exists_congr fun decl => and_congr_right fun _ => and_congr_left fun _ => ?_
  cases q with
  | nil =>
    -- an import holds no positions
    refine iff_of_false (fun hq => ?_) (by simp [nodeAt?])
    rw [nodeAt?, hn, Option.some.injEq] at hq
    rw [hq] at hm
    cases p <;> simp [nodeAt?, inside] at hm
  | cons k q => rw [nodeAt?, hn, Option.bind_some]

/-- the aliases of a position are those of the imports before it -/
theorem mem_aliasesAt_iff (h : nodeAt? nodes p = some m) :
    x ∈ aliasesAt nodes p ↔ ∃ clause, ImportedBefore nodes p clause ∧ clause.alias? = some x := by
  induction p generalizing nodes with
  | nil => cases h
  | cons i rest ih =>
    simp only [importedBefore_cons, or_and_right, exists_or]
    cases rest with
    | nil =>
      rw [aliasesAt, mem_aliases_iff, or_iff_left]
      rintro ⟨clause, ⟨q, decl, hlt, -⟩, -⟩
      exact absurd hlt (List.not_lt_nil q)
    | cons j rest =>
      obtain ⟨n, hn, hm⟩ := Option.bind_eq_some_iff.1 h
      simp only [importedBefore_inside hn hm]
      rw [aliasesAt, List.mem_append, mem_aliases_iff, hn, ih hm]

/-! ## References through an import -/

/-- the one occurrence at a reference is the reference itself -/
theorem editsAt_reference (policy : Policy) {name : WrittenName} (h : nodeAt? nodes p = some (.reference name)) :
    editsAt policy nodes p ≠ [] ↔ (Occurrence.referred name (scopeAt nodes p) (aliasesAt nodes p)).Moves policy := by
  rw [editsAt, occurrencesAt, h]
  dsimp only
  rw [occurrencesOf, movedEdits]
  by_cases hmoves : (Occurrence.referred name (scopeAt nodes p) (aliasesAt nodes p)).Moves policy
  · simp [hmoves]
  · simp [hmoves]

/-- **References through an import.** Let a reference without a leading separator stand at a position of a file. The
edits of the file are those of its positions. The reference starts with a name that an import before it binds, and is
edited all the same, exactly if some clause before it binds that name without `as` and none with `as`, the scope there is
the global one, and the reference has several segments, is not relative, and stands below a namespace that is moved. -/
theorem reference_through_import_edited_iff (policy : Policy) {name : WrittenName}
    (h : nodeAt? nodes p = some (.reference name)) (hrooted : name.rooted = false) :
    (edits policy nodes = (positions nodes).flatMap (editsAt policy nodes) ∧ p ∈ positions nodes) ∧
      (((∃ clause, ImportedBefore nodes p clause ∧ boundName clause = name.firstSegment) ∧ editsAt policy nodes p ≠ []) ↔
        (∃ clause, ImportedBefore nodes p clause ∧ clause.alias? = none ∧
            clause.name.lastSegment = name.firstSegment) ∧
          (∀ clause, ImportedBefore nodes p clause → clause.alias? ≠ some name.firstSegment) ∧
          scopeAt nodes p = .global ∧ name.relative = false ∧ 2 ≤ name.segments.length ∧
          (policy.prefixSegments name.namespacePart).isSome = true) := by
  refine ⟨⟨edits_eq_editsAt policy nodes, nodeAt?_mem_positions h⟩, ?_⟩
  rw [editsAt_reference policy h, Occurrence.Moves, mem_aliasesAt_iff h, hrooted]
  constructor
  · rintro ⟨⟨clause, hbefore, hbound⟩, hrelative, hlong, hscope, hfree, hmoved⟩
    have hunaliased : ∀ clause, ImportedBefore nodes p clause → clause.alias? ≠ some name.firstSegment :=
      fun clause hbefore halias => hfree ⟨clause, hbefore, halias⟩
    have hnone : clause.alias? = none := by
      cases halias : clause.alias? with
      | none => rfl
      | some bound =>
        rw [boundName, halias] at hbound
        exact absurd (halias.trans (congrArg some hbound)) (hunaliased clause hbefore)
    rw [boundName, hnone] at hbound
    exact ⟨⟨clause, hbefore, hnone, hbound⟩, hunaliased, hscope.resolve_left (by simp), hrelative, hlong, hmoved⟩
  · rintro ⟨⟨clause, hbefore, hnone, hlast⟩, hunaliased, hscope, hrelative, hlong, hmoved⟩
    refine ⟨⟨clause, hbefore, by rw [boundName, hnone]; exact hlast⟩, hrelative, hlong, .inr hscope, ?_, hmoved⟩
    rintro ⟨other, hother, halias⟩
    exact hunaliased other hother halias

/-- an import of `Acme\Lib`, perhaps with an alias, and behind it `Lib\Thing` inside a statement -/
def sampleThroughImport (given : Option String) : List SyntaxNode :=
  [.imports ⟨none, [⟨⟨⟨10, 18⟩, "Acme\\Lib", false, false, ["Acme", "Lib"]⟩, given⟩]⟩,
    .other [.reference ⟨⟨36, 45⟩, "Lib\\Thing", false, false, ["Lib", "Thing"]⟩]]

/-- where `Lib` is moved too, the reference is edited without `as` and left alone with `as Lib` -/
theorem reference_through_import_edited_iff_sample :
    editsAt ⟨⟨["Acme", "Lib"]⟩, "P"⟩ (sampleThroughImport none) [1, 0] ≠ [] ∧
      editsAt ⟨⟨["Acme", "Lib"]⟩, "P"⟩ (sampleThroughImport (some "Lib")) [1, 0] = [] := by
  have hplain : nodeAt? (sampleThroughImport none) [1, 0] =
      some (.reference ⟨⟨36, 45⟩, "Lib\\Thing", false, false, ["Lib", "Thing"]⟩) := rfl
  have haliased : nodeAt? (sampleThroughImport (some "Lib")) [1, 0] =
      some (.reference ⟨⟨36, 45⟩, "Lib\\Thing", false, false, ["Lib", "Thing"]⟩) := rfl
  have hbefore : ∀ given, ImportedBefore (sampleThroughImport given) [1, 0]
      ⟨⟨⟨10, 18⟩, "Acme\\Lib", false, false, ["Acme", "Lib"]⟩, given⟩ :=
    fun given => ⟨[0], _, by decide, rfl, List.mem_singleton.2 rfl⟩
  constructor
  · refine ((reference_through_import_edited_iff _ hplain rfl).2.2
      ⟨⟨_, hbefore none, rfl, rfl⟩, fun clause hclause halias => ?_, by decide +kernel, rfl, by decide,
        by decide +kernel⟩).2
    exact absurd ((mem_aliasesAt_iff hplain).2 ⟨clause, hclause, halias⟩) (by decide +kernel)
  · by_contra hedited
    have hfree := ((reference_through_import_edited_iff _ haliased rfl).2.1 ⟨⟨_, hbefore (some "Lib"), rfl⟩, hedited⟩).2.1
    exact hfree _ (hbefore (some "Lib")) rfl

end Isolation.Prefixing
