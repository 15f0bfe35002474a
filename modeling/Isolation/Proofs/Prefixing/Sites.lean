/-
What the walk over a file edits, said of each position in the file by itself. A position is a path of indices into the
tree; its scope and its aliases are read off the whole tree, and nothing is carried from one to the next.

- `scopeAt`: the last unbraced declaration before the position inside the innermost braces of a declaration, wrappers
  looked through; else the declaration of these braces; else the global scope.
- `aliasesAt`: the aliases of every import before the position, also of those inside closed braces.
- `Occurrence.Moves`: which names and literals are moved, and `Occurrence.edit`: by what edit.

`edits_eq_occurrences`: the edits of the walk are exactly those of the occurrences that move, in the order of the file.
-/
import Isolation.Prefixing.Traversal
import Isolation.Proofs.Name.Exclusion

namespace Isolation.Prefixing

/-! ## Positions -/

/-- indices from the outermost list of nodes inwards -/
abbrev Position := List Nat

/-- the nodes inside a node -/
def inside : SyntaxNode → List SyntaxNode
  | .namespaceBlock _ body => body
  | .other children => children
  | _ => []

/-- the node at a position -/
def nodeAt? (nodes : List SyntaxNode) : Position → Option SyntaxNode
  | [] => none
  | [i] => nodes[i]?
  | i :: j :: rest => nodes[i]?.bind fun n => nodeAt? (inside n) (j :: rest)

mutual

/-- every position at or inside a node, in the order of the file -/
def positionsOf : SyntaxNode → List Position
  | .namespaceBlock _ body => [] :: positionsFrom 0 body
  | .other children => [] :: positionsFrom 0 children
  | _ => [[]]

/-- every position in nodes side by side, the first of which has index `i` -/
def positionsFrom (i : Nat) : List SyntaxNode → List Position
  | [] => []
  | n :: rest => (positionsOf n).map (i :: ·) ++ positionsFrom (i + 1) rest

end

/-- every position of a file, in its order -/
def positions (nodes : List SyntaxNode) : List Position := positionsFrom 0 nodes

/-! ## The scope of a position -/

mutual

/-- the unbraced declarations at a node, wrappers looked through and braces not -/
def linesOf : SyntaxNode → List (Option WrittenName)
  | .namespaceLine name => [name]
  | .other children => lines children
  | _ => []

def lines : List SyntaxNode → List (Option WrittenName)
  | [] => []
  | n :: rest => linesOf n ++ lines rest

end

/-- the innermost braced declaration around a position -/
def blockAt? (nodes : List SyntaxNode) : Position → Option (Option WrittenName)
  | i :: j :: rest =>
    match nodes[i]? with
    | some (.namespaceBlock name body) => some ((blockAt? body (j :: rest)).getD name)
    | some (.other children) => blockAt? children (j :: rest)
    | _ => none
  | _ => none

/-- the unbraced declarations before a position that are in the same innermost braces -/
def linesBefore (nodes : List SyntaxNode) : Position → List (Option WrittenName)
  | [] => []
  | [i] => lines (nodes.take i)
  | i :: j :: rest =>
    match nodes[i]? with
    | some (.namespaceBlock _ body) => linesBefore body (j :: rest)
    | some (.other children) =>
      if (blockAt? children (j :: rest)).isSome then linesBefore children (j :: rest)
      else lines (nodes.take i) ++ linesBefore children (j :: rest)
    | _ => lines (nodes.take i)

/-- the scope of a position in a file that starts in `outer` -/
def scopeIn (outer : Scope) (nodes : List SyntaxNode) (position : Position) : Scope :=
  match (linesBefore nodes position).getLast? with
  | some name => scopeOf name
  | none =>
    match blockAt? nodes position with
    | some name => scopeOf name
    | none => outer

def scopeAt (nodes : List SyntaxNode) (position : Position) : Scope := scopeIn .global nodes position

/-! ## The aliases of a position -/

mutual

/-- every alias bound at or inside a node -/
def aliasesOf : SyntaxNode → List String
  | .imports decl => decl.clauses.filterMap (·.alias?)
  | .namespaceBlock _ body => aliases body
  | .other children => aliases children
  | _ => []

def aliases : List SyntaxNode → List String
  | [] => []
  | n :: rest => aliasesOf n ++ aliases rest

end

/-- every alias of every import before a position -/
def aliasesAt (nodes : List SyntaxNode) : Position → List String
  | [] => []
  | [i] => aliases (nodes.take i)
  | i :: j :: rest =>
    aliases (nodes.take i) ++
      match nodes[i]? with
      | some n => aliasesAt (inside n) (j :: rest)
      | none => []

/-! ## Occurrences -/

/-- a name or a literal with what decides whether it is moved -/
inductive Occurrence where
  /-- a declared namespace, or the shared front of a group import -/
  | space (name : WrittenName)
  /-- a name of an import that is no group -/
  | imported (name : WrittenName)
  | referred (name : WrittenName) (scope : Scope) (aliases : List String)
  | quoted (l : Literal)

/-- the occurrences that a node is itself, in a scope and behind aliases -/
def occurrencesOf (scope : Scope) (bound : List String) : SyntaxNode → List Occurrence
  | .namespaceLine name => name.toList.map .space
  | .namespaceBlock name _ => name.toList.map .space
  | .imports decl =>
    match decl.front? with
    | some front => [.space front]
    | none => decl.clauses.map fun clause => .imported clause.name
  | .literal l => [.quoted l]
  | .reference name => [.referred name scope bound]
  | .other _ => []

def occurrencesAt (nodes : List SyntaxNode) (position : Position) : List Occurrence :=
  match nodeAt? nodes position with
  | some n => occurrencesOf (scopeAt nodes position) (aliasesAt nodes position) n
  | none => []

/-- every name and literal of a file, in its order -/
def occurrences (nodes : List SyntaxNode) : List Occurrence := (positions nodes).flatMap (occurrencesAt nodes)

namespace Occurrence

/-- the value, with a separator at its end -/
def closedText (value : String) : String :=
  if value.toList.getLast? = some separator then value else value ++ "\\"

/-- the occurrence is moved under the vendor prefix -/
def Moves (policy : Policy) : Occurrence → Prop
  | space name => (policy.prefixSegments name.segments).isSome
  | imported name => 2 ≤ name.segments.length ∧ (policy.prefixSegments name.segments.dropLast).isSome
  | referred name scope bound =>
    name.relative = false ∧ 2 ≤ name.segments.length ∧ (name.rooted = true ∨ scope = .global) ∧
      name.firstSegment ∉ bound ∧ (policy.prefixSegments name.segments.dropLast).isSome
  | quoted l =>
    (separator ∈ l.value.toList ∧ policy.moves (closedText l.value) = true) ∨
      policy.moves (trimSeparators (String.ofList (beforeLastSeparator l.value.toList)) ++ "\\") = true

instance decidableMoves (policy : Policy) : (o : Occurrence) → Decidable (o.Moves policy)
  | space _ => inferInstanceAs (Decidable (_ = true))
  | imported _ => inferInstanceAs (Decidable (_ ∧ _ = true))
  | referred _ _ _ => inferInstanceAs (Decidable (_ = false ∧ _ ∧ (_ = true ∨ _ = Scope.global) ∧ _ ∧ _ = true))
  | quoted _ => inferInstanceAs (Decidable ((_ ∧ _ = true) ∨ _ = true))

/-- the edit of an occurrence that is moved: the vendor prefix and a separator in front of what is written, a leading
separator kept only by references -/
def edit (policy : Policy) : Occurrence → Edit
  | space name => ⟨name.span, name.text, policy.vendorPrefix ++ "\\" ++ joinSegments name.segments⟩
  | imported name => ⟨name.span, name.text, policy.vendorPrefix ++ "\\" ++ joinSegments name.segments⟩
  | referred name _ _ =>
    ⟨name.span, name.text,
      (if name.rooted then "\\" else "") ++ (policy.vendorPrefix ++ "\\" ++ joinSegments name.segments)⟩
  | quoted l => Edit.insertion l.insertionOffset (l.encodeNamespace policy.vendorPrefix)

end Occurrence

/-- the edits of the occurrences that are moved -/
def movedEdits (policy : Policy) (os : List Occurrence) : List Edit :=
  (os.filter fun o => o.Moves policy).map (Occurrence.edit policy)

theorem movedEdits_append (policy : Policy) (a b : List Occurrence) :
    movedEdits policy (a ++ b) = movedEdits policy a ++ movedEdits policy b := by
  simp [movedEdits]

/-! ## Nodes by themselves -/

section Nodes

variable (policy : Policy)

theorem editNamespace_eq (name : WrittenName) : editNamespace policy name = movedEdits policy [.space name] := by
  unfold editNamespace movedEdits
  cases h : policy.prefixSegments name.segments with
  | none => simp [Occurrence.Moves, h]
  | some moved =>
    obtain ⟨hne, rfl⟩ := Policy.prefixSegments_eq_some h
    simp [Occurrence.Moves, h, Occurrence.edit, replaceName, Policy.joinSegments_prefixed policy hne]

theorem editDeclaration_eq (name : Option WrittenName) :
    editDeclaration policy name = movedEdits policy (name.toList.map .space) := by
  cases name with
  | none => rfl
  | some n => exact editNamespace_eq policy n

/-- a name with its prefixed segments spells the prefix, a separator and the name -/
theorem prefixedName_eq_some {name : WrittenName} {moved : List String} (h : prefixedName policy name = some moved) :
    joinSegments moved = policy.vendorPrefix ++ "\\" ++ joinSegments name.segments := by
  unfold prefixedName at h
  obtain ⟨front, hfront, rfl⟩ := Option.map_eq_some_iff.1 h
  obtain ⟨hne, rfl⟩ := Policy.prefixSegments_eq_some hfront
  have hsegments : name.segments ≠ [] := by
    rintro hnil
    exact hne (by simp [WrittenName.namespacePart, hnil])
  rw [List.append_assoc, WrittenName.namespacePart_append_lastSegment hsegments,
    Policy.joinSegments_prefixed policy hsegments]

theorem prefixedName_isSome (name : WrittenName) :
    (prefixedName policy name).isSome = (policy.prefixSegments name.segments.dropLast).isSome := by
  simp [prefixedName, WrittenName.namespacePart]

theorem editImported_eq (name : WrittenName) : editImported policy name = movedEdits policy [.imported name] := by
  unfold editImported movedEdits
  by_cases hq : 2 ≤ name.segments.length
  · have hqual : name.isQualified = true := by simpa [WrittenName.isQualified, Nat.lt_iff_add_one_le] using hq
    cases h : prefixedName policy name with
    | none =>
      have hnone := prefixedName_isSome policy name
      rw [h] at hnone
      simp [Occurrence.Moves, hqual, ← hnone]
    | some moved =>
      have hsome := prefixedName_isSome policy name
      rw [h] at hsome
      simp [Occurrence.Moves, Occurrence.edit, hqual, hq, ← hsome, replaceName, prefixedName_eq_some policy h]
  · have hqual : name.isQualified = false := by simp [WrittenName.isQualified]; omega
    simp [Occurrence.Moves, hqual, hq]

theorem editImport_eq (decl : Import) (scope : Scope) (bound : List String) :
    editImport policy decl = movedEdits policy (occurrencesOf scope bound (.imports decl)) := by
  obtain ⟨front?, clauses⟩ := decl
  cases front? with
  | some front => exact editNamespace_eq policy front
  | none =>
    simp only [editImport, occurrencesOf]
    induction clauses with
    | nil => rfl
    | cons clause rest ih =>
      rw [List.flatMap_cons, List.map_cons, ← List.singleton_append, movedEdits_append, ih, editImported_eq]

theorem editLiteral_eq (l : Literal) : editLiteral policy l = movedEdits policy [.quoted l] := by
  unfold editLiteral movedEdits
  have h : (isNamespaceText policy l.value || isMemberText policy l.value) = true ↔
      (Occurrence.quoted l).Moves policy := by
    simp [isNamespaceText, isMemberText, Occurrence.Moves, Occurrence.closedText]
  by_cases hm : (Occurrence.quoted l).Moves policy
  · rw [if_pos (h.2 hm)]
    simp [hm, Occurrence.edit]
  · rw [if_neg (fun hc => hm (h.1 hc))]
    simp [hm]

/-- `bound` holds exactly the aliases of a table -/
def Binds (table : AliasTable) (bound : List String) : Prop := ∀ x, table.isAlias x = true ↔ x ∈ bound

theorem Scope.isGlobal_iff (scope : Scope) : scope.isGlobal = true ↔ scope = .global := by
  cases scope <;> simp [Scope.isGlobal]

theorem editReference_eq (context : Context) (bound : List String) (h : Binds context.aliases bound)
    (name : WrittenName) :
    editReference policy context name = movedEdits policy [.referred name context.scope bound] := by
  have halias : context.aliases.isAlias name.firstSegment = true ↔ name.firstSegment ∈ bound := h _
  have hscope := Scope.isGlobal_iff context.scope
  have hqual : name.isQualified = true ↔ 2 ≤ name.segments.length := by simp [WrittenName.isQualified]; omega
  have hsome := prefixedName_isSome policy name
  unfold editReference movedEdits
  split
  · rename_i hc
    have : ¬ (Occurrence.referred name context.scope bound).Moves policy := by
      rintro ⟨hrel, hlen, -⟩
      simp [hrel, hqual.2 hlen] at hc
    simp [this]
  rename_i hc
  split
  · rename_i hs
    have : ¬ (Occurrence.referred name context.scope bound).Moves policy := by
      rintro ⟨-, -, hroot | hglob, -⟩
      · simp [hroot] at hs
      · simp [hscope.2 hglob] at hs
    simp [this]
  rename_i hs
  split
  · rename_i ha
    have : ¬ (Occurrence.referred name context.scope bound).Moves policy := fun hm => hm.2.2.2.1 (halias.1 ha)
    simp [this]
  rename_i ha
  cases hp : prefixedName policy name with
  | none =>
    have : ¬ (Occurrence.referred name context.scope bound).Moves policy := by
      rintro ⟨-, -, -, -, hm⟩
      rw [← hsome, hp] at hm
      simp at hm
    simp [this]
  | some moved =>
    have : (Occurrence.referred name context.scope bound).Moves policy := by
      simp only [Bool.or_eq_true, Bool.not_eq_true', not_or, Bool.not_eq_true, Bool.not_eq_false] at hc
      refine ⟨hc.1, hqual.1 hc.2, ?_, fun hm => ha (halias.2 hm), by rw [← hsome, hp]; rfl⟩
      cases hr : name.rooted with
      | true => exact Or.inl rfl
      | false => exact Or.inr (hscope.1 (by simpa [hr] using hs))
    simp only [this, List.filter_cons_of_pos, decide_true, List.filter_nil, List.map_cons, List.map_nil,
      Occurrence.edit, prefixedName_eq_some policy hp]
    cases name.rooted <;> simp

end Nodes

/-! ## What the walk leaves behind -/

/-- the scope behind nodes with these unbraced declarations -/
def scopeBehind (outer : Scope) (declared : List (Option WrittenName)) : Scope :=
  match declared.getLast? with
  | some name => scopeOf name
  | none => outer

theorem scopeBehind_append (outer : Scope) (a b : List (Option WrittenName)) :
    scopeBehind outer (a ++ b) = scopeBehind (scopeBehind outer a) b := by
  unfold scopeBehind
  rw [List.getLast?_append]
  cases b.getLast? <;> rfl

theorem put_any (key value name : String) (entries : List (String × String)) :
    ((Entries.put key value entries).any (·.1 == name)) = (entries.any (·.1 == name) || key == name) := by
  induction entries with
  | nil => simp [Entries.put]
  | cons e rest ih =>
    obtain ⟨k, v⟩ := e
    unfold Entries.put
    split
    · rename_i h
      subst h
      simp only [List.any_cons]
      cases k == name <;> simp
    · simp only [List.any_cons, ih, Bool.or_assoc]

theorem Binds.bindAliases {table : AliasTable} {bound : List String} (h : Binds table bound) (decl : Import) :
    Binds (bindAliases decl table) (bound ++ decl.clauses.filterMap (·.alias?)) := by
  unfold Prefixing.bindAliases
  generalize hclauses : decl.clauses = clauses
  clear hclauses
  induction clauses generalizing table bound with
  | nil => simpa using h
  | cons clause rest ih =>
    rw [List.foldl_cons]
    cases ha : clause.alias? with
    | none => simpa [List.filterMap_cons, ha] using ih h
    | some name =>
      have hname : Binds (table.bind name (aliasTarget decl clause)) (bound ++ [name]) := by
        intro x
        have hx := h x
        rw [AliasTable.isAlias] at hx ⊢
        rw [AliasTable.bind, put_any, Bool.or_eq_true, hx, beq_iff_eq, List.mem_append, List.mem_singleton,
          eq_comm (a := name)]
      simpa [List.filterMap_cons, ha] using ih hname

/-! ## Positions one node further -/

/-- the occurrences at a position of nodes that start in a scope and behind some aliases -/
def occurrencesIn (outer : Scope) (bound : List String) (nodes : List SyntaxNode) (position : Position) :
    List Occurrence :=
  match nodeAt? nodes position with
  | some n => occurrencesOf (scopeIn outer nodes position) (bound ++ aliasesAt nodes position) n
  | none => []

section Shift

variable (n : SyntaxNode) (rest : List SyntaxNode) (i : Nat) (p : Position)

theorem nodeAt?_succ : nodeAt? (n :: rest) ((i + 1) :: p) = nodeAt? rest (i :: p) := by
  cases p <;> simp [nodeAt?]

theorem blockAt?_succ : blockAt? (n :: rest) ((i + 1) :: p) = blockAt? rest (i :: p) := by
  cases p <;> simp [blockAt?]

theorem aliasesAt_succ : aliasesAt (n :: rest) ((i + 1) :: p) = aliasesOf n ++ aliasesAt rest (i :: p) := by
  cases p <;> simp [aliasesAt, aliases]

theorem linesBefore_succ : linesBefore (n :: rest) ((i + 1) :: p) =
    if (blockAt? rest (i :: p)).isSome then linesBefore rest (i :: p) else linesOf n ++ linesBefore rest (i :: p) := by
  cases p with
  | nil => simp [linesBefore, blockAt?, lines]
  | cons j q =>
    cases h : rest[i]? with
    | none => simp [linesBefore, blockAt?, lines, h]
    | some m =>
      cases m with
      | other children =>
        simp only [linesBefore, blockAt?, lines, h, List.getElem?_cons_succ, List.take_succ_cons]
        split <;> simp
      | _ => simp [linesBefore, blockAt?, lines, h]

/-- a position behind `n` has the occurrences that it has in the rest alone, in the scope and behind the aliases
that `n` leaves -/
theorem occurrencesIn_succ (outer : Scope) (bound : List String) :
    occurrencesIn outer bound (n :: rest) ((i + 1) :: p) =
      occurrencesIn (scopeBehind outer (linesOf n)) (bound ++ aliasesOf n) rest (i :: p) := by
  have hscope : scopeIn outer (n :: rest) ((i + 1) :: p) = scopeIn (scopeBehind outer (linesOf n)) rest (i :: p) := by
    unfold scopeIn
    rw [linesBefore_succ, blockAt?_succ]
    cases hb : blockAt? rest (i :: p) with
    | some b => simp
    | none =>
      simp only [Option.isSome_none, Bool.false_eq_true, if_false, List.getLast?_append, scopeBehind]
      cases (linesBefore rest (i :: p)).getLast? <;> rfl
  unfold occurrencesIn
  rw [nodeAt?_succ, hscope, aliasesAt_succ, List.append_assoc]

end Shift

/-- an index further on the first level -/
def bump : Position → Position
  | [] => []
  | i :: p => (i + 1) :: p

theorem positionsFrom_succ (i : Nat) (nodes : List SyntaxNode) :
    positionsFrom (i + 1) nodes = (positionsFrom i nodes).map bump := by
  induction nodes generalizing i with
  | nil => simp [positionsFrom]
  | cons n rest ih =>
    simp only [positionsFrom, List.map_append, List.map_map, ih]
    rfl

/-- nodes side by side have their index at the front of their positions -/
theorem positionsFrom_cons (i : Nat) (nodes : List SyntaxNode) :
    ∀ p ∈ positionsFrom i nodes, ∃ k q, p = k :: q ∧ i ≤ k := by
  induction nodes generalizing i with
  | nil => simp [positionsFrom]
  | cons n rest ih =>
    intro p hp
    rw [positionsFrom, List.mem_append] at hp
    rcases hp with hp | hp
    · obtain ⟨q, -, rfl⟩ := List.mem_map.1 hp
      exact ⟨i, q, rfl, Nat.le_refl i⟩
    · obtain ⟨k, q, rfl, hk⟩ := ih _ p hp
      exact ⟨k, q, rfl, Nat.le_of_succ_le hk⟩

/-- everything in a list of nodes, said of its first node and of the rest -/
theorem occurrencesIn_cons (outer : Scope) (bound : List String) (n : SyntaxNode) (rest : List SyntaxNode) :
    (positionsFrom 0 (n :: rest)).flatMap (occurrencesIn outer bound (n :: rest)) =
      (positionsOf n).flatMap (fun p => occurrencesIn outer bound (n :: rest) (0 :: p)) ++
        (positionsFrom 0 rest).flatMap
          (occurrencesIn (scopeBehind outer (linesOf n)) (bound ++ aliasesOf n) rest) := by
  have hrest : (positionsFrom 1 rest).flatMap (occurrencesIn outer bound (n :: rest)) =
      (positionsFrom 0 rest).flatMap
        (occurrencesIn (scopeBehind outer (linesOf n)) (bound ++ aliasesOf n) rest) := by
    rw [positionsFrom_succ, List.flatMap_map]
    apply List.flatMap_congr
    intro p hp
    obtain ⟨k, q, rfl, -⟩ := positionsFrom_cons 0 rest p hp
    exact occurrencesIn_succ n rest k q outer bound
  rw [positionsFrom, List.flatMap_append, List.flatMap_map, hrest]

theorem occurrencesIn_head (outer : Scope) (bound : List String) (n : SyntaxNode) (rest : List SyntaxNode) :
    occurrencesIn outer bound (n :: rest) [0] = occurrencesOf outer bound n := by
  simp [occurrencesIn, nodeAt?, scopeIn, linesBefore, lines, blockAt?, aliasesAt, aliases]

theorem occurrencesIn_block (outer : Scope) (bound : List String) (name : Option WrittenName)
    (body rest : List SyntaxNode) (i : Nat) (p : Position) :
    occurrencesIn outer bound (.namespaceBlock name body :: rest) (0 :: i :: p) =
      occurrencesIn (scopeOf name) bound body (i :: p) := by
  have hscope : scopeIn outer (.namespaceBlock name body :: rest) (0 :: i :: p) =
      scopeIn (scopeOf name) body (i :: p) := by
    simp only [scopeIn, linesBefore, blockAt?, List.getElem?_cons_zero]
    cases (linesBefore body (i :: p)).getLast? with
    | some _ => rfl
    | none => cases blockAt? body (i :: p) <;> rfl
  unfold occurrencesIn
  rw [hscope]
  simp [nodeAt?, inside, aliasesAt, aliases]

theorem occurrencesIn_other (outer : Scope) (bound : List String) (children rest : List SyntaxNode) (i : Nat)
    (p : Position) :
    occurrencesIn outer bound (.other children :: rest) (0 :: i :: p) =
      occurrencesIn outer bound children (i :: p) := by
  have hscope : scopeIn outer (.other children :: rest) (0 :: i :: p) = scopeIn outer children (i :: p) := by
    simp [scopeIn, linesBefore, blockAt?, lines]
  unfold occurrencesIn
  rw [hscope]
  simp [nodeAt?, inside, aliasesAt, aliases]

/-! ## The walk -/

/-- what a walk over something has to give: the edits of its occurrences, and the context behind it -/
structure Walks (policy : Policy) (context : Context) (bound : List String) (os : List Occurrence)
    (declared : List (Option WrittenName)) (bindings : List String) (result : List Edit × Context) : Prop where
  edits : result.1 = movedEdits policy os
  scope : result.2.scope = scopeBehind context.scope declared
  aliases : Binds result.2.aliases (bound ++ bindings)

mutual

/-- one node: its own occurrences and those inside it -/
theorem visit_walks (policy : Policy) (context : Context) (bound : List String) (h : Binds context.aliases bound)
    (rest : List SyntaxNode) : (n : SyntaxNode) →
    Walks policy context bound
      ((positionsOf n).flatMap fun p => occurrencesIn context.scope bound (n :: rest) (0 :: p))
      (linesOf n) (aliasesOf n) (visit policy context n)
  | .namespaceLine name => by
    refine ⟨?_, rfl, by simpa [visit, aliasesOf] using h⟩
    simp [visit, positionsOf, occurrencesIn_head, occurrencesOf, editDeclaration_eq]
  | .namespaceBlock name body => by
    have inner := visitAll_walks policy { context with scope := scopeOf name } bound h body
    refine ⟨?_, rfl, inner.aliases⟩
    have hbody : (positionsFrom 0 body).flatMap
          (fun p => occurrencesIn context.scope bound (.namespaceBlock name body :: rest) (0 :: p)) =
        (positionsFrom 0 body).flatMap (occurrencesIn (scopeOf name) bound body) := by
      apply List.flatMap_congr
      intro p hp
      obtain ⟨k, q, rfl, -⟩ := positionsFrom_cons 0 body p hp
      exact occurrencesIn_block _ _ _ _ _ k q
    rw [positionsOf, List.flatMap_cons, occurrencesIn_head, hbody, movedEdits_append, visit, inner.edits,
      editDeclaration_eq]
    rfl
  | .imports decl => by
    refine ⟨?_, rfl, h.bindAliases decl⟩
    simp [visit, positionsOf, occurrencesIn_head, editImport_eq policy decl context.scope bound]
  | .literal l => by
    refine ⟨?_, rfl, by simpa [visit, aliasesOf] using h⟩
    simp [visit, positionsOf, occurrencesIn_head, occurrencesOf, editLiteral_eq]
  | .reference name => by
    refine ⟨?_, rfl, by simpa [visit, aliasesOf] using h⟩
    simp [visit, positionsOf, occurrencesIn_head, occurrencesOf, editReference_eq policy context bound h]
  | .other children => by
    have inner := visitAll_walks policy context bound h children
    refine ⟨?_, inner.scope, inner.aliases⟩
    have hchildren : (positionsFrom 0 children).flatMap
          (fun p => occurrencesIn context.scope bound (.other children :: rest) (0 :: p)) =
        (positionsFrom 0 children).flatMap (occurrencesIn context.scope bound children) := by
      apply List.flatMap_congr
      intro p hp
      obtain ⟨k, q, rfl, -⟩ := positionsFrom_cons 0 children p hp
      exact occurrencesIn_other _ _ _ _ k q
    rw [positionsOf, List.flatMap_cons, occurrencesIn_head, hchildren, visit, inner.edits]
    rfl

/-- nodes side by side: the rest starts in the context that the first node leaves -/
theorem visitAll_walks (policy : Policy) (context : Context) (bound : List String)
    (h : Binds context.aliases bound) : (nodes : List SyntaxNode) →
    Walks policy context bound ((positionsFrom 0 nodes).flatMap (occurrencesIn context.scope bound nodes))
      (lines nodes) (aliases nodes) (visitAll policy context nodes)
  | [] => ⟨rfl, rfl, by simpa [visitAll, aliases] using h⟩
  | n :: rest => by
    have first := visit_walks policy context bound h rest n
    have others := visitAll_walks policy (visit policy context n).2 (bound ++ aliasesOf n) first.aliases rest
    refine ⟨?_, ?_, ?_⟩
    · rw [occurrencesIn_cons, movedEdits_append, ← first.edits, ← first.scope, ← others.edits]
      rfl
    · rw [lines, scopeBehind_append, ← first.scope, ← others.scope]
      rfl
    · rw [aliases, ← List.append_assoc]
      exact others.aliases

end

/-- **The walk is exact.** For every file and every policy, the edits of the walk are those of the occurrences that
move, each decided by the scope and the aliases of its own position, in the order of the file. -/
theorem edits_eq_occurrences (policy : Policy) (nodes : List SyntaxNode) :
    edits policy nodes = movedEdits policy (occurrences nodes) := by
  have hnone : Binds ({} : Context).aliases [] := by simp [Binds, AliasTable.isAlias]
  have walk := visitAll_walks policy {} [] hnone nodes
  exact walk.edits

end Isolation.Prefixing
