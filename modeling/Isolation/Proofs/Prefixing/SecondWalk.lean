/-
A tree whose names have been moved is left alone by a second walk. `MovedAll` relates a tree to the one with its names
moved: every name with an edit carries the edit's segments and its leading separator, every other name is as it was,
and the literals are related by a relation of their own.

- `visitAll_moved`: a second walk with a policy that moves no more than the first emits nothing, although its scopes
  carry other names.
- `edits_moved_eq_nil`: so it is with the same policy, when each moved literal has the vendor prefix behind its
  leading separators.
-/
import Isolation.Proofs.Prefixing.Sites

namespace Isolation.Prefixing

/-! ## Moved trees -/

/-- the new name carries what its edit says, or is the old one if there is no edit; where it stands is left open -/
def Carries (policy : Policy) (edits : List Edit) (rooted : Bool) (old new : WrittenName) : Prop :=
  if edits = [] then new.segments = old.segments ∧ new.rooted = old.rooted ∧ new.relative = old.relative
  else
    new.segments = splitSegments policy.vendorPrefix ++ old.segments ∧ new.rooted = rooted ∧ new.relative = false

/-- a clause with its name moved and its alias kept -/
def CarriesClause (policy : Policy) (edits : List Edit) (old new : ImportClause) : Prop :=
  Carries policy edits false old.name new.name ∧ new.alias? = old.alias?

/-- an import: the front of a group, or each clause of one that is no group -/
def CarriesImport (policy : Policy) (old new : Import) : Prop :=
  match old.front?, new.front? with
  | some front, some front' =>
    Carries policy (editNamespace policy front) false front front' ∧
      List.Forall₂ (CarriesClause policy []) old.clauses new.clauses
  | none, none =>
    List.Forall₂ (fun c c' => CarriesClause policy (editImported policy c.name) c c') old.clauses new.clauses
  | _, _ => False

/-- the name of a declaration -/
def CarriesDeclared (policy : Policy) : Option WrittenName → Option WrittenName → Prop
  | some old, some new => Carries policy (editNamespace policy old) false old new
  | none, none => True
  | _, _ => False

mutual

/-- the second node is the first one with its names moved, as the walk in `context` moves them -/
inductive Moved (policy : Policy) (literals : Literal → Literal → Prop) : Context → SyntaxNode → SyntaxNode → Prop
  | line {context name name'} : CarriesDeclared policy name name' →
      Moved policy literals context (.namespaceLine name) (.namespaceLine name')
  | block {context name name' body body'} : CarriesDeclared policy name name' →
      MovedAll policy literals { context with scope := scopeOf name } body body' →
      Moved policy literals context (.namespaceBlock name body) (.namespaceBlock name' body')
  | imports {context decl decl'} : CarriesImport policy decl decl' →
      Moved policy literals context (.imports decl) (.imports decl')
  | literal {context l l'} : literals l l' → Moved policy literals context (.literal l) (.literal l')
  | reference {context name name'} : Carries policy (editReference policy context name) name.rooted name name' →
      Moved policy literals context (.reference name) (.reference name')
  | other {context children children'} : MovedAll policy literals context children children' →
      Moved policy literals context (.other children) (.other children')

/-- nodes side by side, each in the context that those before it leave -/
inductive MovedAll (policy : Policy) (literals : Literal → Literal → Prop) :
    Context → List SyntaxNode → List SyntaxNode → Prop
  | nil {context} : MovedAll policy literals context [] []
  | cons {context n n' rest rest'} : Moved policy literals context n n' →
      MovedAll policy literals (visit policy context n).2 rest rest' →
      MovedAll policy literals context (n :: rest) (n' :: rest')

end

/-! ## Names under a tighter policy -/

/-- the second policy has the same prefix and moves nothing that the first does not -/
structure Tightens (policy tighter : Policy) : Prop where
  sameFront : tighter.vendorPrefix = policy.vendorPrefix
  moves : ∀ candidate, tighter.moves candidate = true → policy.moves candidate = true

theorem Tightens.refl (policy : Policy) : Tightens policy policy := ⟨rfl, fun _ h => h⟩

variable {policy tighter : Policy}

theorem Tightens.prefixSegments (h : Tightens policy tighter) {segments : List String}
    (hnone : policy.prefixSegments segments = none) : tighter.prefixSegments segments = none := by
  unfold Policy.prefixSegments at hnone ⊢
  split
  · rfl
  · rename_i hne
    rw [if_neg hne] at hnone
    split at hnone
    · cases hnone
    · rename_i hm
      rw [if_neg (fun hc => hm (h.moves _ hc))]

theorem Tightens.labelled (h : Tightens policy tighter) (hp : policy.Labelled) : tighter.Labelled := by
  unfold Policy.Labelled at hp ⊢
  rwa [h.sameFront]

theorem Tightens.prefixed (h : Tightens policy tighter) (hp : policy.Labelled) (segments : List String) :
    tighter.prefixSegments (splitSegments policy.vendorPrefix ++ segments) = none := by
  rw [← h.sameFront]
  exact Policy.prefixSegments_prefixed (h.labelled hp) segments

theorem editNamespace_eq_nil {name : WrittenName} :
    editNamespace policy name = [] ↔ policy.prefixSegments name.segments = none := by
  unfold editNamespace
  cases policy.prefixSegments name.segments <;> simp

theorem prefixedName_eq_none {name : WrittenName} :
    prefixedName policy name = none ↔ policy.prefixSegments name.segments.dropLast = none := by
  simp [prefixedName, WrittenName.namespacePart]

theorem editImported_eq_nil {name : WrittenName} :
    editImported policy name = [] ↔ name.isQualified = true → policy.prefixSegments name.segments.dropLast = none := by
  unfold editImported
  rw [← prefixedName_eq_none]
  cases name.isQualified <;> cases prefixedName policy name <;> simp

/-- a moved name of a namespace is not moved again -/
theorem Carries.editNamespace (h : Tightens policy tighter) (hp : policy.Labelled) {rooted : Bool}
    {old new : WrittenName} (hc : Carries policy (editNamespace policy old) rooted old new) :
    Prefixing.editNamespace tighter new = [] := by
  rw [editNamespace_eq_nil]
  unfold Carries at hc
  split at hc
  · rename_i hnil
    rw [hc.1]
    exact h.prefixSegments (editNamespace_eq_nil.1 hnil)
  · rw [hc.1]
    exact h.prefixed hp _

theorem isQualified_congr {old new : WrittenName} (h : new.segments = old.segments) :
    new.isQualified = old.isQualified := by
  simp [WrittenName.isQualified, h]

/-- the namespace part of a moved name starts with the prefix -/
theorem prefixSegments_dropLast_moved (h : Tightens policy tighter) (hp : policy.Labelled) {old new : WrittenName}
    (hne : old.segments ≠ []) (hsegments : new.segments = splitSegments policy.vendorPrefix ++ old.segments) :
    tighter.prefixSegments new.segments.dropLast = none := by
  rw [hsegments, List.dropLast_append_of_ne_nil hne]
  exact h.prefixed hp _

/-- a moved name of an import is not moved again -/
theorem Carries.editImported (h : Tightens policy tighter) (hp : policy.Labelled) {rooted : Bool}
    {old new : WrittenName} (hc : Carries policy (editImported policy old) rooted old new) :
    Prefixing.editImported tighter new = [] := by
  rw [editImported_eq_nil]
  unfold Carries at hc
  split at hc
  · rename_i hnil
    intro hq
    rw [isQualified_congr hc.1] at hq
    rw [hc.1]
    exact h.prefixSegments (editImported_eq_nil.1 hnil hq)
  · rename_i hedit
    intro _
    have hne : old.segments ≠ [] := by
      intro hnil
      exact hedit (editImported_eq_nil.2 fun hq => by simp [WrittenName.isQualified, hnil] at hq)
    exact prefixSegments_dropLast_moved h hp hne hc.1

theorem CarriesImport.editImport (h : Tightens policy tighter) (hp : policy.Labelled) {old new : Import}
    (hc : CarriesImport policy old new) : Prefixing.editImport tighter new = [] := by
  obtain ⟨front?, clauses⟩ := old
  obtain ⟨front?', clauses'⟩ := new
  unfold CarriesImport at hc
  cases front? <;> cases front?' <;> simp only at hc
  case some.some front front' => exact hc.1.editNamespace h hp
  case none.none =>
    simp only [Prefixing.editImport]
    induction hc with
    | nil => rfl
    | cons hclause _ ih => rw [List.flatMap_cons, hclause.1.editImported h hp, ih, List.nil_append]

theorem CarriesImport.aliases {old new : Import} (hc : CarriesImport policy old new) :
    new.clauses.filterMap (·.alias?) = old.clauses.filterMap (·.alias?) := by
  have hall : List.Forall₂ (fun c c' : ImportClause => c'.alias? = c.alias?) old.clauses new.clauses := by
    unfold CarriesImport at hc
    split at hc
    · exact hc.2.imp fun _ _ hclause => hclause.2
    · exact hc.imp fun _ _ hclause => hclause.2
    · exact hc.elim
  generalize old.clauses = clauses at hall
  generalize new.clauses = clauses' at hall
  induction hall with
  | nil => rfl
  | cons hclause _ ih => rw [List.filterMap_cons, List.filterMap_cons, hclause, ih]

/-! ## Scopes -/

/-- the scope of a declaration is named if its name is a namespace -/
theorem scopeOf_isGlobal (name : WrittenName) :
    (scopeOf (some name)).isGlobal = (name.segments.isEmpty || !name.segments.all isLabel) := by
  rw [scopeOf]
  cases h : Namespace.ofSegments name.segments with
  | ok n =>
    obtain ⟨-, hne, hall⟩ := Namespace.ofSegments_eq_ok_iff.1 h
    simp [hne, hall, Scope.isGlobal]
  | error f =>
    have hnot : name.segments ≠ [] → name.segments.all isLabel = false := by
      intro hne
      by_contra hall
      rw [Bool.not_eq_false] at hall
      have hok : Namespace.ofSegments name.segments = .ok ⟨name.segments⟩ :=
        Namespace.ofSegments_eq_ok_iff.2 ⟨rfl, hne, hall⟩
      rw [hok] at h
      cases h
    by_cases hne : name.segments = []
    · simp [hne, Scope.isGlobal]
    · simp [hnot hne, Scope.isGlobal]

/-- a declaration whose name is moved is global if and only if it was -/
theorem CarriesDeclared.isGlobal (hp : policy.Labelled) {name name' : Option WrittenName}
    (hc : CarriesDeclared policy name name') : (scopeOf name').isGlobal = (scopeOf name).isGlobal := by
  cases name <;> cases name' <;> simp only [CarriesDeclared] at hc
  case none.none => rfl
  case some.some old new =>
    unfold Carries at hc
    split at hc
    · simp [scopeOf_isGlobal, hc.1]
    · rename_i hedit
      have hne : old.segments.isEmpty = false := by
        cases hsegments : old.segments with
        | nil => exact absurd (editNamespace_eq_nil.2 (by rw [hsegments, Policy.prefixSegments_nil])) hedit
        | cons _ _ => rfl
      have hlabels : (splitSegments policy.vendorPrefix).all isLabel = true := hp
      simp [scopeOf_isGlobal, hc.1, hne, hlabels, splitSegments_ne_nil, List.all_append, - List.all_eq_true]

theorem CarriesDeclared.editDeclaration (h : Tightens policy tighter) (hp : policy.Labelled)
    {name name' : Option WrittenName} (hc : CarriesDeclared policy name name') :
    Prefixing.editDeclaration tighter name' = [] := by
  cases name <;> cases name' <;> simp only [CarriesDeclared] at hc
  case none.none => rfl
  case some.some old new => exact hc.editNamespace h hp

/-! ## References -/

/-- the first context of a moved file and that of the file agree on what decides about a reference -/
structure Agrees (context context' : Context) (bound : List String) : Prop where
  scope : context'.scope.isGlobal = context.scope.isGlobal
  binds : Binds context.aliases bound
  binds' : Binds context'.aliases bound

theorem Agrees.isAlias {context context' : Context} {bound : List String} (h : Agrees context context' bound)
    (x : String) : context'.aliases.isAlias x = context.aliases.isAlias x := by
  rw [Bool.eq_iff_iff, h.binds x, h.binds' x]

/-- a reference is left alone for one of four reasons -/
theorem editReference_eq_nil {context : Context} {name : WrittenName} :
    editReference policy context name = [] ↔ (name.relative || !name.isQualified) = true ∨
      (!name.rooted && !context.scope.isGlobal) = true ∨ context.aliases.isAlias name.firstSegment = true ∨
        policy.prefixSegments name.segments.dropLast = none := by
  unfold editReference
  rw [← prefixedName_eq_none]
  cases name.relative || !name.isQualified <;> cases !name.rooted && !context.scope.isGlobal <;>
    cases context.aliases.isAlias name.firstSegment <;> cases prefixedName policy name <;> simp

/-- a moved reference is not moved again -/
theorem Carries.editReference (h : Tightens policy tighter) (hp : policy.Labelled) {context context' : Context}
    {bound : List String} (hagrees : Agrees context context' bound) {rooted : Bool} {old new : WrittenName}
    (hc : Carries policy (editReference policy context old) rooted old new) :
    Prefixing.editReference tighter context' new = [] := by
  rw [editReference_eq_nil]
  unfold Carries at hc
  split at hc
  · rename_i hnil
    obtain ⟨hsegments, hrooted, hrelative⟩ := hc
    have hfirst : new.firstSegment = old.firstSegment := by simp [WrittenName.firstSegment, hsegments]
    rw [isQualified_congr hsegments, hrelative, hrooted, hagrees.scope, hagrees.isAlias, hfirst, hsegments]
    rcases editReference_eq_nil.1 hnil with hleft | hleft | hleft | hleft
    · exact Or.inl hleft
    · exact Or.inr (Or.inl hleft)
    · exact Or.inr (Or.inr (Or.inl hleft))
    · exact Or.inr (Or.inr (Or.inr (h.prefixSegments hleft)))
  · rename_i hedit
    have hne : old.segments ≠ [] := by
      intro hnil
      exact hedit (editReference_eq_nil.2 (Or.inl (by simp [WrittenName.isQualified, hnil])))
    exact Or.inr (Or.inr (Or.inr (prefixSegments_dropLast_moved h hp hne hc.1)))

/-! ## Literals -/

/-- the vendor prefix and a separator behind the leading separators of a value -/
def movedText (policy : Policy) (value : String) : String :=
  String.ofList (value.toList.takeWhile (· == separator) ++
    (policy.vendorPrefix.toList ++ separator :: value.toList.dropWhile (· == separator)))

/-- the new literal has the moved value if the old one is moved, else the same value -/
def CarriesLiteral (policy : Policy) (old new : Literal) : Prop :=
  new.value = if editLiteral policy old = [] then old.value else movedText policy old.value

theorem editLiteral_eq_nil {l : Literal} :
    editLiteral policy l = [] ↔ isNamespaceText policy l.value = false ∧ isMemberText policy l.value = false := by
  unfold editLiteral
  cases isNamespaceText policy l.value <;> cases isMemberText policy l.value <;> simp

theorem beforeLastSeparator_front (front rest : List Char) :
    ∃ back, beforeLastSeparator (front ++ separator :: rest) = front ++ back := by
  unfold beforeLastSeparator
  have hreverse : (front ++ separator :: rest).reverse = rest.reverse ++ separator :: front.reverse := by simp
  rw [hreverse, List.dropWhile_append]
  split
  · exact ⟨[], by simp⟩
  · rename_i h
    obtain ⟨c, cs, hcs⟩ := List.exists_cons_of_ne_nil (by simpa using h :
      List.dropWhile (fun x => decide (x ≠ separator)) rest.reverse ≠ [])
    refine ⟨separator :: cs.reverse, ?_⟩
    rw [hcs]
    simp

/-- a text with the vendor prefix behind its leading separators spells neither a namespace that is moved nor a name
below one -/
theorem not_moved_text (hp : policy.Labelled) {value : String} {seps rest : List Char}
    (hseps : ∀ c ∈ seps, c = separator)
    (hvalue : value.toList = seps ++ (policy.vendorPrefix.toList ++ separator :: rest)) :
    isNamespaceText policy value = false ∧ isMemberText policy value = false := by
  constructor
  · have hclosed : policy.moves (if value.toList.getLast? = some separator then value else value ++ "\\") = false := by
      split
      · exact Policy.not_moves_of_front hp.anchored hvalue hseps
      · have happend : (value ++ "\\").toList =
            seps ++ (policy.vendorPrefix.toList ++ (separator :: rest ++ ['\\'])) := by simp [hvalue]
        exact Policy.not_moves_of_front hp.anchored happend hseps
    rw [isNamespaceText, hclosed, Bool.and_false]
  · obtain ⟨back, hback⟩ := beforeLastSeparator_front (seps ++ policy.vendorPrefix.toList) rest
    have hbefore : (String.ofList (beforeLastSeparator value.toList)).toList =
        seps ++ (policy.vendorPrefix.toList ++ back) := by
      rw [String.toList_ofList, hvalue, ← List.append_assoc, hback, List.append_assoc]
    exact Policy.not_moves_trimmed hp.anchored hbefore hseps

theorem Tightens.editLiteral (h : Tightens policy tighter) {old new : Literal} (hvalue : new.value = old.value)
    (hnil : editLiteral policy old = []) : Prefixing.editLiteral tighter new = [] := by
  have hmono : ∀ candidate, policy.moves candidate = false → tighter.moves candidate = false := by
    intro candidate hfalse
    cases hm : tighter.moves candidate with
    | false => rfl
    | true => exact absurd (h.moves candidate hm) (by simp [hfalse])
  obtain ⟨hspace, hmember⟩ := editLiteral_eq_nil.1 hnil
  rw [editLiteral_eq_nil, hvalue]
  refine ⟨?_, hmono _ hmember⟩
  rw [isNamespaceText, Bool.and_eq_false_iff] at hspace ⊢
  exact hspace.imp id (hmono _)

/-- a moved literal is not moved again -/
theorem CarriesLiteral.editLiteral (h : Tightens policy tighter) (hp : policy.Labelled) {old new : Literal}
    (hc : CarriesLiteral policy old new) : Prefixing.editLiteral tighter new = [] := by
  unfold CarriesLiteral at hc
  split at hc
  · rename_i hnil
    exact h.editLiteral hc hnil
  · rw [editLiteral_eq_nil]
    have hseps : ∀ c ∈ old.value.toList.takeWhile (· == separator), c = separator := by
      simpa using List.all_eq_true.1 (List.all_takeWhile : (old.value.toList.takeWhile (· == separator)).all _ = true)
    have hvalue : new.value.toList = old.value.toList.takeWhile (· == separator) ++
        (tighter.vendorPrefix.toList ++ separator :: old.value.toList.dropWhile (· == separator)) := by
      rw [hc, movedText, String.toList_ofList, h.sameFront]
    exact not_moved_text (h.labelled hp) hseps hvalue

/-! ## The second walk -/

mutual

/-- one node: no edits, and contexts that agree behind it -/
theorem visit_moved {literals : Literal → Literal → Prop} (h : Tightens policy tighter) (hp : policy.Labelled)
    (hliterals : ∀ l l', literals l l' → editLiteral tighter l' = []) {context context' : Context}
    {bound : List String} (hagrees : Agrees context context' bound) :
    {n n' : SyntaxNode} → Moved policy literals context n n' →
    (visit tighter context' n').1 = [] ∧
      ∃ bound', Agrees (visit policy context n).2 (visit tighter context' n').2 bound'
  | _, _, .line hname =>
    ⟨hname.editDeclaration h hp, bound, ⟨hname.isGlobal hp, hagrees.binds, hagrees.binds'⟩⟩
  | _, _, @Moved.block _ _ _ name name' _ _ hname hbody => by
    have hinner : Agrees { context with scope := scopeOf name } { context' with scope := scopeOf name' } bound :=
      ⟨hname.isGlobal hp, hagrees.binds, hagrees.binds'⟩
    obtain ⟨hedits, bound', hbehind⟩ := visitAll_moved h hp hliterals hinner hbody
    refine ⟨?_, bound', ⟨hagrees.scope, hbehind.binds, hbehind.binds'⟩⟩
    rw [visit, hname.editDeclaration h hp]
    exact hedits
  | _, _, @Moved.imports _ _ _ decl decl' hdecl => by
    refine ⟨hdecl.editImport h hp, bound ++ decl.clauses.filterMap (·.alias?), ?_⟩
    refine ⟨hagrees.scope, hagrees.binds.bindAliases decl, ?_⟩
    have hbinds := hagrees.binds'.bindAliases decl'
    rwa [hdecl.aliases] at hbinds
  | _, _, .literal hl => ⟨hliterals _ _ hl, bound, hagrees⟩
  | _, _, .reference hname => ⟨hname.editReference h hp hagrees, bound, hagrees⟩
  | _, _, .other hchildren => visitAll_moved h hp hliterals hagrees hchildren

/-- nodes side by side -/
theorem visitAll_moved {literals : Literal → Literal → Prop} (h : Tightens policy tighter) (hp : policy.Labelled)
    (hliterals : ∀ l l', literals l l' → editLiteral tighter l' = []) {context context' : Context}
    {bound : List String} (hagrees : Agrees context context' bound) :
    {nodes nodes' : List SyntaxNode} → MovedAll policy literals context nodes nodes' →
    (visitAll tighter context' nodes').1 = [] ∧
      ∃ bound', Agrees (visitAll policy context nodes).2 (visitAll tighter context' nodes').2 bound'
  | _, _, .nil => ⟨rfl, bound, hagrees⟩
  | _, _, .cons hn hrest => by
    obtain ⟨hfirst, bound', hnext⟩ := visit_moved h hp hliterals hagrees hn
    obtain ⟨hothers, bound'', hbehind⟩ := visitAll_moved h hp hliterals hnext hrest
    refine ⟨?_, bound'', hbehind⟩
    rw [visitAll, hfirst]
    exact hothers

end

/-- a file with its names moved has nothing to move for a policy that moves no more -/
theorem edits_tighter_eq_nil {literals : Literal → Literal → Prop} (h : Tightens policy tighter)
    (hp : policy.Labelled) (hliterals : ∀ l l', literals l l' → editLiteral tighter l' = [])
    {nodes nodes' : List SyntaxNode} (hmoved : MovedAll policy literals {} nodes nodes') :
    edits tighter nodes' = [] := by
  have hstart : Agrees {} {} [] := ⟨rfl, by simp [Binds, AliasTable.isAlias], by simp [Binds, AliasTable.isAlias]⟩
  exact (visitAll_moved h hp hliterals hstart hmoved).1

/-! ## Every tree can be moved -/

/-- the name as its edit leaves it -/
def moveName (policy : Policy) (edits : List Edit) (rooted : Bool) (name : WrittenName) : WrittenName :=
  if edits = [] then name
  else { name with segments := splitSegments policy.vendorPrefix ++ name.segments, rooted, relative := false }

def moveClause (policy : Policy) (clause : ImportClause) : ImportClause :=
  { clause with name := moveName policy (editImported policy clause.name) false clause.name }

def moveImport (policy : Policy) (decl : Import) : Import :=
  match decl.front? with
  | some front => { decl with front? := some (moveName policy (editNamespace policy front) false front) }
  | none => { decl with clauses := decl.clauses.map (moveClause policy) }

def moveDeclared (policy : Policy) (name : Option WrittenName) : Option WrittenName :=
  name.map fun n => moveName policy (editNamespace policy n) false n

def moveLiteral (policy : Policy) (l : Literal) : Literal :=
  if editLiteral policy l = [] then l
  else { l with decoded := (movedText policy l.value).toList.map fun c => (c, l.span.start) }

mutual

/-- the node with its names moved -/
def moveNode (policy : Policy) (context : Context) : SyntaxNode → SyntaxNode
  | .namespaceLine name => .namespaceLine (moveDeclared policy name)
  | .namespaceBlock name body =>
    .namespaceBlock (moveDeclared policy name) (moveNodes policy { context with scope := scopeOf name } body)
  | .imports decl => .imports (moveImport policy decl)
  | .literal l => .literal (moveLiteral policy l)
  | .reference name => .reference (moveName policy (editReference policy context name) name.rooted name)
  | .other children => .other (moveNodes policy context children)

def moveNodes (policy : Policy) (context : Context) : List SyntaxNode → List SyntaxNode
  | [] => []
  | n :: rest => moveNode policy context n :: moveNodes policy (visit policy context n).2 rest

end

theorem carries_moveName (policy : Policy) (edits : List Edit) (rooted : Bool) (name : WrittenName) :
    Carries policy edits rooted name (moveName policy edits rooted name) := by
  unfold Carries moveName
  split <;> exact ⟨rfl, rfl, rfl⟩

theorem carriesImport_moveImport (policy : Policy) (decl : Import) :
    CarriesImport policy decl (moveImport policy decl) := by
  obtain ⟨front?, clauses⟩ := decl
  cases front? with
  | some front =>
    refine ⟨carries_moveName policy _ _ front, List.forall₂_same.2 fun clause _ => ⟨?_, rfl⟩⟩
    exact carries_moveName policy [] false clause.name
  | none =>
    refine List.forall₂_map_right_iff.2 (List.forall₂_same.2 fun clause _ => ⟨?_, rfl⟩)
    exact carries_moveName policy _ _ clause.name

theorem carriesDeclared_moveDeclared (policy : Policy) (name : Option WrittenName) :
    CarriesDeclared policy name (moveDeclared policy name) := by
  cases name with
  | none => trivial
  | some n => exact carries_moveName policy _ _ n

theorem carriesLiteral_moveLiteral (policy : Policy) (l : Literal) : CarriesLiteral policy l (moveLiteral policy l) := by
  unfold CarriesLiteral moveLiteral
  split
  · rfl
  · simp [Literal.value, Function.comp_def]

mutual

theorem moved_moveNode (policy : Policy) (context : Context) :
    (n : SyntaxNode) → Moved policy (CarriesLiteral policy) context n (moveNode policy context n)
  | .namespaceLine name => .line (carriesDeclared_moveDeclared policy name)
  | .namespaceBlock name body => .block (carriesDeclared_moveDeclared policy name) (movedAll_moveNodes policy _ body)
  | .imports decl => .imports (carriesImport_moveImport policy decl)
  | .literal l => .literal (carriesLiteral_moveLiteral policy l)
  | .reference name => .reference (carries_moveName policy _ _ name)
  | .other children => .other (movedAll_moveNodes policy context children)

theorem movedAll_moveNodes (policy : Policy) (context : Context) :
    (nodes : List SyntaxNode) → MovedAll policy (CarriesLiteral policy) context nodes (moveNodes policy context nodes)
  | [] => .nil
  | n :: rest => .cons (moved_moveNode policy context n) (movedAll_moveNodes policy _ rest)

end

/-- **A second walk changes nothing.** For every file and every policy whose prefix is a row of labels, whatever its
whitelist, there is a file with the names and literals moved that the walk edits, and of any such file the walk edits
nothing. -/
theorem edits_moved_eq_nil (policy : Policy) (hp : policy.Labelled) (nodes : List SyntaxNode) :
    (∃ nodes', MovedAll policy (CarriesLiteral policy) {} nodes nodes') ∧
      ∀ nodes', MovedAll policy (CarriesLiteral policy) {} nodes nodes' → edits policy nodes' = [] := by
  refine ⟨⟨_, movedAll_moveNodes policy {} nodes⟩, fun nodes' hmoved => ?_⟩
  have hliterals : ∀ l l', CarriesLiteral policy l l' → editLiteral policy l' = [] :=
    fun l l' hl => hl.editLiteral (Tightens.refl policy) hp
  exact edits_tighter_eq_nil (Tightens.refl policy) hp hliterals hmoved

/-! ## Witness -/

/-- `namespace A; use A\B as C; C\D; \A\E; 'A\F'` -/
def sampleNodes : List SyntaxNode :=
  [.namespaceLine (some ⟨⟨16, 17⟩, "A", false, false, ["A"]⟩),
   .imports ⟨none, [⟨⟨⟨23, 26⟩, "A\\B", false, false, ["A", "B"]⟩, some "C"⟩]⟩,
   .other [.reference ⟨⟨33, 36⟩, "C\\D", false, false, ["C", "D"]⟩],
   .other [.reference ⟨⟨38, 42⟩, "\\A\\E", true, false, ["A", "E"]⟩],
   .other [.literal ⟨⟨44, 49⟩, .single, [('A', 45), ('\\', 46), ('F', 47)], 48, false⟩]]

def samplePolicy : Policy := ⟨⟨["A", "C"]⟩, "P\\Q"⟩

theorem edits_moved_eq_nil_sample :
    samplePolicy.Labelled ∧ (edits samplePolicy sampleNodes).length = 4 ∧
      edits samplePolicy (moveNodes samplePolicy {} sampleNodes) = [] := by
  have hp : samplePolicy.Labelled := by decide +kernel
  have hmoved := movedAll_moveNodes samplePolicy {} sampleNodes
  exact ⟨hp, by decide +kernel, (edits_moved_eq_nil samplePolicy hp sampleNodes).2 _ hmoved⟩

end Isolation.Prefixing
