/-
The names and literals of a file that may be moved, in its order, and where they stand in the source. All of it is about
the tree of any parser.

- `mentions`: the declared names, the names of imports, the literals and the references of a file. `editable`: those that
  a walk may edit, all but the relative references.
- `lowerChildren_read`: each is what the source holds at its span, whatever the tree.
- `KeepsNames`: what is asked of a tree besides `Node.Spaced`, since a name may start in front of its node.
- `Laid`: spans one behind the other, where each may start one byte early at a separator.
- `lowerChildren_laid`: the editable mentions of such a tree are laid out like this, in the order of its nodes.
- `Laid.inRow`: and since no mention ends with a separator, they do not overlap.
-/
import Isolation.Proofs.Source.NodeSpans
import Isolation.Proofs.Source.Reading

namespace Isolation

/-- a name or a literal that may be moved -/
inductive Mention where
  | name (n : WrittenName)
  | quoted (l : Literal)

def Mention.span : Mention → Span
  | name n => n.span
  | quoted l => l.span

/-- the names of an import that may be moved: the shared front of a group, or else every name -/
def Import.movable (decl : Import) : List WrittenName :=
  match decl.front? with
  | some front => [front]
  | none => decl.clauses.map (·.name)

mutual

/-- the names and literals of a node that may be moved, in the order of the file -/
def mentionsOf : SyntaxNode → List Mention
  | .namespaceLine name => name.toList.map .name
  | .namespaceBlock name body => name.toList.map .name ++ mentions body
  | .imports decl => decl.movable.map .name
  | .literal l => [.quoted l]
  | .reference name => [.name name]
  | .other children => mentions children

def mentions : List SyntaxNode → List Mention
  | [] => []
  | n :: rest => mentionsOf n ++ mentions rest

end

mutual

/-- the mentions that a walk may edit -/
def editableOf : SyntaxNode → List Mention
  | .namespaceLine name => name.toList.map .name
  | .namespaceBlock name body => name.toList.map .name ++ editable body
  | .imports decl => decl.movable.map .name
  | .literal l => [.quoted l]
  | .reference name => if name.relative then [] else [.name name]
  | .other children => editable children

def editable : List SyntaxNode → List Mention
  | [] => []
  | n :: rest => editableOf n ++ editable rest

end

theorem mentions_append (a b : List SyntaxNode) : mentions (a ++ b) = mentions a ++ mentions b := by
  induction a with
  | nil => rfl
  | cons n rest ih => rw [List.cons_append, mentions, mentions, ih, List.append_assoc]

theorem editable_append (a b : List SyntaxNode) : editable (a ++ b) = editable a ++ editable b := by
  induction a with
  | nil => rfl
  | cons n rest ih => rw [List.cons_append, editable, editable, ih, List.append_assoc]

theorem mentions_singleton (n : SyntaxNode) : mentions [n] = mentionsOf n := List.append_nil _

theorem editable_singleton (n : SyntaxNode) : editable [n] = editableOf n := List.append_nil _

mutual

theorem editableOf_subset : (n : SyntaxNode) → editableOf n ⊆ mentionsOf n
  | .namespaceLine _ => List.Subset.refl _
  | .namespaceBlock _ body =>
    List.append_subset.2 ⟨List.subset_append_left _ _,
      List.Subset.trans (editable_subset body) (List.subset_append_right _ _)⟩
  | .imports _ => List.Subset.refl _
  | .literal _ => List.Subset.refl _
  | .reference name => by
    rw [editableOf]
    split
    · exact List.nil_subset _
    · exact List.Subset.refl _
  | .other children => editable_subset children

theorem editable_subset : (nodes : List SyntaxNode) → editable nodes ⊆ mentions nodes
  | [] => List.Subset.refl _
  | n :: rest =>
    List.append_subset.2 ⟨List.Subset.trans (editableOf_subset n) (List.subset_append_left _ _),
      List.Subset.trans (editable_subset rest) (List.subset_append_right _ _)⟩

end

/-! ## What the source holds -/

/-- the source holds the name, or the insertion into the literal goes between its quotes -/
def Mention.HeldBy (source : List UInt8) : Mention → Prop
  | name n => n.Labelled ∧ Edit.slice? source n.span = some (Utf8.encode n.text)
  | quoted l => l.span.start < l.insertionOffset ∧ l.insertionOffset < l.span.stop

/-- the mention is what the source holds at its span, and does not end with a separator there -/
structure Mention.ReadFrom (source : List UInt8) (m : Mention) : Prop where
  nonempty : m.span.start < m.span.stop
  le : m.span.stop ≤ source.length
  closed : source[m.span.stop - 1]? ≠ some 0x5c
  held : m.HeldBy source

namespace Php

variable {source : List UInt8} {span : Span} {children nodes : List Node}

theorem readFrom_name {n : WrittenName} (h : nameAt? source span = some n) : (Mention.name n).ReadFrom source := by
  obtain ⟨-, hlabels, hlt, hslice, hclosed⟩ := nameAt?_eq_some h
  exact ⟨hlt, (slice?_eq_some hslice).1.2, hclosed, hlabels, hslice⟩

theorem readFrom_literal {l : Literal} (h : literalAt? source span = some l) : (Mention.quoted l).ReadFrom source := by
  obtain ⟨rfl, hlow, hhigh, hle, hclosed⟩ := literalAt?_eq_some h
  exact ⟨hlow.trans hhigh, hle, hclosed, hlow, hhigh⟩

/-- what a node becomes that matters itself -/
inductive Lowered (source : List UInt8) (kind : NodeKind) (span : Span) (children : List Node) : SyntaxNode → Prop where
  | block {body : List SyntaxNode} (hkind : kind = .namespaceDefinition)
      (hbody : lowerBody source (isBody children) children = some body) :
      Lowered source kind span children (.namespaceBlock (lowerDeclaredName source children) body)
  | line (hkind : kind = .namespaceDefinition) :
      Lowered source kind span children (.namespaceLine (lowerDeclaredName source children))
  | imports (hkind : kind = .useDeclaration) :
      Lowered source kind span children (.imports (lowerImport source children))
  | literal {l : Literal} (hread : literalAt? source span = some l) : Lowered source kind span children (.literal l)
  | reference {n : WrittenName} (hread : nameAt? source span = some n) : Lowered source kind span children (.reference n)
  /-- a name or a literal that cannot be read -/
  | nothing : Lowered source kind span children (.other [])

theorem lowered_of_special {kind : NodeKind} {named : Bool} {field : Option NodeField} {node : SyntaxNode}
    (h : lowerSpecial? source (.mk kind named field span children) = some node) :
    Lowered source kind span children node := by
  have hstring : lowerString? source span children = some node → Lowered source kind span children node := by
    intro hread
    rw [lowerString?, Option.ite_none_left_eq_some] at hread
    obtain ⟨-, hread⟩ := hread
    cases hread
    cases hl : literalAt? source span with
    | none => exact .nothing
    | some l => exact .literal hl
  have hreference : lowerReference source span = node → Lowered source kind span children node := by
    rintro rfl
    rw [lowerReference]
    cases hn : nameAt? source span with
    | none => exact .nothing
    | some n => exact .reference hn
  cases kind with
  | namespaceDefinition =>
    rw [lowerSpecial?] at h
    split at h
    · rename_i body hbody
      cases h
      exact .block rfl hbody
    · cases h
      exact .line rfl
  | useDeclaration =>
    rw [lowerSpecial?] at h
    cases h
    exact .imports rfl
  | string => exact hstring h
  | encapsedString => exact hstring h
  | qualifiedName => exact hreference (Option.some.inj h)
  | relativeName => exact hreference (Option.some.inj h)
  | _ => cases h

/-- the name of a clause was read at the first of its names -/
theorem name_of_lowerClause? {clause : ImportClause} (h : lowerClause? source children = some clause) :
    ∃ n, (clauseNames children).head? = some n ∧ nameAt? source n.span = some clause.name := by
  obtain ⟨name, hname, rfl⟩ := Option.map_eq_some_iff.1 h
  exact Option.bind_eq_some_iff.1 hname

theorem readFrom_clause {clause : ImportClause} (h : clause ∈ lowerClauses source nodes) :
    (Mention.name clause.name).ReadFrom source := by
  obtain ⟨node, -, hclause⟩ := List.mem_filterMap.1 h
  obtain ⟨n, -, hname⟩ := name_of_lowerClause? hclause
  exact readFrom_name hname

theorem lowerImport_read : ∀ m ∈ mentionsOf (.imports (lowerImport source children)), m.ReadFrom source := by
  have hclauses : ∀ nodes, ∀ m ∈ ((lowerClauses source nodes).map (·.name)).map Mention.name, m.ReadFrom source := by
    intro nodes m hm
    rw [List.map_map] at hm
    obtain ⟨clause, hclause, rfl⟩ := List.mem_map.1 hm
    exact readFrom_clause hclause
  rw [mentionsOf, lowerImport]
  split
  · rename_i group _
    rw [Import.movable]
    dsimp only
    split
    · rename_i front hfront
      obtain ⟨f, -, hread⟩ := Option.bind_eq_some_iff.1 hfront
      intro m hm
      obtain rfl := List.mem_singleton.1 hm
      exact readFrom_name hread
    · exact hclauses group.children
  · exact hclauses children

theorem lowerDeclaredName_read :
    ∀ m ∈ (lowerDeclaredName source children).toList.map Mention.name, m.ReadFrom source := by
  intro m hm
  obtain ⟨n, hn, rfl⟩ := List.mem_map.1 hm
  obtain ⟨node, -, hread⟩ := Option.bind_eq_some_iff.1 (Option.mem_toList.1 hn)
  exact readFrom_name hread

mutual

theorem lowerSpecial?_read : (n : Node) → ∀ {node : SyntaxNode}, lowerSpecial? source n = some node →
    ∀ m ∈ mentionsOf node, m.ReadFrom source
  | .mk _ _ _ _ children, _, h => by
    cases lowered_of_special h with
    | block _ hbody =>
      intro m hm
      exact (List.mem_append.1 hm).elim (lowerDeclaredName_read m) (lowerBody_read _ children hbody m)
    | line _ => exact lowerDeclaredName_read
    | imports _ => exact lowerImport_read
    | literal hread =>
      intro m hm
      obtain rfl := List.mem_singleton.1 hm
      exact readFrom_literal hread
    | reference hread =>
      intro m hm
      obtain rfl := List.mem_singleton.1 hm
      exact readFrom_name hread
    | nothing =>
      intro m hm
      cases hm

theorem lowerBody_read (p : Node → Bool) : (nodes : List Node) → ∀ {body : List SyntaxNode},
    lowerBody source p nodes = some body → ∀ m ∈ mentions body, m.ReadFrom source
  | [], _, h => by cases h
  | .mk _ _ _ _ children :: rest, _, h => by
    rw [lowerBody] at h
    split at h
    · cases h
      exact lowerChildren_read children
    · exact lowerBody_read p rest h

/-- **Mentions are read from the source**, in the tree of any parser. -/
theorem lowerChildren_read : (nodes : List Node) → ∀ m ∈ mentions (lowerChildren source nodes), m.ReadFrom source
  | [], m, hm => by cases hm
  | .mk _ _ _ _ children :: rest, m, hm => by
    rw [lowerChildren, mentions_append, List.mem_append] at hm
    rcases hm with hm | hm
    · split at hm
      · split at hm
        · rename_i node hnode
          rw [mentions_singleton] at hm
          exact lowerSpecial?_read _ hnode m hm
        · dsimp only at hm
          split at hm
          · cases hm
          · rw [mentions_singleton, mentionsOf] at hm
            exact lowerDescendants_read children m hm
      · cases hm
    · exact lowerChildren_read rest m hm

theorem lowerDescendants_read : (nodes : List Node) → ∀ m ∈ mentions (lowerDescendants source nodes), m.ReadFrom source
  | [], m, hm => by cases hm
  | .mk _ _ _ _ children :: rest, m, hm => by
    rw [lowerDescendants, mentions_append, List.mem_append] at hm
    rcases hm with hm | hm
    · split at hm
      · split at hm
        · rename_i node hnode
          rw [mentions_singleton] at hm
          exact lowerSpecial?_read _ hnode m hm
        · exact lowerDescendants_read children m hm
      · cases hm
    · exact lowerDescendants_read rest m hm

end

/-! ## Names in their places -/

/-- the nodes at which a node of a kind reads names of its own -/
def ownNames (kind : NodeKind) (children : List Node) : List Node :=
  match kind with
  | .namespaceDefinition => (nameOf? children).toList
  | .useDeclaration => (frontOf? children).toList
  | .useClause | .useGroupClause => (clauseNames children).head?.toList
  | _ => []

theorem ownNames_of_clause {kind : NodeKind} (h : kind.isClause = true) :
    ownNames kind children = (clauseNames children).head?.toList := by
  cases kind with
  | useClause => rfl
  | useGroupClause => rfl
  | _ => cases h

/-- the name at a node does not start with a keyword from in front of `lo` -/
def StartsFrom (source : List UInt8) (lo : Nat) (n : Node) : Prop :=
  lo ≤ nameStart source n.span.start ∨ n.span.start ≤ nameStart source n.span.start + 1

instance (lo : Nat) (n : Node) : Decidable (StartsFrom source lo n) := inferInstanceAs (Decidable (_ ∨ _))

/-- the name of a declaration stands in front of its braces -/
def NameFirst (children : List Node) : Prop :=
  ∀ name ∈ nameOf? children, ∀ body ∈ children.find? (isBody children), name.span.stop ≤ body.span.start

instance (children : List Node) : Decidable (NameFirst children) := inferInstanceAs (Decidable (∀ _ ∈ _, _))

mutual

/-- All over a tree, the name of a declaration stands in front of its braces; and where the name of a declaration, a
clause or an import starts with the keyword `namespace` in front of its node, what it is the name of starts there or before.
Otherwise such a name could reach back into what stands in front of its statement. -/
def KeepsNames (source : List UInt8) : Node → Prop
  | .mk kind _ _ span children =>
    (∀ n ∈ ownNames kind children, StartsFrom source span.start n) ∧
      (kind = .namespaceDefinition → NameFirst children) ∧ AllKeepNames source children

def AllKeepNames (source : List UInt8) : List Node → Prop
  | [] => True
  | n :: rest => KeepsNames source n ∧ AllKeepNames source rest

end

mutual

instance decidableKeepsNames (source : List UInt8) : (n : Node) → Decidable (KeepsNames source n)
  | .mk _ _ _ _ children =>
    have := decidableAllKeepNames source children
    inferInstanceAs (Decidable (_ ∧ _ ∧ _))

instance decidableAllKeepNames (source : List UInt8) : (nodes : List Node) → Decidable (AllKeepNames source nodes)
  | [] => isTrue trivial
  | n :: rest =>
    have := decidableKeepsNames source n
    have := decidableAllKeepNames source rest
    inferInstanceAs (Decidable (_ ∧ _))

end

theorem KeepsNames.own {n name : Node} (h : KeepsNames source n) (hname : name ∈ ownNames n.kind n.children) :
    StartsFrom source n.span.start name := by
  cases n with
  | mk kind named field span children => exact h.1 name hname

theorem KeepsNames.below {n : Node} (h : KeepsNames source n) : AllKeepNames source n.children := by
  cases n with
  | mk kind named field span children => exact h.2.2

theorem AllKeepNames.mem {n : Node} (h : AllKeepNames source nodes) (hn : n ∈ nodes) : KeepsNames source n := by
  induction nodes with
  | nil => cases hn
  | cons m rest ih =>
    rcases List.mem_cons.1 hn with rfl | hn
    · exact h.1
    · exact ih h.2 hn

/-! ## Spans laid out -/

/-- The spans come one behind the other, from `lo` on and up to `hi`, but each may start at a separator in front of its
place. -/
def Laid (source : List UInt8) (lo hi : Nat) : List Span → Prop
  | [] => lo ≤ hi
  | s :: rest =>
    (lo ≤ s.start ∨ s.start + 1 = lo ∧ source[s.start]? = some 0x5c) ∧ s.start < s.stop ∧ Laid source s.stop hi rest

namespace Laid

variable {lo mid hi : Nat} {a b spans : List Span}

theorem le (h : Laid source lo hi spans) : lo ≤ hi := by
  induction spans generalizing lo with
  | nil => exact h
  | cons s rest ih =>
    obtain ⟨hstart, hspan, hrest⟩ := h
    have hle := ih hrest
    rcases hstart with hstart | ⟨hstart, -⟩ <;> omega

theorem lower {lo' : Nat} (h : Laid source lo hi spans) (hlo : lo' ≤ lo) : Laid source lo' hi spans := by
  cases spans with
  | nil => exact hlo.trans h
  | cons s rest =>
    obtain ⟨hstart, hrest⟩ := h
    refine ⟨?_, hrest⟩
    rcases hstart with hstart | ⟨hstart, hseparator⟩
    · exact .inl (hlo.trans hstart)
    · rcases hlo.lt_or_eq with hlt | rfl
      · exact .inl (by omega)
      · exact .inr ⟨hstart, hseparator⟩

theorem append (ha : Laid source lo mid a) (hb : Laid source mid hi b) : Laid source lo hi (a ++ b) := by
  induction a generalizing lo with
  | nil => exact hb.lower ha
  | cons s rest ih => exact ⟨ha.1, ha.2.1, ih ha.2.2⟩

theorem raise {hi' : Nat} (h : Laid source lo hi spans) (hle : hi ≤ hi') : Laid source lo hi' spans := by
  have happend := h.append (b := []) hle
  rwa [List.append_nil] at happend

end Laid

/-! ## Mentions in the order of the nodes -/

section Laid

variable {lo hi : Nat}

/-- a name is laid out in the range of its node -/
theorem laid_name {node : Node} {n : WrittenName} (hnode : node.Within lo hi) (hstarts : StartsFrom source lo node)
    (h : nameAt? source node.span = some n) : Laid source lo hi [n.span] := by
  obtain ⟨hspan, -, hlt, -, -⟩ := nameAt?_eq_some h
  have hlow := hnode.start
  rw [hspan] at hlt ⊢
  refine ⟨?_, hlt, hnode.stop⟩
  dsimp only
  rcases hstarts with hstarts | hnear
  · exact .inl hstarts
  · rcases nameStart_cases source node.span.start with hsame | ⟨hone, hseparator⟩ | ⟨hten, -⟩
    · exact .inl (by omega)
    · by_cases hfirst : lo ≤ nameStart source node.span.start
      · exact .inl hfirst
      · exact .inr ⟨by omega, hseparator⟩
    · omega

theorem lowerClause?_laid {node : Node} {clause : ImportClause} (hkind : node.kind.isClause = true) (hnode : node.Spaced)
    (hkeeps : KeepsNames source node) (h : lowerClause? source node.children = some clause) :
    Laid source node.span.start node.span.stop [clause.name.span] := by
  obtain ⟨n, hn, hread⟩ := name_of_lowerClause? h
  have hown : n ∈ ownNames node.kind node.children := by
    rw [ownNames_of_clause hkind]
    exact Option.mem_toList.2 hn
  have hmem : n ∈ node.children :=
    List.mem_of_mem_eraseP (List.mem_of_mem_filter (List.mem_of_mem_head? hn))
  exact laid_name (hnode.children.within hmem) (hkeeps.own hown) hread

theorem lowerClauses_laid (h : SpacedIn lo hi nodes) (hkeep : AllKeepNames source nodes) :
    Laid source lo hi ((lowerClauses source nodes).map (·.name.span)) := by
  rw [lowerClauses]
  induction nodes generalizing lo with
  | nil => exact h
  | cons node rest ih =>
    obtain ⟨hlo, hnode, hrest⟩ := h
    have hskip := (ih hrest hkeep.2).lower (hlo.trans hnode.le)
    rw [List.filter_cons]
    split
    · rename_i hclause
      rw [Bool.and_eq_true] at hclause
      rw [List.filterMap_cons]
      cases hread : lowerClause? source node.children with
      | none => exact hskip
      | some clause =>
        exact ((lowerClause?_laid hclause.2 hnode hkeep.1 hread).lower hlo).append (ih hrest hkeep.2)
    · exact hskip

theorem lowerImport_laid (h : SpacedIn lo hi children) (hkeep : AllKeepNames source children)
    (hfront : ∀ front ∈ frontOf? children, StartsFrom source lo front) :
    Laid source lo hi ((lowerImport source children).movable.map (·.span)) := by
  rw [lowerImport]
  split
  · rename_i group hgroup
    have hmem := List.mem_of_find?_eq_some hgroup
    rw [Import.movable]
    dsimp only
    split
    · rename_i name hname
      obtain ⟨front, hnode, hread⟩ := Option.bind_eq_some_iff.1 hname
      exact laid_name (h.within (List.mem_of_find?_eq_some hnode)) (hfront front hnode) hread
    · -- without a readable front the names of the group count by themselves
      have hinside := h.within hmem
      rw [List.map_map]
      exact ((lowerClauses_laid hinside.spaced.children (hkeep.mem hmem).below).lower hinside.start).raise
        hinside.stop
  · rw [Import.movable, List.map_map]
    exact lowerClauses_laid h hkeep

theorem lowerDeclaredName_laid (hle : lo ≤ hi)
    (hname : ∀ name ∈ nameOf? children, name.Within lo hi ∧ StartsFrom source lo name) :
    Laid source lo hi ((lowerDeclaredName source children).toList.map (·.span)) := by
  rw [lowerDeclaredName]
  cases hread : (nameOf? children).bind fun n => nameAt? source n.span with
  | none => exact hle
  | some n =>
    obtain ⟨node, hnode, hn⟩ := Option.bind_eq_some_iff.1 hread
    exact laid_name (hname node hnode).1 (hname node hnode).2 hn

mutual

/-- a node that matters itself: its names stand where it does -/
theorem lowerSpecial?_laid : (n : Node) → n.Spaced → KeepsNames source n → ∀ {node : SyntaxNode},
    lowerSpecial? source n = some node → Laid source n.span.start n.span.stop ((editableOf node).map Mention.span)
  | .mk kind named field span children, hspaced, ⟨hown, hfirst, hkeep⟩, _, h => by
    have hinside : SpacedIn span.start span.stop children := hspaced
    cases lowered_of_special h with
    | block hkind hbody =>
      subst hkind
      obtain ⟨body, hfound, hlaid⟩ := lowerBody_laid _ children hinside hkeep hbody
      have hbraces := hinside.within (List.mem_of_find?_eq_some hfound)
      rw [editableOf, List.map_append, List.map_map]
      refine (lowerDeclaredName_laid hbraces.start fun name hname => ⟨?_, ?_⟩).append (hlaid.raise hbraces.stop)
      · have hplace := hinside.within (List.mem_of_find?_eq_some hname)
        exact ⟨hplace.start, hplace.spaced, hfirst rfl name hname body hfound⟩
      · exact hown name (Option.mem_toList.2 hname)
    | line hkind =>
      subst hkind
      rw [editableOf, List.map_map]
      exact lowerDeclaredName_laid hinside.le fun name hname =>
        ⟨hinside.within (List.mem_of_find?_eq_some hname), hown name (Option.mem_toList.2 hname)⟩
    | imports hkind =>
      subst hkind
      rw [editableOf, List.map_map]
      exact lowerImport_laid hinside hkeep fun front hfront => hown front (Option.mem_toList.2 hfront)
    | literal hread =>
      obtain ⟨hspan, hlow, hhigh, -, -⟩ := literalAt?_eq_some hread
      rw [editableOf, List.map_singleton, Mention.span, hspan]
      exact ⟨.inl (Nat.le_refl _), hlow.trans hhigh, Nat.le_refl _⟩
    | @reference n hread =>
      rw [editableOf]
      split
      · exact hinside.le
      · rename_i hrelative
        have hwithin : Node.Within span.start span.stop (.mk kind named field span children) :=
          ⟨Nat.le_refl _, hspaced, Nat.le_refl _⟩
        -- a reference that is not relative starts at its node, or one byte in front of it
        refine laid_name hwithin (.inr (Nat.le_of_not_lt fun hfar => hrelative ?_)) hread
        exact nameAt?_relative hinside.le hfar hread
    | nothing => exact hinside.le

/-- what stands in the child that is taken for the braces -/
theorem lowerBody_laid (p : Node → Bool) : (nodes : List Node) → {lo hi : Nat} → SpacedIn lo hi nodes →
    AllKeepNames source nodes → ∀ {body : List SyntaxNode}, lowerBody source p nodes = some body →
    ∃ n, nodes.find? p = some n ∧ Laid source n.span.start n.span.stop ((editable body).map Mention.span)
  | [], _, _, _, _, _, h => by cases h
  | .mk kind named field span children :: rest, _, _, hspaced, hkeep, _, h => by
    rw [lowerBody] at h
    split at h
    · rename_i hp
      cases h
      exact ⟨_, List.find?_cons_of_pos hp, lowerChildren_laid children hspaced.2.1 hkeep.1.2.2⟩
    · rename_i hp
      obtain ⟨n, hn, hlaid⟩ := lowerBody_laid p rest hspaced.2.2 hkeep.2 h
      exact ⟨n, by rw [List.find?_cons_of_neg hp, hn], hlaid⟩

/-- **Mentions stand in the order of the nodes.** In a spaced tree that keeps its names, those that may be edited come one
behind the other, each where its node is or a separator earlier. -/
theorem lowerChildren_laid : (nodes : List Node) → {lo hi : Nat} → SpacedIn lo hi nodes → AllKeepNames source nodes →
    Laid source lo hi ((editable (lowerChildren source nodes)).map Mention.span)
  | [], _, _, hspaced, _ => hspaced
  | .mk kind named field span children :: rest, lo, hi, ⟨hlo, hnode, hrest⟩, ⟨hkeeps, hmore⟩ => by
    have hskip : Laid source lo span.stop [] := hlo.trans hnode.le
    have htail := lowerChildren_laid rest hrest hmore
    rw [lowerChildren, editable_append, List.map_append]
    refine Laid.append ?_ htail
    split
    · split
      · rename_i node hread
        rw [editable_singleton]
        exact (lowerSpecial?_laid _ hnode hkeeps hread).lower hlo
      · dsimp only
        split
        · exact hskip
        · rw [editable_singleton, editableOf]
          exact (lowerDescendants_laid children hnode hkeeps.2.2).lower hlo
    · exact hskip

theorem lowerDescendants_laid : (nodes : List Node) → {lo hi : Nat} → SpacedIn lo hi nodes → AllKeepNames source nodes →
    Laid source lo hi ((editable (lowerDescendants source nodes)).map Mention.span)
  | [], _, _, hspaced, _ => hspaced
  | .mk kind named field span children :: rest, lo, hi, ⟨hlo, hnode, hrest⟩, ⟨hkeeps, hmore⟩ => by
    have hskip : Laid source lo span.stop [] := hlo.trans hnode.le
    have htail := lowerDescendants_laid rest hrest hmore
    rw [lowerDescendants, editable_append, List.map_append]
    refine Laid.append ?_ htail
    split
    · split
      · rename_i node hread
        rw [editable_singleton]
        exact (lowerSpecial?_laid _ hnode hkeeps hread).lower hlo
      · exact (lowerDescendants_laid children hnode hkeeps.2.2).lower hlo
    · exact hskip

end

end Laid

end Php

end Isolation
