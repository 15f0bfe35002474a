/-
The namespaces that a file declares, and where.

- `declarations`: the declared names by recursion on the tree.
- `declaredNamespaces_eq`: the loop over pending nodes finds the same names, in the same order.
- `DeclaresAt nodes p n`: the node at a position declares a name.
- `mem_declarations_iff`: every declared name is declared at some position, inside braces and wrappers or not.
- `mem_flatMap_iff_nodeAt?`: what is gathered from a file is what some node of it has itself.
- `nodeAt?_mem_positions`: every node of a file stands at one of its positions.
- `occurrencesAt_mentioned`: the names that occur at a position are mentioned in the file.
-/
import Isolation.Proofs.Prefixing.Sites
import Isolation.Proofs.Source.Mentions

namespace Isolation

namespace SyntaxNode

/-- the name that a node itself declares -/
def declared? : SyntaxNode → Option WrittenName
  | .namespaceLine name => name
  | .namespaceBlock name _ => name
  | _ => none

mutual

/-- every name declared at or inside a node, in the order of the file -/
def declarationsOf : SyntaxNode → List WrittenName
  | .namespaceLine name => name.toList
  | .namespaceBlock name body => name.toList ++ declarations body
  | .other children => declarations children
  | .imports _ => []
  | .literal _ => []
  | .reference _ => []

def declarations : List SyntaxNode → List WrittenName
  | [] => []
  | n :: rest => declarationsOf n ++ declarations rest

end

theorem declarations_append (a b : List SyntaxNode) : declarations (a ++ b) = declarations a ++ declarations b := by
  induction a with
  | nil => rfl
  | cons n rest ih => rw [List.cons_append, declarations, declarations, ih, List.append_assoc]

/-- the text of a declared name -/
def spaceText (n : WrittenName) : String := joinSegments n.segments

theorem declaredName_eq (name : Option WrittenName) : declaredName name = name.toList.map spaceText := by
  cases name <;> rfl

theorem declaredName_reverse (name : Option WrittenName) : (declaredName name).reverse = declaredName name := by
  cases name <;> rfl

/-- what was found stays in front of what the pending nodes declare -/
theorem declaredFrom_eq (found : List String) (pending : List SyntaxNode) :
    declaredFrom found pending = found.reverse ++ (declarations pending).map spaceText := by
  fun_induction declaredFrom found pending with
  | case1 found => simp [declarations]
  | case2 found name rest ih =>
    rw [ih, List.reverse_append, declaredName_reverse, declaredName_eq, declarations, declarationsOf, List.map_append,
      List.append_assoc]
  | case3 found name body rest ih =>
    rw [ih, List.reverse_append, declaredName_reverse, declaredName_eq, declarations, declarationsOf,
      declarations_append, List.map_append, List.map_append, List.map_append, List.append_assoc, List.append_assoc]
  | case4 found children rest ih => rw [ih, declarations, declarationsOf, declarations_append]
  | case5 found decl rest ih => rw [ih, declarations, declarationsOf, List.nil_append]
  | case6 found l rest ih => rw [ih, declarations, declarationsOf, List.nil_append]
  | case7 found name rest ih => rw [ih, declarations, declarationsOf, List.nil_append]

/-- the loop finds the declared names, in the order of the file -/
theorem declaredNamespaces_eq (nodes : List SyntaxNode) :
    declaredNamespaces nodes = (declarations nodes).map spaceText := by
  rw [declaredNamespaces, declaredFrom_eq, List.reverse_nil, List.nil_append]

end SyntaxNode

namespace Prefixing

open SyntaxNode

/-! ## Nodes and positions -/

/-- what a node has, and all that is inside it, is in the file -/
theorem subset_of_nodeAt? {α : Type} {f : SyntaxNode → List α} (hinside : ∀ n, (inside n).flatMap f ⊆ f n)
    {nodes : List SyntaxNode} {p : Position} {m : SyntaxNode} (h : nodeAt? nodes p = some m) :
    f m ⊆ nodes.flatMap f := by
  have hof : ∀ {nodes : List SyntaxNode} {n : SyntaxNode}, n ∈ nodes → f n ⊆ nodes.flatMap f :=
    fun hn x hx => List.mem_flatMap.2 ⟨_, hn, hx⟩
  induction p generalizing nodes with
  | nil => cases h
  | cons i rest ih =>
    cases rest with
    | nil => exact hof (List.mem_of_getElem? h)
    | cons j rest =>
      obtain ⟨n, hn, hm⟩ := Option.bind_eq_some_iff.1 h
      exact fun x hx => hof (List.mem_of_getElem? hn) (hinside n (ih hm hx))

section Gathering

variable {α : Type} {f own : SyntaxNode → List α} {x : α}

theorem nodeAt?_inside {u m : SyntaxNode} {p : Position} (h : nodeAt? (inside u) p = some m)
    (rest : List SyntaxNode) : nodeAt? (u :: rest) (0 :: p) = some m := by
  cases p with
  | nil => cases h
  | cons j q => exact h

mutual

/-- what a node has is its own, or that of a node inside it -/
theorem exists_nodeAt?_of_node (hf : ∀ n, f n ⊆ own n ++ (inside n).flatMap f) (rest : List SyntaxNode) :
    (u : SyntaxNode) → x ∈ f u → ∃ p m, nodeAt? (u :: rest) p = some m ∧ x ∈ own m
  | .namespaceBlock name body, h => by
    rcases List.mem_append.1 (hf _ h) with hown | hin
    · exact ⟨[0], _, rfl, hown⟩
    · obtain ⟨p, m, hp, hm⟩ := exists_nodeAt?_of_nodes hf body hin
      exact ⟨0 :: p, m, nodeAt?_inside (u := .namespaceBlock name body) hp rest, hm⟩
  | .other children, h => by
    rcases List.mem_append.1 (hf _ h) with hown | hin
    · exact ⟨[0], _, rfl, hown⟩
    · obtain ⟨p, m, hp, hm⟩ := exists_nodeAt?_of_nodes hf children hin
      exact ⟨0 :: p, m, nodeAt?_inside (u := .other children) hp rest, hm⟩
  | .namespaceLine name, h => ⟨[0], _, rfl, by simpa [inside] using hf _ h⟩
  | .imports decl, h => ⟨[0], _, rfl, by simpa [inside] using hf _ h⟩
  | .literal l, h => ⟨[0], _, rfl, by simpa [inside] using hf _ h⟩
  | .reference name, h => ⟨[0], _, rfl, by simpa [inside] using hf _ h⟩

theorem exists_nodeAt?_of_nodes (hf : ∀ n, f n ⊆ own n ++ (inside n).flatMap f) :
    (nodes : List SyntaxNode) → x ∈ nodes.flatMap f → ∃ p m, nodeAt? nodes p = some m ∧ x ∈ own m
  | [], h => by cases h
  | u :: rest, h => by
    rw [List.flatMap_cons, List.mem_append] at h
    rcases h with h | h
    · exact exists_nodeAt?_of_node hf rest u h
    · obtain ⟨p, m, hp, hm⟩ := exists_nodeAt?_of_nodes hf rest h
      cases p with
      | nil => cases hp
      | cons i q => exact ⟨(i + 1) :: q, m, by rw [nodeAt?_succ, hp], hm⟩

end

/-- what is gathered from a file, node by node, is what some node of it has itself -/
theorem mem_flatMap_iff_nodeAt? (hf : ∀ n, f n = own n ++ (inside n).flatMap f) {nodes : List SyntaxNode} :
    x ∈ nodes.flatMap f ↔ ∃ p m, nodeAt? nodes p = some m ∧ x ∈ own m := by
  refine ⟨exists_nodeAt?_of_nodes (fun n y hy => by rwa [hf n] at hy) nodes, fun ⟨p, m, hp, hm⟩ => ?_⟩
  refine subset_of_nodeAt? (fun n => ?_) hp ?_
  · rw [hf n]
    exact List.subset_append_right _ _
  · rw [hf m]
    exact List.mem_append_left _ hm

end Gathering

theorem mentions_eq_flatMap (nodes : List SyntaxNode) : mentions nodes = nodes.flatMap mentionsOf := by
  induction nodes with
  | nil => rfl
  | cons n rest ih => rw [mentions, ih, List.flatMap_cons]

theorem mentionsOf_subset {nodes : List SyntaxNode} {p : Position} {m : SyntaxNode} (h : nodeAt? nodes p = some m) :
    mentionsOf m ⊆ mentions nodes := by
  rw [mentions_eq_flatMap]
  refine subset_of_nodeAt? (fun n => ?_) h
  rw [← mentions_eq_flatMap]
  cases n with
  | namespaceBlock name body => exact List.subset_append_right _ _
  | other children => exact List.Subset.refl _
  | _ => exact List.nil_subset _

theorem nil_mem_positionsOf (n : SyntaxNode) : [] ∈ positionsOf n := by
  cases n <;> simp [positionsOf]

theorem mem_positionsFrom {nodes : List SyntaxNode} {k : Nat} {n : SyntaxNode} {p : Position}
    (hn : nodes[k]? = some n) (hp : p ∈ positionsOf n) (i : Nat) : (i + k) :: p ∈ positionsFrom i nodes := by
  induction nodes generalizing i k with
  | nil => simp at hn
  | cons m rest ih =>
    rw [positionsFrom, List.mem_append]
    cases k with
    | zero =>
      obtain rfl : m = n := by simpa using hn
      exact .inl (List.mem_map.2 ⟨p, hp, rfl⟩)
    | succ k =>
      have hrest := ih (i := i + 1) (by simpa using hn)
      rw [Nat.add_right_comm] at hrest
      exact .inr hrest

/-- every node of a file stands at one of its positions -/
theorem nodeAt?_mem_positions {nodes : List SyntaxNode} {p : Position} {m : SyntaxNode}
    (h : nodeAt? nodes p = some m) : p ∈ positions nodes := by
  rw [positions]
  induction p generalizing nodes with
  | nil => cases h
  | cons i rest ih =>
    have hat : ∀ {n : SyntaxNode}, nodes[i]? = some n → rest ∈ positionsOf n → i :: rest ∈ positionsFrom 0 nodes := by
      intro n hn hrest
      have hmem := mem_positionsFrom hn hrest 0
      rwa [Nat.zero_add] at hmem
    cases rest with
    | nil => exact hat h (nil_mem_positionsOf m)
    | cons j rest =>
      obtain ⟨n, hn, hm⟩ := Option.bind_eq_some_iff.1 h
      refine hat hn ?_
      have hinner := ih hm
      cases n with
      | namespaceBlock name body => exact List.mem_cons_of_mem _ hinner
      | other children => exact List.mem_cons_of_mem _ hinner
      | _ => simp [inside, positionsFrom] at hinner

/-! ## Declarations at positions -/

/-- the node at a position declares a name -/
def DeclaresAt (nodes : List SyntaxNode) (p : Position) (n : WrittenName) : Prop :=
  ∃ m, nodeAt? nodes p = some m ∧ m.declared? = some n

theorem declarations_eq_flatMap (nodes : List SyntaxNode) : declarations nodes = nodes.flatMap declarationsOf := by
  induction nodes with
  | nil => rfl
  | cons n rest ih => rw [declarations, ih, List.flatMap_cons]

/-- a node declares its own name first, then those inside it -/
theorem declarationsOf_eq (n : SyntaxNode) :
    declarationsOf n = n.declared?.toList ++ declarations (inside n) := by
  cases n <;> simp [declarationsOf, declared?, inside, declarations]

/-- the declared names are those declared at some position -/
theorem mem_declarations_iff {nodes : List SyntaxNode} {n : WrittenName} :
    n ∈ declarations nodes ↔ ∃ p, DeclaresAt nodes p n := by
  have hparts : ∀ u, declarationsOf u = u.declared?.toList ++ (inside u).flatMap declarationsOf := by
    intro u
    rw [← declarations_eq_flatMap, declarationsOf_eq]
  rw [declarations_eq_flatMap, mem_flatMap_iff_nodeAt? hparts]
  simp only [DeclaresAt, Option.mem_toList]

/-! ## Names at positions -/

/-- the name of an occurrence that is no literal -/
def Occurrence.name? : Occurrence → Option WrittenName
  | space name => some name
  | imported name => some name
  | referred name _ _ => some name
  | quoted _ => none

/-- the names that occur at a position are mentioned in the file -/
theorem occurrencesAt_mentioned {nodes : List SyntaxNode} {p : Position} {o : Occurrence} {n : WrittenName}
    (ho : o ∈ occurrencesAt nodes p) (hn : o.name? = some n) : Mention.name n ∈ mentions nodes := by
  rw [occurrencesAt] at ho
  split at ho
  · rename_i m hm
    refine mentionsOf_subset hm ?_
    cases m with
    | namespaceLine name =>
      obtain ⟨k, hk, rfl⟩ := List.mem_map.1 ho
      cases hn
      exact List.mem_map.2 ⟨_, hk, rfl⟩
    | namespaceBlock name body =>
      obtain ⟨k, hk, rfl⟩ := List.mem_map.1 ho
      cases hn
      exact List.mem_append_left _ (List.mem_map.2 ⟨_, hk, rfl⟩)
    | imports decl =>
      rw [mentionsOf, Import.movable]
      rw [occurrencesOf] at ho
      cases hfront : decl.front? with
      | some front =>
        rw [hfront] at ho
        obtain rfl := List.mem_singleton.1 ho
        cases hn
        exact List.mem_singleton.2 rfl
      | none =>
        rw [hfront] at ho
        obtain ⟨clause, hclause, rfl⟩ := List.mem_map.1 ho
        cases hn
        exact List.mem_map.2 ⟨_, List.mem_map.2 ⟨clause, hclause, rfl⟩, rfl⟩
    | literal l =>
      obtain rfl := List.mem_singleton.1 ho
      cases hn
    | reference name =>
      obtain rfl := List.mem_singleton.1 ho
      cases hn
      exact List.mem_singleton.2 rfl
    | other children => cases ho
  · cases ho

end Prefixing

end Isolation
