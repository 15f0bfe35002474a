/-
The declarations that discovery finds are those that the walk over a file is called for.

- `Search`: the search for declared names as a loop over a stack. A round takes the top node, notes its name, and puts
  what it holds on the stack, last node first.
- `rounds?_on_top`: the nodes on top of a stack are used up, in order and one round for each of them and each node
  inside them, before anything below them is touched. So the search ends, with the declared names (`rounds?_start`).
- `visitTraced`: the walk with a record of its calls; without the record it is the walk, and the edits of the calls are
  the edits of the walk (`visitTraced_recorded`).
- `pairwise_positionsFrom`, `exists_visit_iff`: the calls are one for each node of the file, in the order of the file.
- `declaredNamespaces_eq_visited`: the names that the search finds are those of the calls for a declaration with a name.
-/
import Isolation.Proofs.Prefixing.Declarations

namespace Isolation.Prefixing

open SyntaxNode

/-! ## The search over a stack -/

/-- a search for declared names: those found so far, in order, and a stack of nodes to look at, its top at the end -/
structure Search where
  found : List String
  pending : List SyntaxNode

namespace Search

/-- nothing is found yet, and the first node is on top -/
def start (nodes : List SyntaxNode) : Search := ⟨[], nodes.reverse⟩

/-- one round with the top node; `none` if the stack is empty -/
def round? (s : Search) : Option Search :=
  match s.pending.getLast? with
  | none => none
  | some (.namespaceLine name) => some ⟨s.found ++ declaredName name, s.pending.dropLast⟩
  | some (.namespaceBlock name body) => some ⟨s.found ++ declaredName name, s.pending.dropLast ++ body.reverse⟩
  | some (.other children) => some ⟨s.found, s.pending.dropLast ++ children.reverse⟩
  | some (.imports _) => some ⟨s.found, s.pending.dropLast⟩
  | some (.literal _) => some ⟨s.found, s.pending.dropLast⟩
  | some (.reference _) => some ⟨s.found, s.pending.dropLast⟩

/-- a number of rounds; `none` if the stack is empty before the last of them -/
def rounds? : Nat → Search → Option Search
  | 0, s => some s
  | k + 1, s => s.round?.bind (rounds? k)

/-- a round with a node on top finds the name of the node and puts what it holds in its place -/
theorem round?_on_top (found : List String) (below : List SyntaxNode) (n : SyntaxNode) :
    round? ⟨found, below ++ [n]⟩ = some ⟨found ++ n.declared?.toList.map spaceText, below ++ (inside n).reverse⟩ := by
  rw [round?, List.getLast?_concat, List.dropLast_concat]
  cases n with
  | namespaceLine name => simp [declaredName_eq, declared?, inside]
  | namespaceBlock name body => simp [declaredName_eq, declared?, inside]
  | _ => simp [declared?, inside]

end Search

/-- a node counts for itself and for what is inside it -/
theorem count_eq_inside (n : SyntaxNode) : n.count = countAll (inside n) + 1 := by
  cases n with
  | namespaceBlock name body => rw [count, Nat.add_comm]; rfl
  | other children => rw [count, Nat.add_comm]; rfl
  | _ => rfl

namespace Search

/-- **The stack is used up from the top.** The nodes on top of a stack, in their order, take one round each and one for
each node inside them; then their names are found and the stack is what was below them. -/
theorem rounds?_on_top (found : List String) (below nodes : List SyntaxNode) :
    rounds? (countAll nodes) ⟨found, below ++ nodes.reverse⟩ =
      some ⟨found ++ (declarations nodes).map spaceText, below⟩ := by
  -- by the number of nodes: a round trades the first node for what is inside it
  induction hk : countAll nodes generalizing found nodes with
  | zero =>
    cases nodes with
    | nil => simp [rounds?, declarations]
    | cons n rest =>
      rw [countAll, count_eq_inside] at hk
      omega
  | succ k ih =>
    cases nodes with
    | nil => cases hk
    | cons n rest =>
      have hinner : countAll (inside n ++ rest) = k := by
        rw [countAll, count_eq_inside] at hk
        rw [countAll_append]
        omega
      have hstack : below ++ rest.reverse ++ (inside n).reverse = below ++ (inside n ++ rest).reverse := by
        rw [List.reverse_append, List.append_assoc]
      rw [List.reverse_cons, ← List.append_assoc, rounds?, round?_on_top, Option.bind_some, hstack, ih _ _ hinner,
        declarations_append, declarations, declarationsOf_eq]
      simp only [List.map_append, List.append_assoc]

/-- the search ends after as many rounds as there are nodes, with the declared names -/
theorem rounds?_start (nodes : List SyntaxNode) :
    rounds? (countAll nodes) (start nodes) = some ⟨declaredNamespaces nodes, []⟩ := by
  have hrun := rounds?_on_top [] [] nodes
  rwa [List.nil_append, List.nil_append, ← declaredNamespaces_eq] at hrun

end Search

/-! ## The walk with a record of its calls -/

/-- a call of the walk: where its node stands, the context that it is given, and the node -/
structure Visit where
  position : Position
  context : Context
  node : SyntaxNode

/-- the edits that a call makes for its own node -/
def Visit.edits (policy : Policy) (v : Visit) : List Edit :=
  match v.node with
  | .namespaceLine name => editDeclaration policy name
  | .namespaceBlock name _ => editDeclaration policy name
  | .imports decl => editImport policy decl
  | .literal l => editLiteral policy l
  | .reference name => editReference policy v.context name
  | .other _ => []

mutual

/-- the walk over a node at a position, with its calls in the order in which they are made -/
def visitTraced (policy : Policy) (context : Context) (p : Position) :
    SyntaxNode → (List Edit × Context) × List Visit
  | .namespaceLine name =>
    ((editDeclaration policy name, { context with scope := scopeOf name }), [⟨p, context, .namespaceLine name⟩])
  | .namespaceBlock name body =>
    let inner := visitAllTraced policy { context with scope := scopeOf name } p 0 body
    ((editDeclaration policy name ++ inner.1.1, { scope := context.scope, aliases := inner.1.2.aliases }),
      ⟨p, context, .namespaceBlock name body⟩ :: inner.2)
  | .imports decl =>
    ((editImport policy decl, { context with aliases := bindAliases decl context.aliases }),
      [⟨p, context, .imports decl⟩])
  | .literal l => ((editLiteral policy l, context), [⟨p, context, .literal l⟩])
  | .reference name => ((editReference policy context name, context), [⟨p, context, .reference name⟩])
  | .other children =>
    let inner := visitAllTraced policy context p 0 children
    (inner.1, ⟨p, context, .other children⟩ :: inner.2)

/-- nodes side by side inside the node at a position, the first of which has index `i` -/
def visitAllTraced (policy : Policy) (context : Context) (p : Position) (i : Nat) :
    List SyntaxNode → (List Edit × Context) × List Visit
  | [] => (([], context), [])
  | n :: rest =>
    let first := visitTraced policy context (p ++ [i]) n
    let others := visitAllTraced policy first.1.2 p (i + 1) rest
    ((first.1.1 ++ others.1.1, others.1.2), first.2 ++ others.2)

end

/-- the calls of the walk over a file -/
def visits (policy : Policy) (nodes : List SyntaxNode) : List Visit := (visitAllTraced policy {} [] 0 nodes).2

/-- what the walk with a record has to give: the walk itself, and calls that make its edits, stand at these positions and
are for these declared names -/
structure Recorded (policy : Policy) (result : List Edit × Context) (places : List Position)
    (names : List WrittenName) (traced : (List Edit × Context) × List Visit) : Prop where
  walk : traced.1 = result
  edits : traced.2.flatMap (Visit.edits policy) = result.1
  positions : traced.2.map Visit.position = places
  declared : traced.2.filterMap (fun v => v.node.declared?) = names

mutual

/-- one node: the call for it, and the calls for what is inside it -/
theorem visitTraced_recorded (policy : Policy) (context : Context) (p : Position) : (n : SyntaxNode) →
    Recorded policy (visit policy context n) ((positionsOf n).map (p ++ ·)) (declarationsOf n)
      (visitTraced policy context p n)
  | .namespaceLine name => by
    refine ⟨rfl, ?_, ?_, ?_⟩
    · simp [visitTraced, visit, Visit.edits]
    · simp [visitTraced, positionsOf]
    · cases name <;> rfl
  | .namespaceBlock name body => by
    obtain ⟨hwalk, hedits, hpositions, hdeclared⟩ :=
      visitAllTraced_recorded policy { context with scope := scopeOf name } p 0 body
    refine ⟨?_, ?_, ?_, ?_⟩
    · simp only [visitTraced, visit, hwalk]
    · simp only [visitTraced, visit, List.flatMap_cons, hedits, Visit.edits]
    · simp only [visitTraced, positionsOf, List.map_cons, hpositions, List.append_nil]
    · rw [visitTraced, declarationsOf, ← hdeclared]
      cases name <;> rfl
  | .imports decl => by
    refine ⟨rfl, ?_, ?_, rfl⟩
    · simp [visitTraced, visit, Visit.edits]
    · simp [visitTraced, positionsOf]
  | .literal l => by
    refine ⟨rfl, ?_, ?_, rfl⟩
    · simp [visitTraced, visit, Visit.edits]
    · simp [visitTraced, positionsOf]
  | .reference name => by
    refine ⟨rfl, ?_, ?_, rfl⟩
    · simp [visitTraced, visit, Visit.edits]
    · simp [visitTraced, positionsOf]
  | .other children => by
    obtain ⟨hwalk, hedits, hpositions, hdeclared⟩ := visitAllTraced_recorded policy context p 0 children
    refine ⟨?_, ?_, ?_, ?_⟩
    · simp only [visitTraced, visit, hwalk]
    · simp only [visitTraced, visit, List.flatMap_cons, hedits, Visit.edits, List.nil_append]
    · simp only [visitTraced, positionsOf, List.map_cons, hpositions, List.append_nil]
    · rw [visitTraced, declarationsOf, ← hdeclared]
      rfl

/-- nodes side by side: the calls for the rest are made in the context that the first node leaves -/
theorem visitAllTraced_recorded (policy : Policy) (context : Context) (p : Position) (i : Nat) :
    (nodes : List SyntaxNode) →
    Recorded policy (visitAll policy context nodes) ((positionsFrom i nodes).map (p ++ ·)) (declarations nodes)
      (visitAllTraced policy context p i nodes)
  | [] => ⟨rfl, rfl, rfl, rfl⟩
  | n :: rest => by
    have first := visitTraced_recorded policy context (p ++ [i]) n
    have others := visitAllTraced_recorded policy (visit policy context n).2 p (i + 1) rest
    refine ⟨?_, ?_, ?_, ?_⟩
    · simp only [visitAllTraced, visitAll, first.walk, others.walk]
    · simp only [visitAllTraced, visitAll, first.walk, List.flatMap_append, first.edits, others.edits]
    · simp only [visitAllTraced, positionsFrom, first.walk, List.map_append, List.map_map, first.positions,
        others.positions, Function.comp_def, List.append_assoc, List.singleton_append]
    · simp only [visitAllTraced, declarations, first.walk, List.filterMap_append, first.declared, others.declared]

end

theorem visits_recorded (policy : Policy) (nodes : List SyntaxNode) :
    Recorded policy (visitAll policy {} nodes) (positions nodes) (declarations nodes)
      (visitAllTraced policy {} [] 0 nodes) := by
  have hrecorded := visitAllTraced_recorded policy {} [] 0 nodes
  simpa only [positions, List.nil_append, List.map_id'] using hrecorded

/-! ## The positions of the calls -/

theorem nil_lt_positions (nodes : List SyntaxNode) : ∀ p ∈ positionsFrom 0 nodes, [] < p := by
  intro p hp
  obtain ⟨k, q, rfl, -⟩ := positionsFrom_cons 0 nodes p hp
  exact List.nil_lt_cons k q

mutual

/-- a node comes before what is inside it -/
theorem pairwise_positionsOf : (n : SyntaxNode) → (positionsOf n).Pairwise (· < ·)
  | .namespaceBlock _ body => List.pairwise_cons.2 ⟨nil_lt_positions body, pairwise_positionsFrom 0 body⟩
  | .other children => List.pairwise_cons.2 ⟨nil_lt_positions children, pairwise_positionsFrom 0 children⟩
  | .namespaceLine _ => List.pairwise_singleton _ _
  | .imports _ => List.pairwise_singleton _ _
  | .literal _ => List.pairwise_singleton _ _
  | .reference _ => List.pairwise_singleton _ _

/-- an earlier node, with what is inside it, comes before a later one -/
theorem pairwise_positionsFrom (i : Nat) : (nodes : List SyntaxNode) → (positionsFrom i nodes).Pairwise (· < ·)
  | [] => List.Pairwise.nil
  | n :: rest => by
    rw [positionsFrom, List.pairwise_append]
    refine ⟨?_, pairwise_positionsFrom (i + 1) rest, ?_⟩
    · rw [List.pairwise_map]
      exact (pairwise_positionsOf n).imp fun h => List.cons_lt_cons_iff.2 (.inr ⟨rfl, h⟩)
    · intro p hp q hq
      obtain ⟨p, -, rfl⟩ := List.mem_map.1 hp
      obtain ⟨k, q, rfl, hk⟩ := positionsFrom_cons (i + 1) rest q hq
      exact List.cons_lt_cons_iff.2 (.inl hk)

end

mutual

/-- a call for a node or for what is inside it is for the node at its position -/
theorem nodeAt?_of_mem_visitTraced (policy : Policy) (context : Context) (p : Position) (rest : List SyntaxNode) :
    (n : SyntaxNode) → ∀ v ∈ (visitTraced policy context p n).2,
      ∃ q, v.position = p ++ q ∧ nodeAt? (n :: rest) (0 :: q) = some v.node
  | .namespaceBlock name body => by
    intro v hv
    rcases List.mem_cons.1 hv with rfl | hv
    · exact ⟨[], (List.append_nil p).symm, rfl⟩
    · obtain ⟨k, q, hposition, hnode⟩ := nodeAt?_of_mem_visitAllTraced policy _ p 0 body v hv
      rw [Nat.zero_add] at hposition
      exact ⟨k :: q, hposition, nodeAt?_inside (u := .namespaceBlock name body) hnode rest⟩
  | .other children => by
    intro v hv
    rcases List.mem_cons.1 hv with rfl | hv
    · exact ⟨[], (List.append_nil p).symm, rfl⟩
    · obtain ⟨k, q, hposition, hnode⟩ := nodeAt?_of_mem_visitAllTraced policy _ p 0 children v hv
      rw [Nat.zero_add] at hposition
      exact ⟨k :: q, hposition, nodeAt?_inside (u := .other children) hnode rest⟩
  | .namespaceLine name => by
    intro v hv
    obtain rfl := List.mem_singleton.1 hv
    exact ⟨[], (List.append_nil p).symm, rfl⟩
  | .imports decl => by
    intro v hv
    obtain rfl := List.mem_singleton.1 hv
    exact ⟨[], (List.append_nil p).symm, rfl⟩
  | .literal l => by
    intro v hv
    obtain rfl := List.mem_singleton.1 hv
    exact ⟨[], (List.append_nil p).symm, rfl⟩
  | .reference name => by
    intro v hv
    obtain rfl := List.mem_singleton.1 hv
    exact ⟨[], (List.append_nil p).symm, rfl⟩

theorem nodeAt?_of_mem_visitAllTraced (policy : Policy) (context : Context) (p : Position) (i : Nat) :
    (nodes : List SyntaxNode) → ∀ v ∈ (visitAllTraced policy context p i nodes).2,
      ∃ k q, v.position = p ++ (i + k) :: q ∧ nodeAt? nodes (k :: q) = some v.node
  | [] => by
    intro v hv
    cases hv
  | n :: rest => by
    intro v hv
    rcases List.mem_append.1 hv with hv | hv
    · obtain ⟨q, hposition, hnode⟩ := nodeAt?_of_mem_visitTraced policy context (p ++ [i]) rest n v hv
      refine ⟨0, q, ?_, hnode⟩
      rw [hposition, List.append_assoc, List.singleton_append, Nat.add_zero]
    · obtain ⟨k, q, hposition, hnode⟩ := nodeAt?_of_mem_visitAllTraced policy _ p (i + 1) rest v hv
      refine ⟨k + 1, q, ?_, ?_⟩
      · rw [hposition, Nat.add_right_comm, Nat.add_assoc]
      · rw [nodeAt?_succ, hnode]

end

theorem nodeAt?_of_mem_visits {policy : Policy} {nodes : List SyntaxNode} {v : Visit} (hv : v ∈ visits policy nodes) :
    nodeAt? nodes v.position = some v.node := by
  obtain ⟨k, q, hposition, hnode⟩ := nodeAt?_of_mem_visitAllTraced policy {} [] 0 nodes v hv
  rwa [hposition, List.nil_append, Nat.zero_add]

/-- there is a call for the node at each position, and there are no other calls -/
theorem exists_visit_iff {policy : Policy} {nodes : List SyntaxNode} {p : Position} {m : SyntaxNode} :
    (∃ v ∈ visits policy nodes, v.position = p ∧ v.node = m) ↔ nodeAt? nodes p = some m := by
  constructor
  · rintro ⟨v, hv, rfl, rfl⟩
    exact nodeAt?_of_mem_visits hv
  · intro hm
    have hp := nodeAt?_mem_positions hm
    rw [← (visits_recorded policy nodes).positions] at hp
    obtain ⟨v, hv, rfl⟩ := List.mem_map.1 hp
    have hnode := nodeAt?_of_mem_visits hv
    rw [hm] at hnode
    exact ⟨v, hv, rfl, (Option.some.inj hnode).symm⟩

/-! ## Calls for declarations -/

/-- where a call for a declaration with a name is made, and the name -/
def Visit.named? (v : Visit) : Option (Position × WrittenName) := v.node.declared?.map fun n => (v.position, n)

/-- the calls for the declarations with a name -/
def namedVisits (policy : Policy) (nodes : List SyntaxNode) : List (Position × WrittenName) :=
  (visits policy nodes).filterMap Visit.named?

theorem Visit.named?_eq_some {v : Visit} {p : Position} {n : WrittenName} :
    v.named? = some (p, n) ↔ v.position = p ∧ v.node.declared? = some n := by
  rw [Visit.named?, Option.map_eq_some_iff]
  constructor
  · rintro ⟨m, hm, hpair⟩
    cases hpair
    exact ⟨rfl, hm⟩
  · rintro ⟨rfl, hn⟩
    exact ⟨n, hn, rfl⟩

theorem map_snd_namedVisits (policy : Policy) (nodes : List SyntaxNode) :
    (namedVisits policy nodes).map Prod.snd = declarations nodes := by
  rw [namedVisits, List.map_filterMap, ← (visits_recorded policy nodes).declared]
  apply List.filterMap_congr
  intro v _
  rw [Visit.named?, Option.map_map]
  exact Option.map_id'

theorem pairwise_namedVisits (policy : Policy) (nodes : List SyntaxNode) :
    (namedVisits policy nodes).Pairwise fun c d => c.1 < d.1 := by
  have hsorted : ((visits policy nodes).map Visit.position).Pairwise (· < ·) := by
    have hplaces := (visits_recorded policy nodes).positions
    rw [visits, hplaces]
    exact pairwise_positionsFrom 0 nodes
  rw [namedVisits, List.pairwise_filterMap]
  refine (List.pairwise_map.1 hsorted).imp ?_
  rintro v w hlt ⟨p, n⟩ hv ⟨q, m⟩ hw
  obtain ⟨rfl, -⟩ := Visit.named?_eq_some.1 hv
  obtain ⟨rfl, -⟩ := Visit.named?_eq_some.1 hw
  exact hlt

theorem mem_namedVisits_iff {policy : Policy} {nodes : List SyntaxNode} {p : Position} {n : WrittenName} :
    (p, n) ∈ namedVisits policy nodes ↔ DeclaresAt nodes p n := by
  rw [namedVisits, List.mem_filterMap]
  constructor
  · rintro ⟨v, hv, hnamed⟩
    obtain ⟨rfl, hn⟩ := Visit.named?_eq_some.1 hnamed
    exact ⟨v.node, nodeAt?_of_mem_visits hv, hn⟩
  · rintro ⟨m, hm, hn⟩
    obtain ⟨v, hv, rfl, rfl⟩ := exists_visit_iff.2 hm
    exact ⟨v, hv, Visit.named?_eq_some.2 ⟨rfl, hn⟩⟩

/-- **Discovery and the walk see the same declarations.** For any policy and any file: the walk with a record is the
walk, and the edits of the file are those of the calls; the search over a stack ends, after one round for each node; the
names that it has found are those of the calls for a declaration with a name, in the order of the calls; and these calls
are one for each such declaration of the file, in the order of the file. -/
theorem declaredNamespaces_eq_visited (policy : Policy) (nodes : List SyntaxNode) :
    (visitAllTraced policy {} [] 0 nodes).1 = visitAll policy {} nodes ∧
      edits policy nodes = (visits policy nodes).flatMap (Visit.edits policy) ∧
      Search.rounds? (countAll nodes) (Search.start nodes) = some ⟨declaredNamespaces nodes, []⟩ ∧
      declaredNamespaces nodes = (namedVisits policy nodes).map (fun c => joinSegments c.2.segments) ∧
      (namedVisits policy nodes).Pairwise (fun c d => c.1 < d.1) ∧
      ∀ p n, (p, n) ∈ namedVisits policy nodes ↔ DeclaresAt nodes p n := by
  have hrecorded := visits_recorded policy nodes
  refine ⟨hrecorded.walk, hrecorded.edits.symm, Search.rounds?_start nodes, ?_, pairwise_namedVisits policy nodes,
    fun _ _ => mem_namedVisits_iff⟩
  rw [declaredNamespaces_eq, ← map_snd_namedVisits policy nodes, List.map_map]
  rfl

end Isolation.Prefixing
