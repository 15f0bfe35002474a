/-
What matters to isolation in a PHP file: namespace declarations, imports, plain string literals and names with a
separator. All else is only a wrapper around these, in the order of the file.
-/
import Isolation.Source.Literal

namespace Isolation

/-- one imported name, and the name that `as` binds it to -/
structure ImportClause where
  name : WrittenName
  alias? : Option String
deriving DecidableEq, Repr

/-- an import -/
structure Import where
  /-- the shared front of a group import: `A\B` in an import of several names below `A\B` -/
  front? : Option WrittenName
  clauses : List ImportClause
deriving DecidableEq, Repr

inductive SyntaxNode where
  /-- a declaration without braces, for what follows it -/
  | namespaceLine (name : Option WrittenName)
  /-- a declaration with braces; nameless for the global namespace -/
  | namespaceBlock (name : Option WrittenName) (body : List SyntaxNode)
  | imports (decl : Import)
  | literal (l : Literal)
  | reference (name : WrittenName)
  /-- anything else, for what it holds -/
  | other (children : List SyntaxNode)

/-- the declaration's name as a text, if it has one -/
def declaredName (name : Option WrittenName) : List String :=
  match name with
  | some n => [joinSegments n.segments]
  | none => []

namespace SyntaxNode

mutual

/-- how many nodes there are, this one and those inside -/
def count : SyntaxNode → Nat
  | .namespaceBlock _ body => 1 + countAll body
  | .other children => 1 + countAll children
  | _ => 1

def countAll : List SyntaxNode → Nat
  | [] => 0
  | n :: rest => n.count + countAll rest

end

theorem countAll_append (a b : List SyntaxNode) : countAll (a ++ b) = countAll a + countAll b := by
  induction a with
  | nil => simp [countAll]
  | cons n rest ih => simp [countAll, ih, Nat.add_assoc]

/-- the names declared in the pending nodes, which are taken from the front and replaced by what they hold;
`found` are the names so far, last one first -/
def declaredFrom (found : List String) (pending : List SyntaxNode) : List String :=
  match pending with
  | [] => found.reverse
  | .namespaceLine name :: rest => declaredFrom (declaredName name ++ found) rest
  | .namespaceBlock name body :: rest => declaredFrom (declaredName name ++ found) (body ++ rest)
  | .other children :: rest => declaredFrom found (children ++ rest)
  | .imports _ :: rest => declaredFrom found rest
  | .literal _ :: rest => declaredFrom found rest
  | .reference _ :: rest => declaredFrom found rest
termination_by countAll pending
decreasing_by all_goals (simp only [countAll, count, countAll_append]; omega)

/-- every namespace declared in a file, in the order of the file -/
def declaredNamespaces (nodes : List SyntaxNode) : List String := declaredFrom [] nodes

end SyntaxNode

end Isolation
