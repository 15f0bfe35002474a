/-
Syntax trees as a parser of PHP gives them. The parser is not part of this library: whatever reads a tree takes a
`Parser` to get it from, and `Php.parser` is the one that is used unless another is named.

A node tells its kind and its span. Named nodes are those of the grammar's rules, the others are single tokens. A
parent may call a child by a field.
-/
import Isolation.Name.WrittenName

namespace Isolation

/-- the kinds of nodes that are told apart; all others are `other` -/
inductive NodeKind where
  | namespaceDefinition
  | namespaceName
  /-- statements between braces -/
  | compoundStatement
  | useDeclaration
  /-- the braces of a group import -/
  | useGroup
  | useClause
  | useGroupClause
  /-- the part of a clause that starts with `as` -/
  | aliasingClause
  /-- a name without a separator -/
  | name
  | qualifiedName
  /-- a name that starts with `namespace\` -/
  | relativeName
  | string
  /-- a string in double quotes -/
  | encapsedString
  | stringContent
  | stringValue
  | escapeSequence
  | returnStatement
  | arrayCreation
  | arrayElement
  | propertyElement
  | variableName
  /-- the token `=>` -/
  | arrow
  | other
deriving DecidableEq, Repr

namespace NodeKind

/-- a name in any form -/
def isName : NodeKind → Bool
  | qualifiedName | namespaceName | name | relativeName => true
  | _ => false

/-- one clause of an import -/
def isClause : NodeKind → Bool
  | useClause | useGroupClause => true
  | _ => false

/-- a part of a string that stands for itself -/
def isStringPart : NodeKind → Bool
  | stringContent | stringValue | string | escapeSequence => true
  | _ => false

end NodeKind

/-- what a parent calls a child -/
inductive NodeField where
  | name
  | body
  | alias
deriving DecidableEq, Repr

inductive Node where
  | mk (kind : NodeKind) (named : Bool) (field? : Option NodeField) (span : Span) (children : List Node)

/-- the root of the tree of a source, `none` if the source cannot be read without an error -/
abbrev Parser := List UInt8 → Option Node

namespace Node

def kind : Node → NodeKind
  | mk k _ _ _ _ => k

def named : Node → Bool
  | mk _ n _ _ _ => n

/-- what the parent calls it -/
def field? : Node → Option NodeField
  | mk _ _ f _ _ => f

def span : Node → Span
  | mk _ _ _ s _ => s

def children : Node → List Node
  | mk _ _ _ _ cs => cs

/-- a named node of the kind -/
def isNamed (kind : NodeKind) (n : Node) : Bool := n.named && n.kind == kind

/-- the children that are named -/
def namedChildren (n : Node) : List Node := n.children.filter (·.named)

/-- tells the child of a field, or the named children of a kind where no child has the field -/
def picks (field : NodeField) (kind : NodeKind) (children : List Node) (n : Node) : Bool :=
  if children.any (·.field? == some field) then n.field? == some field else n.isNamed kind

mutual

/-- the first named node that passes the test, from the outside in and from left to right; the node itself first -/
def find? (p : Node → Bool) : Node → Option Node
  | mk kind named field span children =>
    if named then
      if p (mk kind named field span children) then some (mk kind named field span children) else findIn? p children
    else none

def findIn? (p : Node → Bool) : List Node → Option Node
  | [] => none
  | n :: rest =>
    match n.find? p with
    | some found => some found
    | none => findIn? p rest

end

end Node

end Isolation
