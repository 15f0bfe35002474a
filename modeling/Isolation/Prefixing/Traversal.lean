/-
The walk over a file that finds what to move under the vendor prefix. The walk carries its context from node to
node: braces of a namespace restore the scope behind them, and aliases stay bound to the end of the file.

- a declaration and the front of a group import are moved when their namespace is;
- an imported name and a reference are moved when the namespace in front of their last segment is;
- a reference is left alone if it is relative, has one segment, starts with an alias, or stands in a named scope
  without a leading separator;
- a literal is moved when its value is a namespace to be moved, or a name below one.
-/
import Isolation.Name.Policy
import Isolation.Prefixing.Context
import Isolation.Source.Edit
import Isolation.Source.Syntax

namespace Isolation.Prefixing

variable (policy : Policy)

/-- the name under the vendor prefix, if the namespace in front of its last segment is moved -/
def prefixedName (name : WrittenName) : Option (List String) :=
  (policy.prefixSegments name.namespacePart).map (· ++ [name.lastSegment])

/-- puts the segments in the place of a name, without a leading separator -/
def replaceName (name : WrittenName) (segments : List String) : Edit :=
  ⟨name.span, name.text, joinSegments segments⟩

/-- the edit of a name that stands for a namespace -/
def editNamespace (name : WrittenName) : List Edit :=
  ((policy.prefixSegments name.segments).map (replaceName name)).toList

/-- the edit of a name that stands for a class, a function or a constant, if it has several segments -/
def editImported (name : WrittenName) : List Edit :=
  if name.isQualified then ((prefixedName policy name).map (replaceName name)).toList else []

def editReference (context : Context) (name : WrittenName) : List Edit :=
  if name.relative || !name.isQualified then []
  else if !name.rooted && !context.scope.isGlobal then []
  else if context.aliases.isAlias name.firstSegment then []
  else
    match prefixedName policy name with
    | none => []
    | some segments =>
      let text := joinSegments segments
      [⟨name.span, name.text, if name.rooted then "\\" ++ text else text⟩]

/-- the characters before the last separator, none if there is no separator -/
def beforeLastSeparator (cs : List Char) : List Char := ((cs.reverse.dropWhile (· ≠ separator)).drop 1).reverse

/-- the value spells a namespace that is moved -/
def isNamespaceText (value : String) : Bool :=
  value.toList.contains separator &&
    policy.moves (if value.toList.getLast? = some separator then value else value ++ "\\")

/-- the value spells a name below a namespace that is moved -/
def isMemberText (value : String) : Bool :=
  policy.moves (trimSeparators (String.ofList (beforeLastSeparator value.toList)) ++ "\\")

def editLiteral (l : Literal) : List Edit :=
  if isNamespaceText policy l.value || isMemberText policy l.value then
    [Edit.insertion l.insertionOffset (l.encodeNamespace policy.vendorPrefix)]
  else []

/-- what an alias stands for -/
def aliasTarget (decl : Import) (clause : ImportClause) : String :=
  match decl.front? with
  | some front => joinSegments front.segments ++ "\\" ++ joinSegments clause.name.segments
  | none => joinSegments clause.name.segments

/-- the aliases bound after an import -/
def bindAliases (decl : Import) (aliases : AliasTable) : AliasTable :=
  decl.clauses.foldl
    (fun table clause =>
      match clause.alias? with
      | some name => table.bind name (aliasTarget decl clause)
      | none => table)
    aliases

def editImport (decl : Import) : List Edit :=
  match decl.front? with
  | some front => editNamespace policy front
  | none => decl.clauses.flatMap fun clause => editImported policy clause.name

/-- the scope of what a declaration is for -/
def scopeOf (name : Option WrittenName) : Scope :=
  match name with
  | none => .global
  | some n =>
    match Namespace.ofSegments n.segments with
    | .ok inside => .inside inside
    | .error _ => .global

def editDeclaration (name : Option WrittenName) : List Edit :=
  match name with
  | none => []
  | some n => editNamespace policy n

mutual

/-- one node: its edits, and the context behind it -/
def visit (context : Context) : SyntaxNode → List Edit × Context
  | .namespaceLine name => (editDeclaration policy name, { context with scope := scopeOf name })
  | .namespaceBlock name body =>
    let inner := visitAll { context with scope := scopeOf name } body
    (editDeclaration policy name ++ inner.1, { scope := context.scope, aliases := inner.2.aliases })
  | .imports decl =>
    (editImport policy decl, { context with aliases := bindAliases decl context.aliases })
  | .literal l => (editLiteral policy l, context)
  | .reference name => (editReference policy context name, context)
  | .other children => visitAll context children

/-- nodes side by side -/
def visitAll (context : Context) : List SyntaxNode → List Edit × Context
  | [] => ([], context)
  | n :: rest =>
    let first := visit context n
    let others := visitAll first.2 rest
    (first.1 ++ others.1, others.2)

end

/-- the edits of a file -/
def edits (nodes : List SyntaxNode) : List Edit := (visitAll policy {} nodes).1

end Isolation.Prefixing
