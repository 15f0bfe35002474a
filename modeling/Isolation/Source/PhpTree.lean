/-
From the bytes of a PHP file to its tree.

- `settle` tells array literals from arrays that are assigned to, and refuses free places and `list` in others.
- `tree? source` is the tree of an accepted file, its statements in order.
- `parser` is the parser used unless another is named: the nodes of the tree that took any bytes.
-/
import Isolation.Source.Lexer
import Isolation.Source.Node
import Isolation.Source.PhpGrammar

namespace Isolation.Php

abbrev Tree := ParseTree Mark

/-- a free place other than the last one -/
def hasHole (places : List Tree) : Bool := places.dropLast.any (·.kind == .hole)

mutual

/-- `target` says that the tree is assigned to, alone or as a place of an array -/
def settleTree (target : Bool) : Tree → Option Tree
  | .node kind span children =>
    match kind with
    | .array =>
      if target then (settleTrees true children).map (.node .target span)
      else if hasHole children then none
      else (settleTrees false children).map (.node .array span)
    | .list => if target then (settleTrees true children).map (.node .target span) else none
    | .element => (settleTrees target children).map (.node .element span)
    | .item => (settleTrees target children).map (.node .item span)
    | _ => (settleTrees false children).map (.node kind span)

/-- settles trees that stand side by side; a mark behind a tree says that it is assigned to -/
def settleTrees (target : Bool) : List Tree → Option (List Tree)
  | [] => some []
  | t :: rest =>
    let assigned := (rest.head?.map (·.kind)) == some .assigned
    match settleTree (target || assigned) t with
    | none => none
    | some t' =>
      match settleTrees target rest with
      | none => none
      | some rest' => some (t' :: rest')

end

/-- steps into patterns that one token can need -/
def depthPerToken : Nat := 1000

/-- the statements of an accepted file -/
def tree? (source : List UInt8) : Option (List Tree) :=
  match Lexer.lex? source with
  | none => none
  | some tokens =>
    match Pattern.run rules (depthPerToken * (tokens.length + 1)) program tokens with
    | none => none
    | some result => settleTrees false result.trees

/-! ## Nodes -/

def Mark.nodeKind : Mark → NodeKind
  | namespaceDecl => .namespaceDefinition
  | namespaceName => .namespaceName
  | body => .compoundStatement
  | import_ => .useDeclaration
  | importFront => .namespaceName
  | importGroup => .useGroup
  | importClause => .useClause
  | importName => .qualifiedName
  | importAlias => .name
  | qualifiedName => .qualifiedName
  | literal => .string
  | returning => .returnStatement
  | array => .arrayCreation
  | element => .arrayElement
  | arrow => .arrow
  | property => .propertyElement
  | propertyName => .variableName
  | statement | target | list | item | hole | part | assigned => .other

def Mark.field? : Mark → Option NodeField
  | namespaceName => some .name
  | body => some .body
  | importAlias => some .alias
  | _ => none

mutual

def nodeOf : Tree → Node
  | .node mark span children => .mk mark.nodeKind (mark != .arrow) mark.field? span (nodesOf children)

/-- trees side by side, without those that took no bytes -/
def nodesOf : List Tree → List Node
  | [] => []
  | .node mark span children :: rest =>
    if span.start = span.stop then nodesOf rest else nodeOf (.node mark span children) :: nodesOf rest

end

/-- the tree of an accepted file below a root for the whole file -/
def parser : Parser := fun source =>
  (tree? source).map fun trees => .mk .other true none ⟨0, source.length⟩ (nodesOf trees)

end Isolation.Php
