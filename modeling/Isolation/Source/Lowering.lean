/-
From the tree of a PHP file to the nodes that matter to isolation. The tree comes from a parser, which is a parameter.

- a child without any such node leaves nothing behind;
- a name in the tree is read with a separator or `namespace\` in front of its node;
- a name that does not read as one, with blanks or comments inside, is no name to move: it leaves an empty node as a
  reference, is dropped as an import, and is missing as the name of a declaration;
- a literal that is not UTF-8 leaves an empty node.
-/
import Isolation.Failure
import Isolation.Source.Edit
import Isolation.Source.PhpTree
import Isolation.Source.Syntax

namespace Isolation.Php

/-- the text of a span, `none` if it is not inside the source or not UTF-8 -/
def textAt? (source : List UInt8) (span : Span) : Option String := (Edit.slice? source span).bind Utf8.decode?

/-! ## Names and literals -/

/-- the keyword in front of a relative name -/
def relativeKeyword : List UInt8 := Utf8.encode "namespace"

/-- the byte of a small letter for that of a capital, in ASCII -/
def lowerByte (b : UInt8) : UInt8 := if 0x41 ≤ b && b ≤ 0x5a then b + 0x20 else b

/-- the keyword of a relative name ends at an offset, in any case -/
def keywordEndsAt (source : List UInt8) (stop : Nat) : Bool :=
  relativeKeyword.length ≤ stop &&
    (Edit.slice? source ⟨stop - relativeKeyword.length, stop⟩).map (·.map lowerByte) == some relativeKeyword

/-- a separator stands in front of an offset -/
def separatorEndsAt (source : List UInt8) (stop : Nat) : Bool := 0 < stop && source[stop - 1]? == some 0x5c

/-- where a name starts whose node starts at an offset: a separator in front of the node belongs to the name, and so
does the keyword in front of that -/
def nameStart (source : List UInt8) (start : Nat) : Nat :=
  if separatorEndsAt source start then
    if keywordEndsAt source (start - 1) then start - 1 - relativeKeyword.length else start - 1
  else start

/-- the name whose node has a span -/
def nameAt? (source : List UInt8) (span : Span) : Option WrittenName :=
  let whole : Span := ⟨nameStart source span.start, span.stop⟩
  (textAt? source whole).bind fun text => WrittenName.parse? text whole

/-- the literal at a span -/
def literalAt? (source : List UInt8) (span : Span) : Option Literal :=
  Literal.ofSource? ((textAt? source span).getD "") span.start

/-- a node for what was read, an empty one if that is nothing -/
def nodeOr (node? : Option SyntaxNode) : SyntaxNode := node?.getD (.other [])

def lowerReference (source : List UInt8) (span : Span) : SyntaxNode :=
  nodeOr ((nameAt? source span).map .reference)

/-- a string; none if it is interpolated, and then what it holds is looked at -/
def lowerString? (source : List UInt8) (span : Span) (children : List Node) : Option SyntaxNode :=
  if children.any fun c => c.named && !c.kind.isStringPart then none
  else some (nodeOr ((literalAt? source span).map .literal))

/-! ## Imports and declarations -/

/-- the alias of a clause: the child called so, or else the name in the part that starts with `as` -/
def aliasOf? (children : List Node) : Option Node :=
  (children.find? (·.field? == some .alias)).or
    ((children.find? (·.isNamed .aliasingClause)).bind fun a => a.children.find? (·.isNamed .name))

/-- the names in a clause but for the child that is called its alias -/
def clauseNames (children : List Node) : List Node :=
  (children.eraseP (·.field? == some .alias)).filter fun c => c.named && c.kind.isName

/-- A clause of an import; dropped if its name is no name. Where the grammar has the name and the alias side by side as
plain names, the last one is the alias. -/
def lowerClause? (source : List UInt8) (children : List Node) : Option ImportClause :=
  let names := clauseNames children
  let last? := if 2 ≤ names.length && names.all (·.kind == .name) then names.getLast? else none
  (names.head?.bind fun n => nameAt? source n.span).map fun name =>
    { name
      alias? := ((aliasOf? children).or last?).map fun a => (textAt? source a.span).getD "" }

def lowerClauses (source : List UInt8) (children : List Node) : List ImportClause :=
  (children.filter fun c => c.named && c.kind.isClause).filterMap fun c => lowerClause? source c.children

/-- the shared front of a group import -/
def frontOf? (children : List Node) : Option Node := children.find? fun c => c.named && c.kind.isName

def lowerImport (source : List UInt8) (children : List Node) : Import :=
  match children.find? (·.isNamed .useGroup) with
  | some group =>
    { front? := (frontOf? children).bind fun f => nameAt? source f.span
      clauses := lowerClauses source group.children }
  | none => { front? := none, clauses := lowerClauses source children }

/-- the node of the name of a declaration -/
def nameOf? (children : List Node) : Option Node := children.find? (Node.picks .name .namespaceName children)

/-- tells the braces of a declaration -/
def isBody (children : List Node) : Node → Bool := Node.picks .body .compoundStatement children

/-- the name of a declaration -/
def lowerDeclaredName (source : List UInt8) (children : List Node) : Option WrittenName :=
  (nameOf? children).bind fun n => nameAt? source n.span

/-! ## Whole trees -/

mutual

/-- the node itself, if it is one that matters -/
def lowerSpecial? (source : List UInt8) : Node → Option SyntaxNode
  | .mk kind _ _ span children =>
    match kind with
    | .namespaceDefinition =>
      match lowerBody source (isBody children) children with
      | some body => some (.namespaceBlock (lowerDeclaredName source children) body)
      | none => some (.namespaceLine (lowerDeclaredName source children))
    | .useDeclaration => some (.imports (lowerImport source children))
    | .string | .encapsedString => lowerString? source span children
    | .qualifiedName | .relativeName => some (lowerReference source span)
    | _ => none

/-- what stands in the first child that passes the test -/
def lowerBody (source : List UInt8) (p : Node → Bool) : List Node → Option (List SyntaxNode)
  | [] => none
  | .mk kind named field span children :: rest =>
    if p (.mk kind named field span children) then some (lowerChildren source children) else lowerBody source p rest

/-- nodes side by side; each that does not matter itself is a wrapper around those inside that do -/
def lowerChildren (source : List UInt8) : List Node → List SyntaxNode
  | [] => []
  | .mk kind named field span children :: rest =>
    let first :=
      if named then
        match lowerSpecial? source (.mk kind named field span children) with
        | some node => [node]
        | none =>
          let inside := lowerDescendants source children
          if inside.isEmpty then [] else [.other inside]
      else []
    first ++ lowerChildren source rest

/-- the outermost nodes that matter, in the order of the file -/
def lowerDescendants (source : List UInt8) : List Node → List SyntaxNode
  | [] => []
  | .mk kind named field span children :: rest =>
    let first :=
      if named then
        match lowerSpecial? source (.mk kind named field span children) with
        | some node => [node]
        | none => lowerDescendants source children
      else []
    first ++ lowerDescendants source rest

end

/-- reads a PHP file; `path` is only named in the failure -/
def parse (source : List UInt8) (path : String) (parser : Parser := Php.parser) : Outcome (List SyntaxNode) :=
  match parser source with
  | some root => .ok (lowerChildren source root.children)
  | none => .error (Failure.syntaxError path)

end Isolation.Php
