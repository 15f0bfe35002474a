/-
The grammar of PHP files, as far as it decides what is accepted and where names, string literals, imports,
namespaces, returned arrays and properties stand.

- Operators carry no precedence: an expression is a row of operands with operators between, which accepts the
  same texts as a grammar with precedence and gives the same names in the same order.
- A word is a keyword only where the grammar could use it as one: `namespace A\function;` is a declaration.
- An array literal may leave places free only where it is assigned to; `settle` looks at that afterwards.
-/
import Isolation.Source.Grammar

namespace Isolation.Php

/-- what a pattern marks as a node -/
inductive Mark where
  /-- a statement that is neither an import nor a namespace declaration -/
  | statement
  | namespaceDecl
  | namespaceName
  /-- the braces of a namespace declaration -/
  | body
  | import_
  /-- the shared front of a group import -/
  | importFront
  /-- the braces of a group import -/
  | importGroup
  | importClause
  | importName
  | importAlias
  /-- a name with a separator, outside imports and declarations -/
  | qualifiedName
  | literal
  | returning
  | array
  /-- an array or a list that is assigned to -/
  | target
  /-- a list written with its keyword -/
  | list
  | element
  /-- the key or the value of an element -/
  | item
  /-- the token between the two -/
  | arrow
  /-- a free place in an array -/
  | hole
  /-- an index, a member or a call behind an operand -/
  | part
  /-- the operand before it is assigned to -/
  | assigned
  | property
  | propertyName
deriving DecidableEq, Repr

/-- the rules that patterns refer to by name -/
inductive Rule where
  | statement
  | block
  /-- the rest of an `if` with colons, behind one of them -/
  | ifTail
  /-- `plain` operands have no index in braces: where braces may follow that are none -/
  | expr (plain : Bool)
  | unit (plain : Bool)
  | type
  | simpleVariable
  | arguments
  | parameters
  | attributes
  | classBody
deriving DecidableEq, Repr

abbrev Rules := Pattern Rule Mark

open Pattern

/-! ## Words with a meaning -/

/-- words that start an expression as keywords, and so are no names there -/
def expressionWords : List String :=
  ["static", "function", "fn", "new", "clone", "print", "include", "include_once", "require", "require_once",
   "list", "array", "match", "yield", "throw", "namespace"]

/-- words that start a statement as keywords and cannot start an expression there -/
def statementWords : List String :=
  ["if", "switch", "while", "do", "for", "foreach", "goto", "continue", "break", "return", "try", "declare",
   "echo", "exit", "unset", "const", "class", "interface", "trait", "enum", "namespace", "use", "global",
   "abstract", "final", "readonly"]

def castWords : List String :=
  ["int", "integer", "bool", "boolean", "float", "double", "real", "string", "binary", "array", "object", "unset"]

def operatorWords : List String :=
  ["clone", "print", "include", "include_once", "require", "require_once", "throw"]

def visibilityWords : List String := ["public", "protected", "private"]

/-! ## Names -/

/-- a semicolon, or a closing tag in its place -/
def semicolon : Rules := branch (symbols [";"]) (sym ";") (closed true)

/-- what is behind a whole name -/
def noSeparator : List TokenTest := [.symbolExcept ["\\"]]

/-- a name in any form, its first word none of `reserved`; those with a separator make a node -/
def reference (reserved : List String) : Rules := .name .qualifiedName ⟨reserved, true, noSeparator⟩

def name : Rules := reference []

/-! ## Types, parameters, attributes -/

def expression : Rules := rule (.expr false)

def typeAtom : Rules := branch (symbols ["("]) (parens (rule .type)) name

def type : Rules :=
  let joiner : TokenTest := .symbolAmong ["|", "&"]
  branch (symbols ["?"]) (seq (sym "?") typeAtom)
    (seq typeAtom (loop (.ahead [[joiner, .nameStart], [joiner, .symbolAmong ["("]]]) (seq (one joiner) typeAtom)))

/-- a type starts here -/
def typeAhead : Guard := .ahead [[.nameStart], [.symbolAmong ["(", "?"]]]

def returnType : Rules := opt (symbols [":"]) (seq (sym ":") (rule .type))

def variable_ : Rules := one (.kind .variable)

def variableAhead : Guard := .ahead [[.kind .variable], [.symbolAmong ["$"]]]

def initialiser (plain : Bool) : Rules := opt (symbols ["="]) (seq (sym "=") (rule (.expr plain)))

def optAttributes : Rules := opt (symbols ["#["]) (rule .attributes)

def optArguments : Rules := opt (symbols ["("]) (rule .arguments)

def visibility : Rules :=
  seq (kwAmong visibilityWords)
    (opt (.ahead [[.symbolAmong ["("], .wordAmong ["set"], .symbolAmong [")"]]]) (parens (kw "set")))

def promotion : Rules :=
  branch (words visibilityWords) (seq visibility (optKw "readonly"))
    (seq (kw "readonly") (opt (words visibilityWords) visibility))

/-- what stands in braces behind a property: how it is read and written -/
def hooks : Rules :=
  bracedMany (all [optAttributes, optKw "final", optSym "&", word, opt (symbols ["("]) (rule .parameters),
    choose [(symbols ["=>"], all [sym "=>", expression, semicolon]), (symbols ["\x7b"], rule .block)] semicolon])

def parameter : Rules :=
  all [optAttributes, opt (words ("readonly" :: visibilityWords)) promotion, opt typeAhead (rule .type), optSym "&",
    optSym "...", variable_, initialiser true, opt (symbols ["\x7b"]) hooks]

def parameters : Rules := listed "(" ")" parameter

def attributes : Rules :=
  let group : Rules := seq (sym "#[") (commasBefore "]" (seq name optArguments))
  seq group (loop (symbols ["#["]) group)

/-! ## Expressions -/

/-- an expression starts here, if anything does that can stand behind its operator -/
def expressionAhead : Guard :=
  .ahead [[.nameStart], [.kind .variable], [.kind .literal], [.kind .number], [.kind .templateOpen],
    [.symbolAmong ["$", "[", "(", "-", "!", "@", "+", "~", "++", "--", "#["]]]

def argument : Rules :=
  branch (symbols ["..."]) (seq (sym "...") expression)
    (all [opt (.ahead [[.kind .word, .symbolAmong [":"]]]) (seq word (sym ":")), optSym "&", expression])

def arguments : Rules :=
  branch (.ahead [[.symbolAmong ["("], .symbolAmong ["..."], .symbolAmong [")"]]]) (parens (sym "..."))
    (listed "(" ")" argument)

def simpleVariable : Rules :=
  branch (.ahead [[.kind .variable]]) variable_
    (seq (sym "$") (branch (symbols ["\x7b"]) (braces expression) (rule .simpleVariable)))

def item : Rules := mark .item (seq (optSym "&") expression)

def element : Rules :=
  mark .element (branch (symbols ["..."]) (seq (sym "...") expression)
    (seq item (opt (symbols ["=>"]) (seq (mark .arrow (sym "=>")) item))))

/-- the places of an array up to its closer; a free place makes a node too, also the one behind a trailing comma -/
def elements (closer : String) : Rules :=
  seq (commas (branch (symbols [",", closer]) (mark .hole done) element)) (sym closer)

def bracketArray : Rules := mark .array (seq (sym "[") (elements "]"))

def wordArray : Rules := mark .array (all [kw "array", sym "(", elements ")"])

def listTarget : Rules := mark .list (all [kw "list", sym "(", elements ")"])

def template : Rules :=
  seq (one (.kind .templateOpen))
    (upTo (.kind .templateClose) (all [one (.kind .spliceOpen), expression, one (.kind .spliceClose)])
      (one (.kind .templateClose)))

def member : Rules :=
  choose [(variableAhead, rule .simpleVariable), (symbols ["\x7b"], braces expression)] word

def index : Rules := seq (sym "[") (branch (symbols ["]"]) (sym "]") (seq expression (sym "]")))

/-- an index, a member or a call behind an operand, not behind a closing tag -/
def part : Rules :=
  seq (closed false) (mark .part (choose [
    (symbols ["["], index),
    (symbols ["\x7b"], braces expression),
    (symbols ["("], rule .arguments)] (seq (symAmong ["->", "?->", "::"]) member)))

def partAhead (plain : Bool) : Guard :=
  .joined [[.symbolAmong (if plain then ["[", "(", "->", "?->", "::"] else ["[", "\x7b", "(", "->", "?->", "::"])]]

def parts (plain : Bool) : Rules := loop (partAhead plain) part

/-- as `part`, but no call: the arguments belong to the `new` in front -/
def newPart : Rules :=
  seq (closed false) (mark .part (choose [
    (symbols ["["], index),
    (symbols ["::"], seq (sym "::") (rule .simpleVariable))] (seq (symAmong ["->", "?->"]) member)))

def newParts : Rules :=
  loop (.joined [[.symbolAmong ["[", "->", "?->"]], [.symbolAmong ["::"], .kind .variable],
    [.symbolAmong ["::"], .symbolAmong ["$"]]]) newPart

/-- the names in `extends` and `implements` -/
def extending : Rules := opt (words ["extends"]) (seq (kw "extends") (commas name))

def implementing : Rules := opt (words ["implements"]) (seq (kw "implements") (commas name))

/-- a class without a name, from its keyword on -/
def anonymousClass : Rules := all [kw "class", optArguments, extending, implementing, rule .classBody]

/-- what `new` makes an object of, with the arguments behind it -/
def newTarget : Rules :=
  seq
    (choose [(words ["static"], kw "static"), (variableAhead, seq (rule .simpleVariable) newParts),
      (symbols ["("], parens expression)] (reference ["class", "static"]))
    (opt (.joined [[.symbolAmong ["("]]]) (rule .arguments))

def newExpr : Rules :=
  seq (kw "new") (choose [
    (symbols ["#["], all [rule .attributes, optKw "readonly", anonymousClass]),
    (.ahead [[.wordAmong ["readonly"], .wordAmong ["class"]]], seq (kw "readonly") anonymousClass),
    (words ["class"], anonymousClass)] newTarget)

def matchArm : Rules :=
  choose [
    (.ahead [[.wordAmong ["default"], .symbolAmong ["=>"]]], all [kw "default", sym "=>", expression]),
    (.ahead [[.wordAmong ["default"], .symbolAmong [","], .symbolAmong ["=>"]]],
      all [kw "default", sym ",", sym "=>", expression])]
    (seq (commasBefore "=>" expression) expression)

def matchExpr : Rules := all [kw "match", parens expression, listed "\x7b" "\x7d" matchArm]

/-- `static` in front of a member -/
def staticOperand : Rules := seq (kw "static") (branch (symbols ["::"]) done refuse)

/-- an operand that cannot be assigned to as it stands -/
def primary : Rules :=
  choose [
    (.ahead [[.kind .literal]], mark .literal (one (.kind .literal))),
    (.ahead [[.kind .number]], one (.kind .number)),
    (.ahead [[.kind .templateOpen]], template),
    (symbols ["("], parens expression),
    (words ["new"], newExpr),
    (words ["match"], matchExpr),
    (words ["static"], staticOperand)] (reference expressionWords)

def assignmentSymbols : List String :=
  ["+=", "-=", "*=", "/=", ".=", "%=", "**=", "??=", "&=", "|=", "^=", "<<=", ">>="]

/-- an assignment to the operand before, or a step of it -/
def assignment (plain : Bool) : Rules :=
  opt (.joined [[.symbolAmong ("=" :: "++" :: "--" :: assignmentSymbols)]])
    (choose [
      (symbols ["="], all [sym "=", mark .assigned done, optSym "&", rule (.expr plain)]),
      (symbols ["++", "--"], symAmong ["++", "--"])] (seq (symAmong assignmentSymbols) (rule (.expr plain))))

/-- an assignable operand with its parts -/
def assignable (plain : Bool) (operand : Rules) : Rules := all [operand, parts plain, assignment plain]

/-- what is behind the keyword of a function without a name -/
def functionTail : Rules :=
  all [rule .parameters,
    opt (words ["use"]) (seq (kw "use") (listed "(" ")" (seq (optSym "&") variable_))), returnType, rule .block]

def functionClosure : Rules := all [kw "function", optSym "&", functionTail]

def arrowClosure (plain : Bool) : Rules :=
  all [kw "fn", optSym "&", rule .parameters, returnType, sym "=>", rule (.expr plain)]

/-- a closure behind its attributes -/
def closure (plain : Bool) : Rules :=
  seq (optKw "static") (branch (words ["function"]) functionClosure (arrowClosure plain))

def yieldExpr (plain : Bool) : Rules :=
  seq (kw "yield") (branch (words ["from"]) (seq (kw "from") (rule (.expr plain)))
    (opt expressionAhead (seq (rule (.expr plain)) (opt (symbols ["=>"]) (seq (sym "=>") (rule (.expr plain)))))))

/-- an operand with the operators in front of it and the parts behind it -/
def unit (plain : Bool) : Rules :=
  choose [
    (variableAhead, assignable plain (rule .simpleVariable)),
    (symbols ["["], assignable plain bracketArray),
    (words ["array"], assignable plain wordArray),
    (words ["list"], assignable plain listTarget),
    (symbols ["-", "!", "@", "+", "~"], seq (symAmong ["-", "!", "@", "+", "~"]) (rule (.unit plain))),
    (symbols ["++", "--"], seq (symAmong ["++", "--"])
      (branch variableAhead (seq (rule .simpleVariable) (parts plain)) (all [primary, part, parts plain]))),
    (words operatorWords, seq (kwAmong operatorWords) (rule (.unit plain))),
    (.ahead [[.symbolAmong ["("], .wordAmong castWords, .symbolAmong [")"]]],
      all [sym "(", kwAmong castWords, sym ")", rule (.unit plain)]),
    (symbols ["#["], seq (rule .attributes) (closure plain)),
    (words ["function"], functionClosure),
    (words ["fn"], arrowClosure plain),
    (.ahead [[.wordAmong ["static"], .wordAmong ["function"]]], seq (kw "static") functionClosure),
    (.ahead [[.wordAmong ["static"], .wordAmong ["fn"]]], seq (kw "static") (arrowClosure plain)),
    (words ["yield"], yieldExpr plain)]
    (seq primary (opt (partAhead plain) (all [part, parts plain, assignment plain])))

def binarySymbols : List String :=
  [".", "+", "-", "*", "/", "%", "**", "<<", ">>", "<", "<=", ">", ">=", "==", "!=", "===", "!==", "<>", "<=>",
   "&", "|", "^", "&&", "||", "??"]

/-- what is behind `instanceof static`, if that is the front of an operand -/
def staticTail (plain : Bool) : Rules :=
  choose [(words ["function"], functionClosure), (words ["fn"], arrowClosure plain)]
    (opt (.joined [[.symbolAmong ["::"]]]) (all [part, parts plain, assignment plain]))

/-- an operator and the operand behind it -/
def continuation (plain : Bool) : Rules :=
  choose [
    (symbols binarySymbols, seq (symAmong binarySymbols) (rule (.unit plain))),
    (symbols ["?"], all [sym "?", branch (symbols [":"]) done expression, sym ":", rule (.unit plain)]),
    (words ["instanceof"], seq (kw "instanceof")
      (branch (words ["static"]) (seq (kw "static") (staticTail plain)) (rule (.unit plain))))]
    (seq (kwAmong ["and", "or", "xor"]) (rule (.unit plain)))

def continuations (plain : Bool) : Rules :=
  loop (.joined [[.symbolAmong ("?" :: binarySymbols)], [.wordAmong ["instanceof", "and", "or", "xor"]]])
    (continuation plain)

def expr (plain : Bool) : Rules := seq (rule (.unit plain)) (continuations plain)

/-! ## Classes -/

def otherModifiers : List String := ["static", "final", "abstract", "readonly", "var"]

def modifier : Rules := branch (words visibilityWords) visibility (kwAmong otherModifiers)

def modifierAhead : Guard := words (visibilityWords ++ otherModifiers)

def constants : Rules :=
  let entries : Rules := commas (all [word, sym "=", expression])
  all [kw "const", branch (.ahead [[.kind .word, .symbolAmong ["="]]]) entries (seq (rule .type) entries), semicolon]

def functionHead : Rules := all [kw "function", optSym "&", word, rule .parameters, returnType]

def method : Rules := seq functionHead (branch (symbols ["\x7b"]) (rule .block) semicolon)

/-- a property behind its modifiers -/
def property : Rules :=
  all [opt typeAhead (rule .type),
    commas (mark .property (seq (mark .propertyName variable_) (initialiser true))),
    branch (symbols ["\x7b"]) hooks semicolon]

/-- what a trait's method is called here, behind `as` -/
def adaptedName : Rules := branch (words visibilityWords) (seq visibility (branch .ending done word)) word

def adaptation : Rules :=
  seq
    (choose [
      (.ahead [[.kind .word, .wordAmong ["insteadof"]]], all [word, kw "insteadof", word]),
      (.ahead [[.kind .word, .wordAmong ["as"]]], all [word, kw "as", adaptedName])]
      (all [name, sym "::", word,
        branch (words ["insteadof"]) (seq (kw "insteadof") word) (seq (kw "as") adaptedName)]))
    semicolon

def traitUse : Rules :=
  all [kw "use", commas name, branch (symbols ["\x7b"]) (bracedMany adaptation) semicolon]

def constantOrMethod : List (Guard × Rules) := [(words ["const"], constants), (words ["function"], method)]

def classBody : Rules :=
  bracedMany (seq optAttributes (choose [
    (words ["use"], traitUse),
    (modifierAhead, all [modifier, loop modifierAhead modifier, choose constantOrMethod property])]
    (choose constantOrMethod refuse)))

def enumCase : Rules := all [kw "case", word, initialiser false, semicolon]

def enumBody : Rules :=
  bracedMany (seq optAttributes (choose [(words ["case"], enumCase), (words ["use"], traitUse)]
    (seq (loop modifierAhead modifier) method)))

def classModifiers : List String := ["abstract", "final", "readonly"]

def classDeclaration : Rules := all [kw "class", word, extending, implementing, rule .classBody]

/-- declarations of types, each known by its first word -/
def typeDeclarations : List (Guard × Rules) :=
  [(words classModifiers,
      all [kwAmong classModifiers, loop (words classModifiers) (kwAmong classModifiers), classDeclaration]),
   (words ["class"], classDeclaration),
   (words ["interface"], all [kw "interface", word, extending, rule .classBody]),
   (words ["trait"], all [kw "trait", word, rule .classBody]),
   (words ["enum"], all [kw "enum", word, returnType, implementing, enumBody])]

/-- what is behind an operand at the start of a statement -/
def expressionTail : Rules := seq (continuations false) semicolon

/-- a function with a name, or a statement that starts with a function without one -/
def functionStatement : Rules :=
  all [kw "function", optSym "&", branch (symbols ["("]) (seq functionTail expressionTail)
    (all [word, rule .parameters, returnType, rule .block])]

/-- what attributes can stand in front of -/
def attributedStatement : Rules :=
  seq (rule .attributes) (choose ((words ["function"], functionStatement) :: typeDeclarations)
    (seq (closure false) expressionTail))

/-! ## Imports and namespaces -/

def importKinds : List String := ["function", "const"]

def importKind : Rules := opt (words importKinds) (kwAmong importKinds)

def importClause : Rules :=
  mark .importClause (seq (.name .importName ⟨[], false, noSeparator⟩)
    (opt (words ["as"]) (seq (kw "as") (mark .importAlias word))))

def importStatement : Rules :=
  mark .import_ (all [kw "use", importKind,
    branch .group
      (all [.name .importFront ⟨[], false, [.symbolAmong ["\\"], .symbolAmong ["\x7b"]]⟩, sym "\\",
        mark .importGroup (braces (commas (seq importKind importClause)))])
      (commas importClause),
    semicolon])

/-- a declaration: a statement is one whenever it starts with the word, also with a separator behind that, so that
`namespace\A\B;` declares `\A\B` and `namespace\f();` is refused -/
def namespaceStatement : Rules :=
  let declared : Rules := .name .namespaceName ⟨[], false, [.symbolAmong [";", "\x7b"]]⟩
  let body : Rules := mark .body (rule .block)
  mark .namespaceDecl (seq (kw "namespace")
    (branch (symbols ["\x7b"]) body (seq declared (branch (symbols [";"]) (sym ";") body))))

/-! ## Statements -/

def condition : Rules := parens expression

/-- statements up to the closing word, and the end of the statement behind it -/
def statementsTo (word : String) : Rules :=
  upTo (.wordAmong [word]) (rule .statement) (seq (kw word) semicolon)

/-- a statement, or statements between a colon and the closing word -/
def bodyUntil (word : String) : Rules :=
  branch (symbols [":"]) (seq (sym ":") (statementsTo word)) (rule .statement)

def ifTail : Rules :=
  upTo (.wordAmong ["elseif", "else", "endif"]) (rule .statement)
    (choose [
      (words ["elseif"], all [kw "elseif", condition, sym ":", rule .ifTail]),
      (words ["else"], all [kw "else", sym ":", statementsTo "endif"])]
      (seq (kw "endif") semicolon))

def ifStatement : Rules :=
  all [kw "if", condition,
    branch (symbols [":"]) (seq (sym ":") (rule .ifTail))
      (all [rule .statement, loop (.bracketed "elseif") (all [kw "elseif", condition, rule .statement]),
        opt (.ahead [[.wordAmong ["else"], .symbolExcept [":"]]]) (seq (kw "else") (rule .statement))])]

def switchStatement : Rules :=
  let label : Rules :=
    seq (branch (words ["case"]) (seq (kw "case") expression) (kw "default"))
      (branch (symbols [":"]) (sym ":") semicolon)
  let entry : Rules :=
    choose [(words ["case", "default"], label), (words ["endswitch"], refuse)] (rule .statement)
  all [kw "switch", condition,
    branch (symbols ["\x7b"])
      (seq (sym "\x7b") (branch (symbols ["\x7d"]) (sym "\x7d")
        (seq label (upTo (.symbolAmong ["\x7d"]) entry (sym "\x7d")))))
      (seq (sym ":") (branch (words ["endswitch"]) (seq (kw "endswitch") semicolon)
        (seq label (upTo (.wordAmong ["endswitch"]) entry (seq (kw "endswitch") semicolon)))))]

def forStatement : Rules :=
  let part (closer : String) : Rules :=
    branch (symbols [closer]) (sym closer) (seq (commas expression) (sym closer))
  all [kw "for", sym "(", part ";", part ";", part ")", bodyUntil "endfor"]

def foreachStatement : Rules :=
  let target : Rules := all [optSym "&", expression, mark .assigned done]
  all [kw "foreach", parens (all [expression, kw "as", target, opt (symbols ["=>"]) (seq (sym "=>") target)]),
    bodyUntil "endforeach"]

def tryStatement : Rules :=
  let handler : Rules :=
    branch (words ["catch"])
      (all [kw "catch", parens (seq (separatedBy "|" name) (opt (.ahead [[.kind .variable]]) variable_)), rule .block])
      (seq (kw "finally") (rule .block))
  all [kw "try", rule .block, handler,
    loop (.ahead [[.wordAmong ["catch"], .symbolAmong ["("]], [.wordAmong ["finally"], .symbolAmong ["\x7b"]]]) handler]

def declareStatement : Rules :=
  let directive : Rules :=
    all [kwAmong ["ticks", "encoding", "strict_types"], sym "=",
      branch (.ahead [[.kind .number]]) (one (.kind .number)) (mark .literal (one (.kind .literal)))]
  all [kw "declare", parens (commas directive), branch .ending semicolon (bodyUntil "enddeclare")]

def exitStatement : Rules :=
  all [kw "exit",
    opt (symbols ["("]) (seq (sym "(") (branch (symbols [")"]) (sym ")") (seq expression (sym ")")))), semicolon]

def jumpWords : List String := ["continue", "break"]

/-- the statements that are known by their first token or two -/
def markedStatements : List (Guard × Rules) :=
  [(symbols [";"], sym ";"),
   (symbols ["\x7b"], rule .block),
   (.ahead [[.wordExcept (expressionWords ++ statementWords), .symbolAmong [":"]]],
     seq (one (.wordExcept (expressionWords ++ statementWords))) (sym ":")),
   (words ["if"], ifStatement),
   (words ["switch"], switchStatement),
   (words ["while"], all [kw "while", condition, bodyUntil "endwhile"]),
   (words ["do"], all [kw "do", rule .statement, kw "while", condition, semicolon]),
   (words ["for"], forStatement),
   (words ["foreach"], foreachStatement),
   (words ["goto"], all [kw "goto", word, semicolon]),
   (words jumpWords, all [kwAmong jumpWords, opt expressionAhead expression, semicolon]),
   (words ["return"], mark .returning (all [kw "return", opt expressionAhead expression, semicolon])),
   (words ["try"], tryStatement),
   (words ["declare"], declareStatement),
   (words ["echo"], all [kw "echo", commas expression, semicolon]),
   (words ["exit"], exitStatement),
   (words ["unset"], all [kw "unset", sym "(", commasBefore ")" expression, semicolon]),
   (words ["const"], constants),
   (symbols ["#["], attributedStatement),
   (words ["function"], functionStatement),
   (words ["global"], all [kw "global", commas (rule .simpleVariable), semicolon]),
   (.ahead [[.wordAmong ["static"], .kind .variable]],
     all [kw "static", commas (seq variable_ (initialiser false)), semicolon])]

/-- the statements that are neither imports nor namespace declarations -/
def plainStatement : Rules := choose (markedStatements ++ typeDeclarations) (seq expression semicolon)

def statement : Rules :=
  choose [(words ["use"], importStatement), (words ["namespace"], namespaceStatement)] (mark .statement plainStatement)

def rules : Rule → Rules
  | .statement => statement
  | .block => bracedMany (rule .statement)
  | .ifTail => ifTail
  | .expr plain => expr plain
  | .unit plain => unit plain
  | .type => type
  | .simpleVariable => simpleVariable
  | .arguments => arguments
  | .parameters => parameters
  | .attributes => attributes
  | .classBody => classBody

def program : Rules := upTo (.kind .endOfFile) (rule .statement) (one (.kind .endOfFile))

end Isolation.Php
