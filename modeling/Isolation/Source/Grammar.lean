/-
Grammars as data. A pattern says which tokens it takes and which of them make a node; `Pattern.run` reads a list
of tokens by a pattern. A choice is made by a guard, which looks at the tokens ahead and takes none of them, and is
never taken back. Patterns name each other through rules, so `run` carries a bound on its depth.

Whatever the grammar, the trees that `run` gives cover the tokens it took, in their order: a fact about the
patterns below and not about any one language.
-/
import Isolation.Source.Token

namespace Isolation

/-- a test on one token -/
inductive TokenTest where
  | kind (k : TokenKind)
  | symbolAmong (texts : List String)
  /-- a token that is none of these symbols -/
  | symbolExcept (texts : List String)
  | wordAmong (texts : List String)
  /-- a word that is none of these -/
  | wordExcept (reserved : List String)
  /-- what a name can start with: a word or a separator -/
  | nameStart
deriving DecidableEq, Repr

namespace Token

def isSymbol (text : String) (t : Token) : Bool := t.kind == .symbol && t.text == text

def isSeparator (t : Token) : Bool := t.isSymbol "\\"

def isWord (t : Token) : Bool := t.kind == .word

end Token

def TokenTest.holds : TokenTest → Token → Bool
  | kind k, t => t.kind == k
  | symbolAmong texts, t => t.kind == .symbol && texts.contains t.text
  | symbolExcept texts, t => !(t.kind == .symbol && texts.contains t.text)
  | wordAmong texts, t => t.kind == .word && texts.contains t.text
  | wordExcept reserved, t => t.kind == .word && !reserved.contains t.text
  | nameStart, t => t.isWord || t.isSeparator

/-! ## Guards -/

/-- the first tokens pass the tests, one by one -/
def passes : List TokenTest → List Token → Bool
  | [], _ => true
  | _ :: _, [] => false
  | test :: tests, t :: rest => test.holds t && passes tests rest

/-- a question about the tokens ahead -/
inductive Guard where
  /-- the tokens ahead pass one of the rows of tests -/
  | ahead (rows : List (List TokenTest))
  /-- as `ahead`, and no closing tag stands before them -/
  | joined (rows : List (List TokenTest))
  /-- a semicolon, or a closing tag in its place -/
  | ending
  /-- a name with one more separator behind it -/
  | group
  /-- the word, then a pair of round brackets, and no colon behind it -/
  | bracketed (word : String)
deriving DecidableEq, Repr

/-- the tokens behind a row of segments, each with its separator in front -/
def dropSegments : List Token → List Token
  | s :: w :: rest => if s.isSeparator && w.isWord then dropSegments rest else s :: w :: rest
  | rest => rest

/-- the tokens behind the bracket that closes the `depth` open ones -/
def dropBrackets : (depth : Nat) → List Token → List Token
  | _, [] => []
  | depth, t :: rest =>
    if t.isSymbol "(" then dropBrackets (depth + 1) rest
    else if t.isSymbol ")" then if depth ≤ 1 then rest else dropBrackets (depth - 1) rest
    else dropBrackets depth rest

namespace Guard

def holdsGroup : List Token → Bool
  | [] => false
  | t :: rest =>
    let named := if t.isSeparator then rest else t :: rest
    match named with
    | [] => false
    | w :: behind => w.isWord && passes [.symbolAmong ["\\"]] (dropSegments behind)

def holdsBracketed (word : String) : List Token → Bool
  | t :: open_ :: rest =>
    t.isWord && t.text == word && open_.isSymbol "(" && passes [.symbolExcept [":"]] (dropBrackets 1 rest)
  | _ => false

def holds : Guard → List Token → Bool
  | ahead rows, tokens => rows.any fun row => passes row tokens
  | joined rows, tokens => (tokens.head?.any fun t => !t.afterClose) && rows.any fun row => passes row tokens
  | ending, tokens => tokens.head?.any fun t => t.afterClose || t.isSymbol ";"
  | group, tokens => holdsGroup tokens
  | bracketed word, tokens => holdsBracketed word tokens

end Guard

/-! ## Names -/

/-- how a name may be written, and what may stand behind it -/
structure NameForm where
  /-- words that start no name, unless it is written with a leading separator or `namespace\` -/
  reserved : List String
  /-- a single word is taken too, but makes no node -/
  alone : Bool
  /-- what the tokens behind the name pass -/
  behind : List TokenTest
deriving DecidableEq, Repr

/-- a name read from tokens: whether a separator is in it, where it ends, and the tokens behind it -/
structure NameRead where
  separated : Bool
  stop : Nat
  rest : List Token

/-- reads on, behind a segment that ends at `stop` -/
def moreSegments (separated : Bool) (stop : Nat) : List Token → NameRead
  | s :: w :: rest =>
    if s.isSeparator && w.isWord then moreSegments true w.span.stop rest else ⟨separated, stop, s :: w :: rest⟩
  | rest => ⟨separated, stop, rest⟩

/-- reads a name, as many segments as there are -/
def NameForm.read? (form : NameForm) : List Token → Option NameRead
  | [] => none
  | t :: rest =>
    if t.isSeparator then
      match rest with
      | [] => none
      | w :: rest => if w.isWord then some (moreSegments true w.span.stop rest) else none
    else if t.isWord then
      let read := moreSegments false t.span.stop rest
      if form.reserved.contains t.text && !(t.text == "namespace" && read.separated) then none else some read
    else none

/-! ## Patterns -/

/-- a tree over the tokens of a file: a kind, the span of its tokens, and the nodes inside, in order -/
inductive ParseTree (κ : Type) where
  | node (kind : κ) (span : Span) (children : List (ParseTree κ))

namespace ParseTree

variable {κ : Type}

def kind : ParseTree κ → κ
  | node k _ _ => k

def span : ParseTree κ → Span
  | node _ s _ => s

def children : ParseTree κ → List (ParseTree κ)
  | node _ _ cs => cs

end ParseTree

/-- what tokens to take; `ρ` names rules, `κ` the kinds of nodes -/
inductive Pattern (ρ κ : Type) where
  /-- takes nothing -/
  | done
  /-- takes one token that passes the test -/
  | one (test : TokenTest)
  /-- takes nothing; the next token comes behind a closing tag, or does not -/
  | closed (expected : Bool)
  | rule (r : ρ)
  | seq (first second : Pattern ρ κ)
  /-- the first pattern where the guard holds, and else the second -/
  | branch (guard : Guard) (yes no : Pattern ρ κ)
  /-- as long as the guard holds -/
  | loop (guard : Guard) (body : Pattern ρ κ)
  /-- `body` up to a token that passes the test; `last` reads on from there -/
  | upTo (stop : TokenTest) (body last : Pattern ρ κ)
  /-- a name, which makes a node -/
  | name (kind : κ) (form : NameForm)
  /-- makes a node of what the pattern takes -/
  | mark (kind : κ) (body : Pattern ρ κ)

namespace Pattern

variable {ρ κ : Type}

/-- what a pattern made of some tokens: the nodes, the tokens left, and where the last token taken ends, if it
took any -/
structure Result (κ : Type) where
  trees : List (ParseTree κ)
  rest : List Token
  stop? : Option Nat

/-- the offset of the first token -/
def startOf : List Token → Nat
  | [] => 0
  | t :: _ => t.span.start

/-- a result, and one for what follows it -/
def Result.followedBy (a b : Result κ) : Result κ := ⟨a.trees ++ b.trees, b.rest, b.stop?.or a.stop?⟩

/-- the result of reading a name -/
def runName (kind : κ) (form : NameForm) (tokens : List Token) : Option (Result κ) :=
  match form.read? tokens with
  | none => none
  | some read =>
    if passes form.behind read.rest then
      some ⟨if form.alone && !read.separated then [] else [.node kind ⟨startOf tokens, read.stop⟩ []], read.rest,
        some read.stop⟩
    else none

/-- reads tokens by a pattern; `none` if it does not fit, or if `depth` steps into patterns do not suffice -/
def run (rules : ρ → Pattern ρ κ) : (depth : Nat) → Pattern ρ κ → List Token → Option (Result κ)
  | 0, _, _ => none
  | _ + 1, done, tokens => some ⟨[], tokens, none⟩
  | _ + 1, one test, tokens =>
    match tokens with
    | [] => none
    | t :: rest => if test.holds t then some ⟨[], rest, some t.span.stop⟩ else none
  | _ + 1, closed expected, tokens =>
    match tokens with
    | [] => none
    | t :: _ => if t.afterClose == expected then some ⟨[], tokens, none⟩ else none
  | depth + 1, rule r, tokens => run rules depth (rules r) tokens
  | depth + 1, seq first second, tokens =>
    match run rules depth first tokens with
    | none => none
    | some a => (run rules depth second a.rest).map a.followedBy
  | depth + 1, branch guard yes no, tokens =>
    if guard.holds tokens then run rules depth yes tokens else run rules depth no tokens
  | depth + 1, loop guard body, tokens =>
    if guard.holds tokens then
      match run rules depth body tokens with
      | none => none
      | some a => (run rules depth (loop guard body) a.rest).map a.followedBy
    else some ⟨[], tokens, none⟩
  | depth + 1, upTo stop body last, tokens =>
    if passes [stop] tokens then run rules depth last tokens
    else
      match run rules depth body tokens with
      | none => none
      | some a => (run rules depth (upTo stop body last) a.rest).map a.followedBy
  | _ + 1, name kind form, tokens => runName kind form tokens
  | depth + 1, mark kind body, tokens =>
    (run rules depth body tokens).map fun a =>
      ⟨[.node kind ⟨startOf tokens, a.stop?.getD (startOf tokens)⟩ a.trees], a.rest, a.stop?⟩

/-! ## Common shapes -/

/-- all of them, one after the other -/
def all : List (Pattern ρ κ) → Pattern ρ κ
  | [] => done
  | [p] => p
  | p :: ps => seq p (all ps)

/-- the pattern of the first guard that holds, or the last pattern -/
def choose : List (Guard × Pattern ρ κ) → Pattern ρ κ → Pattern ρ κ
  | [], last => last
  | (guard, p) :: rest, last => branch guard p (choose rest last)

/-- once where the guard holds, or nothing -/
def opt (guard : Guard) (p : Pattern ρ κ) : Pattern ρ κ := branch guard p done

/-- the next token is one of these symbols -/
def symbols (texts : List String) : Guard := .ahead [[.symbolAmong texts]]

/-- the next token is one of these words -/
def words (texts : List String) : Guard := .ahead [[.wordAmong texts]]

def sym (text : String) : Pattern ρ κ := one (.symbolAmong [text])

def symAmong (texts : List String) : Pattern ρ κ := one (.symbolAmong texts)

def kw (text : String) : Pattern ρ κ := one (.wordAmong [text])

def kwAmong (texts : List String) : Pattern ρ κ := one (.wordAmong texts)

/-- any word, keywords included -/
def word : Pattern ρ κ := one (.kind .word)

/-- fits nowhere -/
def refuse : Pattern ρ κ := one (.symbolAmong [])

def optSym (text : String) : Pattern ρ κ := opt (symbols [text]) (sym text)

def optKw (text : String) : Pattern ρ κ := opt (words [text]) (kw text)

/-- at least one, with the symbol between neighbours -/
def separatedBy (text : String) (p : Pattern ρ κ) : Pattern ρ κ := seq p (loop (symbols [text]) (seq (sym text) p))

/-- with a comma between neighbours, and none behind the last -/
def commas (p : Pattern ρ κ) : Pattern ρ κ := separatedBy "," p

/-- with a comma between neighbours, and perhaps one behind the last, before `closer` -/
def commasBefore (closer : String) (p : Pattern ρ κ) : Pattern ρ κ :=
  all [p, loop (.ahead [[.symbolAmong [","], .symbolExcept [closer]]]) (seq (sym ",") p), optSym ",", sym closer]

/-- nothing or `commasBefore`, between an opening symbol and its closer -/
def listed (opener closer : String) (p : Pattern ρ κ) : Pattern ρ κ :=
  seq (sym opener) (branch (symbols [closer]) (sym closer) (commasBefore closer p))

/-- between round brackets -/
def parens (p : Pattern ρ κ) : Pattern ρ κ := all [sym "(", p, sym ")"]

/-- between braces -/
def braces (p : Pattern ρ κ) : Pattern ρ κ := all [sym "\x7b", p, sym "\x7d"]

/-- any number of them between braces -/
def bracedMany (p : Pattern ρ κ) : Pattern ρ κ :=
  seq (sym "\x7b") (upTo (.symbolAmong ["\x7d"]) p (sym "\x7d"))

end Pattern

end Isolation
