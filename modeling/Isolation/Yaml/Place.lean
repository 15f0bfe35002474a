/-
Places in a YAML text: what is left of it, and the line and column reached. Characters are told apart as blanks,
line breaks and the rest.
-/

namespace Isolation.Yaml

/-- a nested value; a scalar remembers whether it was written without quotes -/
inductive Node where
  | scalar (text : String) (plain : Bool)
  | sequence (items : List Node)
  | mapping (entries : List (Node × Node))

/-- a place in a text -/
structure Place where
  rest : List Char
  index : Nat := 0
  line : Nat := 0
  column : Nat := 0

def isBlank (c : Char) : Bool := c = ' ' || c = '\t'

def isBreak (c : Char) : Bool :=
  c = '\n' || c = '\r' || c.toNat = 0x85 || c.toNat = 0x2028 || c.toNat = 0x2029

/-- characters a text may hold -/
def isAllowed (c : Char) : Bool :=
  let n := c.toNat
  n = 0x09 || n = 0x0a || n = 0x0d || (0x20 ≤ n && n ≤ 0x7e) || n = 0x85 || (0xa0 ≤ n && n ≤ 0xfffd) || 0x10000 ≤ n

namespace Place

def char? (p : Place) : Option Char := p.rest.head?

/-- the character `n` places on -/
def charAt? (p : Place) (n : Nat) : Option Char := (p.rest.drop n).head?

def looksAt (p : Place) (c : Char) : Bool := p.char? == some c

def atEnd (p : Place) : Bool := p.rest.isEmpty

def blankAt (p : Place) (n : Nat) : Bool := (p.charAt? n).any isBlank

def breakAt (p : Place) (n : Nat) : Bool := (p.charAt? n).any isBreak

/-- a blank, a line break or the end -/
def gapAt (p : Place) (n : Nat) : Bool :=
  match p.charAt? n with
  | none => true
  | some c => isBlank c || isBreak c

/-- past one character that is no line break -/
def skip (p : Place) : Place := ⟨p.rest.drop 1, p.index + 1, p.line, p.column + 1⟩

def skipMany : Nat → Place → Place
  | 0, p => p
  | n + 1, p => skipMany n p.skip

/-- past a line break -/
def skipBreak (p : Place) : Place :=
  match p.rest with
  | '\r' :: '\n' :: rest => ⟨rest, p.index + 2, p.line + 1, 0⟩
  | _ :: rest => ⟨rest, p.index + 1, p.line + 1, 0⟩
  | [] => p

/-- what a line break stands for: the separators of lines and paragraphs for themselves, all others for a line feed -/
def breakChar (p : Place) : List Char :=
  match p.rest with
  | c :: _ => if c.toNat = 0x2028 || c.toNat = 0x2029 then [c] else ['\n']
  | [] => []

/-- at a line that starts or ends a document -/
def atDocumentMark (p : Place) : Bool :=
  p.column == 0 && (['-', '-', '-'].isPrefixOf p.rest || ['.', '.', '.'].isPrefixOf p.rest) && p.gapAt 3

/-- past the characters that pass a test; line breaks must not pass it -/
def skipWhile (test : Char → Bool) (p : Place) : Place := skipMany (p.rest.takeWhile test).length p

/-- the characters that pass a test, and the place behind them -/
def takeWhile (test : Char → Bool) (p : Place) : List Char × Place := (p.rest.takeWhile test, p.skipWhile test)

end Place

end Isolation.Yaml
