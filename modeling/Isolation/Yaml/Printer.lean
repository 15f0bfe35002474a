/-
Writing of YAML values in block style, two blanks for each level, sequences inside mappings without indentation of
their own. A text is written plain if it reads back as that text, in single quotes if it would read as something
else, as a block if it has several lines, and in double quotes if it holds characters that need an escape.
-/
import Isolation.Text.Blank
import Isolation.Text.Utf8
import Isolation.Yaml.Place

namespace Isolation.Yaml

/-! ## Texts that read as something else -/

def isDigit (c : Char) : Bool := '0' ≤ c && c ≤ '9'

def withoutSign (cs : List Char) : List Char :=
  match cs with
  | '-' :: rest => rest
  | '+' :: rest => rest
  | _ => cs

/-- several digits with a zero in front -/
def isZeroPadded (cs : List Char) : Bool :=
  match withoutSign cs with
  | '0' :: c :: rest => (c :: rest).all isDigit
  | _ => false

def isDigitOf (base : Nat) (c : Char) : Bool :=
  let v := if isDigit c then c.toNat - 48
    else if 'a' ≤ c && c ≤ 'z' then c.toNat - 87
    else if 'A' ≤ c && c ≤ 'Z' then c.toNat - 55
    else 99
  v < base

def valueOf (base : Nat) (cs : List Char) : Nat :=
  cs.foldl (fun n c =>
    n * base + (if isDigit c then c.toNat - 48 else if 'a' ≤ c then c.toNat - 87 else c.toNat - 55)) 0

/-- digits of a base whose value is below a limit -/
def isNumeral (base limit : Nat) (cs : List Char) : Bool :=
  !cs.isEmpty && cs.all (isDigitOf base) && valueOf base cs < limit

/-- a whole number of at most 128 bits, in base 10, or in base 16, 8 or 2 with its mark -/
def isWhole (cs : List Char) : Bool :=
  let positive := match cs with
    | '+' :: rest => rest
    | _ => cs
  let magnitude (limit : Nat) : List Char → Bool
    | '0' :: 'x' :: rest => isNumeral 16 limit rest
    | '0' :: 'o' :: rest => isNumeral 8 limit rest
    | '0' :: 'b' :: rest => isNumeral 2 limit rest
    | rest => isNumeral 10 limit rest && !isZeroPadded rest
  match cs with
  | '-' :: rest => magnitude (Nat.pow 2 127 + 1) rest
  | _ => magnitude (Nat.pow 2 128) positive

/-- digits with or without a point and an exponent -/
def isPointed (cs : List Char) : Bool :=
  let front := cs.takeWhile isDigit
  let rest := cs.dropWhile isDigit
  let behind := match rest with
    | '.' :: r => r.takeWhile isDigit
    | _ => []
  let rest := match rest with
    | '.' :: r => r.dropWhile isDigit
    | _ => rest
  let tail := match rest with
    | [] => true
    | c :: r => (c = 'e' || c = 'E') && !(withoutSign r).isEmpty && (withoutSign r).all isDigit
  !(front.isEmpty && behind.isEmpty) && tail

/-- a number with a point or exponent, or the name of one that is not finite -/
def isFraction (cs : List Char) : Bool :=
  let positive := match cs with
    | '+' :: '+' :: _ => []
    | '+' :: '-' :: _ => []
    | '+' :: rest => rest
    | _ => cs
  [".inf", ".Inf", ".INF"].contains (String.ofList positive) ||
    ["-.inf", "-.Inf", "-.INF", ".nan", ".NaN", ".NAN"].contains (String.ofList cs) ||
    isPointed (match positive with
      | '-' :: rest => rest
      | _ => positive)

/-- the text, written plain, would read as null, a truth value or a number -/
def readsOtherwise (s : String) : Bool :=
  ["", "~", "null", "Null", "NULL", "true", "True", "TRUE", "false", "False", "FALSE"].contains s ||
    isWhole s.toList || isZeroPadded s.toList || isFraction s.toList

/-! ## What a text allows -/

/-- characters that are written as they are -/
def isPrintable (c : Char) : Bool :=
  let n := c.toNat
  n = 0x0a || (0x20 ≤ n && n ≤ 0x7e) || (0xa0 ≤ n && n ≤ 0xd7ff) ||
    (0xe000 ≤ n && n ≤ 0xfffd && n ≠ 0xfeff) || 0x10000 ≤ n

/-- a character and the ones around it -/
structure Neighbours where
  before : Option Char
  here : Char
  after : Option Char

def neighbours (before : Option Char) : List Char → List Neighbours
  | [] => []
  | c :: rest => ⟨before, c, rest.head?⟩ :: neighbours (some c) rest

def isGap (c : Option Char) : Bool :=
  match c with
  | none => true
  | some c => isBlank c || isBreak c

/-- characters that mean something at the start of a plain scalar -/
def startMarks : List Char := "#,[]\x7b\x7d&*!|>'\"%@`".toList

/-- a mark that would end or change a plain scalar outside flow context -/
def isMark (n : Neighbours) : Bool :=
  match n.before with
  | none => startMarks.contains n.here || ((n.here = '?' || n.here = ':' || n.here = '-') && isGap n.after)
  | some b => (n.here = ':' && isGap n.after) || (n.here = '#' && (isBlank b || isBreak b))

/-- a character that needs an escape; tabs do not in blocks -/
def isSpecial (c : Char) : Bool := c ≠ '\t' && !isPrintable c

def hasBlankBeforeBreak (ns : List Neighbours) : Bool := ns.any fun n => n.here = ' ' && n.after.any isBreak

def hasBlankAfterBreak (ns : List Neighbours) : Bool := ns.any fun n => n.here = ' ' && n.before.any isBreak

/-- the text can be written in single quotes -/
def allowsSingle (cs : List Char) : Bool :=
  let ns := neighbours none cs
  !hasBlankAfterBreak ns && !hasBlankBeforeBreak ns && !cs.any isSpecial && !cs.contains '\t'

/-- the text can be written as a block -/
def allowsBlock (cs : List Char) : Bool :=
  !cs.isEmpty && cs.getLast? != some ' ' && !hasBlankBeforeBreak (neighbours none cs) && !cs.any isSpecial

/-- the text can be written plain -/
def allowsPlain (cs : List Char) : Bool :=
  let edge (c : Option Char) : Bool := c.any fun c => c = ' ' || isBreak c
  allowsSingle cs && !cs.any isBreak && !edge cs.head? && !edge cs.getLast? && !(neighbours none cs).any isMark &&
    !(["---".toList, "...".toList].any (·.isPrefixOf cs))

/-! ## Written forms -/

def hexUpper (count n : Nat) : List Char :=
  let digits := (Nat.toDigits 16 n).map Char.toUpper
  List.replicate (count - digits.length) '0' ++ digits

/-- a character inside double quotes -/
def escapeChar (c : Char) : List Char :=
  let n := c.toNat
  if n = 0x00 then ['\\', '0'] else if n = 0x07 then ['\\', 'a'] else if n = 0x08 then ['\\', 'b']
  else if c = '\t' then ['\\', 't'] else if c = '\n' then ['\\', 'n'] else if n = 0x0b then ['\\', 'v']
  else if n = 0x0c then ['\\', 'f'] else if c = '\r' then ['\\', 'r'] else if n = 0x1b then ['\\', 'e']
  else if c = '"' then ['\\', '"'] else if c = '\\' then ['\\', '\\']
  else if n = 0x85 then ['\\', 'N'] else if n = 0x2028 then ['\\', 'L'] else if n = 0x2029 then ['\\', 'P']
  else if isPrintable c then [c]
  else if n ≤ 0xff then ['\\', 'x'] ++ hexUpper 2 n
  else if n ≤ 0xffff then ['\\', 'u'] ++ hexUpper 4 n
  else ['\\', 'U'] ++ hexUpper 8 n

def doubleQuoted (cs : List Char) : List Char := '"' :: cs.flatMap escapeChar ++ ['"']

/-- quotes are doubled; a line that follows a separator of lines is indented -/
def singleQuoted (indent : Nat) (cs : List Char) : List Char :=
  '\'' :: (neighbours none cs).flatMap (fun n =>
    (if n.before.any isBreak && !isBreak n.here then List.replicate indent ' ' else []) ++
      (if n.here = '\'' then ['\'', '\''] else [n.here])) ++ ['\'']

def indentLine (indent : Nat) (line : List Char) : List Char :=
  if line.isEmpty then [] else List.replicate indent ' ' ++ line

/-- a block of lines, without the line break that ends the last -/
def literalBlock (indent : Nat) (cs : List Char) : List Char :=
  let hint := if cs.head?.any fun c => c = ' ' || isBreak c then ['2'] else []
  let ended := cs.getLast? == some '\n'
  let body := if ended then cs.dropLast else cs
  let chomp := if !ended then ['-'] else if body.isEmpty || body.getLast? == some '\n' then ['+'] else []
  '|' :: hint ++ chomp ++ '\n' :: List.intercalate ['\n'] ((body.splitOn '\n').map (indentLine indent))

/-- a text; `indent` is for its further lines, and a key has to stay on one line -/
def textChars (indent : Nat) (isKey : Bool) (s : String) : List Char :=
  let cs := s.toList
  if cs.contains '\n' then
    if allowsBlock cs && !isKey then literalBlock indent cs else doubleQuoted cs
  else if !readsOtherwise s && allowsPlain cs then cs
  else if allowsSingle cs then singleQuoted indent cs
  else doubleQuoted cs

/-- a text can be a key on the line of its value -/
def isSimpleKey (s : String) : Bool := !s.toList.any isBreak && (Utf8.encode s).length ≤ 128

def newLine (indent : Nat) : List Char := '\n' :: List.replicate indent ' '

/-- the key shares its line with its value -/
def keyOnLine : Node → Bool
  | .scalar text plain => plain || isSimpleKey text
  | _ => true

/-- a key with the colon behind it; a key that is long or has several lines stands behind a question mark -/
def keyChars (indent : Nat) (key : Node) : List Char :=
  match key with
  | .scalar text true => text.toList ++ [':']
  | .scalar text false =>
    if isSimpleKey text then textChars indent true text ++ [':']
    else '?' :: ' ' :: textChars (indent + 2) false text ++ newLine indent ++ [':']
  | _ => []

mutual

/-- a value behind a colon or dash at level `indent`; a mapping starts on the same line if `sameLine` says so -/
def valueChars (indent : Nat) (sameLine : Bool) : Node → List Char
  | .scalar text plain => ' ' :: (if plain then text.toList else textChars (indent + 2) false text)
  | .sequence items => if items.isEmpty then [' ', '[', ']'] else itemsChars indent items
  | .mapping entries =>
    if entries.isEmpty then [' ', '\x7b', '\x7d']
    else entriesChars (indent + 2) (if sameLine then [' '] else newLine (indent + 2)) entries

/-- items of a sequence, each on a line of its own -/
def itemsChars (indent : Nat) : List Node → List Char
  | [] => []
  | n :: rest => newLine indent ++ '-' :: valueChars indent false n ++ itemsChars indent rest

/-- entries of a mapping; `front` comes before the first -/
def entriesChars (indent : Nat) (front : List Char) : List (Node × Node) → List Char
  | [] => []
  | (k, v) :: rest =>
    front ++ keyChars indent k ++ valueChars indent (!keyOnLine k) v ++ entriesChars indent (newLine indent) rest

end

/-- a document that holds a mapping -/
def render : Node → String
  | .mapping entries => String.ofList (entriesChars 0 [] entries ++ ['\n'])
  | n => String.ofList ((valueChars 0 false n).drop 1 ++ ['\n'])

end Isolation.Yaml
