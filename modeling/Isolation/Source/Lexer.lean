/-
The tokens of a PHP file. The file starts outside PHP; `<?php`, `<?=` and `<?` open code, `?>` closes it. Inside
code a stack of modes tells code from the inside of quotes, heredocs and interpolated expressions, so the tokens
depend on the bytes alone.

- `lex? source` is the list of tokens, ending with one for the end of the file; `none` if a comment or a text is
  not closed or a byte belongs to no token.
- every step of `lexFrom` takes at least one byte, so the token spans are in order and disjoint.
-/
import Isolation.Source.Token

namespace Isolation.Lexer

def byteOf (c : Char) : UInt8 := c.toNat.toUInt8

def isNewline (b : UInt8) : Bool := b = 0x0a || b = 0x0d

def isDigitByte (b : UInt8) : Bool := 0x30 ≤ b && b ≤ 0x39

def isLetterByte (b : UInt8) : Bool := (0x41 ≤ b && b ≤ 0x5a) || (0x61 ≤ b && b ≤ 0x7a)

def isHexByte (b : UInt8) : Bool := isDigitByte b || (0x41 ≤ b && b ≤ 0x46) || (0x61 ≤ b && b ≤ 0x66)

def startsWith (bytes : List UInt8) (text : String) : Bool := (Utf8.encode text).isPrefixOf bytes

/-! ## Blanks and words -/

/-- what separates tokens: the ASCII blanks, the no-break space, the zero-width space, the word joiner and the byte
order mark -/
def blanks : List (List UInt8) :=
  [[0x20], [0x0a], [0x09], [0x0b], [0x0c], [0x0d], [0xc2, 0xa0], [0xe2, 0x80, 0x8b], [0xe2, 0x81, 0xa0],
   [0xef, 0xbb, 0xbf]]

/-- the length of a blank at the front, `0` if there is none -/
def blankLength (bytes : List UInt8) : Nat := ((blanks.find? (·.isPrefixOf bytes)).map List.length).getD 0

/-- the length of a well-formed character at the front, `0` if there is none -/
def charLength : List UInt8 → Nat
  | [] => 0
  | b :: rest =>
    match Utf8.begin? b with
    | none => 0
    | some p =>
      if p.missing = 0 then 1
      else
        match rest with
        | [] => 0
        | c :: rest =>
          let more := rest.take (p.missing - 1)
          if p.low ≤ c && c ≤ p.high && more.length = p.missing - 1 && more.all (fun d => 0x80 ≤ d && d ≤ 0xbf)
          then p.missing + 1 else 0

/-- the length of a character of a name at the front, `0` if there is none -/
def nameCharLength (first : Bool) (bytes : List UInt8) : Nat :=
  match bytes with
  | [] => 0
  | b :: _ =>
    if b < 0x80 then if isLetterByte b || b = 0x5f || (!first && isDigitByte b) then 1 else 0
    else if blankLength bytes > 0 then 0
    else charLength bytes

/-- the length of the rest of a name; `skip` counts the bytes of its current character still to come -/
def wordRest (skip : Nat) : List UInt8 → Nat
  | [] => 0
  | b :: rest =>
    match skip with
    | k + 1 => 1 + wordRest k rest
    | 0 =>
      match nameCharLength false (b :: rest) with
      | 0 => 0
      | n + 1 => 1 + wordRest n rest

/-- the length of a name at the front, `0` if there is none -/
def wordLength (bytes : List UInt8) : Nat :=
  match nameCharLength true bytes with
  | 0 => 0
  | n + 1 => 1 + wordRest n (bytes.drop 1)

/-! ## Numbers -/

def isOctalByte (b : UInt8) : Bool := 0x30 ≤ b && b ≤ 0x37

def isBinaryByte (b : UInt8) : Bool := b = 0x30 || b = 0x31

/-- the length of a row of digits, which may have single underscores in front of some -/
def digitsLength (isDigit : UInt8 → Bool) : List UInt8 → Nat
  | [] => 0
  | b :: rest =>
    if isDigit b || (b = 0x5f && rest.head?.any isDigit) then 1 + digitsLength isDigit rest else 0

/-- the length of a row of digits that starts with a digit, with `front` bytes in front of it; `0` if there is none -/
def digitsBehind (front : Nat) (isDigit : UInt8 → Bool) (bytes : List UInt8) : Nat :=
  if bytes.head?.any isDigit then front + digitsLength isDigit bytes else 0

/-- the length of an exponent at the front, `0` if there is none -/
def exponentLength : List UInt8 → Nat
  | e :: rest =>
    if e = byteOf 'e' || e = byteOf 'E' then
      let sign := if rest.head? = some (byteOf '+') || rest.head? = some (byteOf '-') then 1 else 0
      digitsBehind (1 + sign) isDigitByte (rest.drop sign)
    else 0
  | [] => 0

/-- the length of an integer at the front, `0` if there is none; behind a zero the digits are octal, and a base without
digits is not part of the number -/
def integerLength : List UInt8 → Nat
  | [] => 0
  | b :: rest =>
    if b = byteOf '0' then
      if rest.head? = some (byteOf 'x') || rest.head? = some (byteOf 'X') then
        max 1 (digitsBehind 2 isHexByte (rest.drop 1))
      else if rest.head? = some (byteOf 'b') || rest.head? = some (byteOf 'B') then
        max 1 (digitsBehind 2 isBinaryByte (rest.drop 1))
      else if rest.head? = some (byteOf 'o') || rest.head? = some (byteOf 'O') then
        2 + digitsLength isOctalByte (rest.drop 1)
      else 1 + digitsLength isOctalByte rest
    else if isDigitByte b then 1 + digitsLength isDigitByte rest
    else 0

/-- the length of a number with a point or an exponent at the front, `0` if there is none -/
def floatLength (bytes : List UInt8) : Nat :=
  let whole := digitsLength isDigitByte bytes
  let rest := bytes.drop whole
  let fraction := if rest.head? = some (byteOf '.') then 1 + digitsLength isDigitByte (rest.drop 1) else 0
  let exponent := exponentLength (rest.drop fraction)
  if fraction + exponent > 0 then whole + fraction + exponent else 0

/-- the length of a number that starts with a digit or with a point and a digit: the longer of the two readings -/
def numberLength (bytes : List UInt8) : Nat := max (integerLength bytes) (floatLength bytes)

def startsNumber : List UInt8 → Bool
  | b :: c :: _ => isDigitByte b || (b = byteOf '.' && isDigitByte c)
  | b :: [] => isDigitByte b
  | [] => false

/-! ## Comments and text outside the tags -/

/-- the length of a comment that ends with its line or before a closing tag -/
def lineCommentLength : List UInt8 → Nat
  | [] => 0
  | b :: rest =>
    if isNewline b || (b = byteOf '?' && rest.head? = some (byteOf '>')) then 0 else 1 + lineCommentLength rest

/-- the length up to and with `*/`, `none` if it is missing -/
def blockCommentLength? : List UInt8 → Option Nat
  | [] => none
  | b :: rest =>
    if b = byteOf '*' && rest.head? = some (byteOf '/') then some 2
    else (blockCommentLength? rest).map (· + 1)

/-- the length of an opening tag at the front, which starts with `<?` -/
def openTagLength (bytes : List UInt8) : Nat :=
  let rest := bytes.drop 2
  if (rest.take 3).map (fun b => if isLetterByte b then b ||| 0x20 else b) = Utf8.encode "php" then 5
  else if rest.head? = some (byteOf '=') then 3
  else 2

/-- the length of the text outside PHP, with the opening tag that ends it -/
def outsideLength : List UInt8 → Nat
  | [] => 0
  | b :: rest =>
    if b = byteOf '<' && rest.head? = some (byteOf '?') then openTagLength (b :: rest) else 1 + outsideLength rest

/-! ## Quoted texts -/

/-- a variable or an expression is interpolated here, just behind a dollar sign -/
def startsVariable : List UInt8 → Bool
  | [] => false
  | b :: _ => isLetterByte b || b = 0x5f || 0x80 ≤ b || b = byteOf '{'

/-- the length up to and with the closing single quote -/
def singleQuotedLength? (escaped : Bool) : List UInt8 → Option Nat
  | [] => none
  | b :: rest =>
    if escaped then (singleQuotedLength? false rest).map (· + 1)
    else if b = byteOf '\\' then (singleQuotedLength? true rest).map (· + 1)
    else if b = byteOf '\'' then some 1
    else (singleQuotedLength? false rest).map (· + 1)

/-- the bytes start with an offset in brackets: a word, an integer or a variable -/
def startsOffset (bytes : List UInt8) : Bool :=
  let inner :=
    match bytes.drop 1 with
    | b :: rest =>
      if b = byteOf '-' then if integerLength rest > 0 then 1 + integerLength rest else 0
      else if b = byteOf '$' then if wordLength rest > 0 then 1 + wordLength rest else 0
      else if isDigitByte b then integerLength (b :: rest)
      else wordLength (b :: rest)
    | [] => 0
  inner > 0 && (bytes.drop (1 + inner)).head? = some (byteOf ']')

/-- no bracket stands behind the name of an interpolated variable, or it is an offset -/
def wellIndexed (bytes : List UInt8) : Bool :=
  let behind := bytes.drop (wordLength bytes)
  !startsWith behind "[" || startsOffset behind

/-! ## Heredocs -/

/-- what opens a heredoc: its length with the line break, its label, and whether it is taken literally -/
structure HeredocStart where
  length : Nat
  label : List UInt8
  literal : Bool

def isSpaceOrTab (b : UInt8) : Bool := b = 0x20 || b = 0x09

def newlineLength : List UInt8 → Nat
  | 0x0d :: 0x0a :: _ => 2
  | b :: _ => if isNewline b then 1 else 0
  | [] => 0

/-- reads what opens a heredoc, which starts with `<<<` -/
def heredocStart? (bytes : List UInt8) : Option HeredocStart :=
  let gap := ((bytes.drop 3).takeWhile isSpaceOrTab).length
  let rest := bytes.drop (3 + gap)
  let build (quote : Nat) (literal : Bool) : Option HeredocStart :=
    let size := wordLength (rest.drop quote)
    let behind := rest.drop (quote + size)
    let closed := quote = 0 || (behind.head? = rest.head?)
    let line := newlineLength (behind.drop quote)
    if size > 0 && closed && line > 0 then
      some ⟨3 + gap + quote + size + quote + line, (rest.drop quote).take size, literal⟩
    else none
  if rest.head? = some (byteOf '\'') then build 1 true
  else if rest.head? = some (byteOf '"') then build 1 false
  else build 0 false

/-- the length of the closing label of a heredoc at the start of a line, with the blanks before it -/
def heredocEndLength? (label bytes : List UInt8) : Option Nat :=
  let gap := (bytes.takeWhile isSpaceOrTab).length
  let rest := bytes.drop gap
  if rest.take (wordRest 0 rest) = label then some (gap + label.length) else none

/-! ## Texts with interpolation -/

/-- what a text stands in: double quotes or backticks, or a heredoc, which may be taken literally -/
inductive TextKind where
  | quoted (quote : UInt8)
  | heredoc (label : List UInt8) (literal : Bool)
deriving DecidableEq, Repr

def TextKind.isLiteral : TextKind → Bool
  | .quoted _ => false
  | .heredoc _ literal => literal

/-- the length of what closes the text, if it stands at the front -/
def TextKind.closeLength? (kind : TextKind) (lineStart : Bool) (bytes : List UInt8) : Option Nat :=
  match kind with
  | .quoted quote => if bytes.head? = some quote then some 1 else none
  | .heredoc label _ => if lineStart then heredocEndLength? label bytes else none

/-- a text up to what closes it, or up to the brace of the next interpolated expression -/
structure TextRun where
  /-- with what ends it -/
  length : Nat
  /-- an interpolated expression ends it -/
  splices : Bool
  /-- where the names of the interpolated variables start -/
  nameStarts : List Nat

/-- nothing is interpolated in the text or behind it -/
def TextRun.isPlain (run : TextRun) : Bool := !run.splices && run.nameStarts.isEmpty

def TextRun.longer (n : Nat) (run : TextRun) : TextRun :=
  { run with length := run.length + n, nameStarts := run.nameStarts.map (· + n) }

/-- with a variable whose name is the first thing in it -/
def TextRun.naming (run : TextRun) : TextRun := { run with nameStarts := 0 :: run.nameStarts }

/-- reads a text from some place inside on; `none` if it is not closed -/
def scanText? (kind : TextKind) (lineStart : Bool) : List UInt8 → Option TextRun
  | [] => none
  | b :: rest =>
    match kind.closeLength? lineStart (b :: rest) with
    | some n => some ⟨n, false, []⟩
    | none =>
      if kind.isLiteral then (scanText? kind (isNewline b) rest).map (·.longer 1)
      else if b = byteOf '\\' then
        match rest with
        | [] => none
        | c :: more =>
          if isNewline c then (scanText? kind false (c :: more)).map (·.longer 1)
          else (scanText? kind false more).map (·.longer 2)
      else if b = byteOf '{' && rest.head? = some (byteOf '$') then some ⟨1, true, []⟩
      else if b = byteOf '$' && rest.head? = some (byteOf '{') then some ⟨2, true, []⟩
      else if b = byteOf '$' && startsVariable rest then (scanText? kind false rest).map (·.naming.longer 1)
      else (scanText? kind (isNewline b) rest).map (·.longer 1)

/-- as `scanText?`, and what stands in brackets behind each variable is an offset -/
def textRun? (kind : TextKind) (lineStart : Bool) (bytes : List UInt8) : Option TextRun :=
  (scanText? kind lineStart bytes).filter fun run =>
    run.nameStarts.all fun offset => wellIndexed ((bytes.take run.length).drop offset)

/-! ## Modes and steps -/

/-- what the bytes ahead are read as -/
inductive Mode where
  | code
  /-- code inside an interpolated text, up to the closing brace -/
  | splice
  /-- the inside of a text, perhaps at the start of a line -/
  | text (kind : TextKind) (lineStart : Bool)
deriving DecidableEq, Repr

def Mode.isCode : Mode → Bool
  | .code => true
  | _ => false

/-- one step: how many bytes it takes, the token they make if any, the modes behind them -/
structure Step where
  length : Nat
  token : Option (TokenKind × String) := none
  modes : List Mode
  /-- the step was over a closing tag -/
  closes : Bool := false

/-- longest first -/
def symbolTexts : List String :=
  ["<<=", ">>=", "**=", "...", "<=>", "===", "!==", "??=", "?->",
   "=>", "->", "::", "++", "--", "==", "!=", "<>", "<=", ">=", "&&", "||", "??", "**", "+=", "-=", "*=", "/=",
   ".=", "%=", "&=", "|=", "^=", "<<", ">>", "#[",
   ";", ",", "(", ")", "[", "]", "=", "+", "-", "*", "/", "%", ".", "<", ">", "!", "?", ":", "&", "|", "^", "~",
   "@", "$", "\\"]

def symbolTable : List (List UInt8 × String) := symbolTexts.map fun s => (Utf8.encode s, s)

def symbolStep? (modes : List Mode) (bytes : List UInt8) : Option Step :=
  if startsWith bytes "\x7b" then some ⟨1, some (.symbol, "\x7b"), .code :: modes, false⟩
  else if startsWith bytes "\x7d" then
    match modes with
    | .splice :: below => some ⟨1, some (.spliceClose, ""), below, false⟩
    | .code :: mode :: below => some ⟨1, some (.symbol, "\x7d"), mode :: below, false⟩
    | _ => some ⟨1, some (.symbol, "\x7d"), modes, false⟩
  else
    (symbolTable.find? fun entry => entry.1.isPrefixOf bytes).map fun entry =>
      ⟨entry.1.length, some (.symbol, entry.2), modes, false⟩

/-- a quoted text, `marker` bytes behind the front -/
def quotedStep? (modes : List Mode) (marker : Nat) (bytes : List UInt8) : Option Step :=
  let rest := bytes.drop marker
  if startsWith rest "'" then
    (singleQuotedLength? false (rest.drop 1)).map fun n => ⟨marker + 1 + n, some (.literal, ""), modes, false⟩
  else if startsWith rest "\"" then
    (textRun? (.quoted (byteOf '"')) false (rest.drop 1)).map fun run =>
      if run.isPlain then ⟨marker + 1 + run.length, some (.literal, ""), modes, false⟩
      else ⟨marker + 1, some (.templateOpen, ""), .text (.quoted (byteOf '"')) false :: modes, false⟩
  else none

def wordStep (modes : List Mode) (bytes : List UInt8) : Step :=
  let n := wordLength bytes
  ⟨n, some (.word, Ascii.lower ((Utf8.decode? (bytes.take n)).getD "")), modes, false⟩

/-- what opens a heredoc, `marker` bytes behind the front -/
def heredocStep? (modes : List Mode) (marker : Nat) (bytes : List UInt8) : Option Step :=
  (heredocStart? (bytes.drop marker)).map fun start =>
    ⟨marker + start.length, some (.templateOpen, ""), .text (.heredoc start.label start.literal) true :: modes, false⟩

/-- one step in code -/
def codeStep? (modes : List Mode) (bytes : List UInt8) : Option Step :=
  if blankLength bytes > 0 then some ⟨blankLength bytes, none, modes, false⟩
  else if startsWith bytes "?>" then some ⟨2 + outsideLength (bytes.drop 2), none, modes, true⟩
  else if startsWith bytes "/*" then
    (blockCommentLength? (bytes.drop 2)).map fun n => ⟨2 + n, none, modes, false⟩
  else if startsWith bytes "//" || (startsWith bytes "#" && !startsWith bytes "#[") then
    some ⟨1 + lineCommentLength (bytes.drop 1), none, modes, false⟩
  else if startsWith bytes "'" || startsWith bytes "\"" then quotedStep? modes 0 bytes
  else if startsWith bytes "b'" || startsWith bytes "B'" || startsWith bytes "b\"" || startsWith bytes "B\"" then
    quotedStep? modes 1 bytes
  else if startsWith bytes "\x60" then some ⟨1, some (.templateOpen, ""), .text (.quoted 0x60) false :: modes, false⟩
  else if startsWith bytes "$" && wordLength (bytes.drop 1) > 0 then
    some ⟨1 + wordLength (bytes.drop 1), some (.variable, ""), modes, false⟩
  else if startsNumber bytes then some ⟨numberLength bytes, some (.number, ""), modes, false⟩
  else if startsWith bytes "b<<<" || startsWith bytes "B<<<" then heredocStep? modes 1 bytes
  else if wordLength bytes > 0 then some (wordStep modes bytes)
  else if startsWith bytes "<<<" then heredocStep? modes 0 bytes
  else symbolStep? modes bytes

/-- one step inside a text, over all of it up to its end or to the next interpolated expression -/
def textStep? (kind : TextKind) (lineStart : Bool) (below : List Mode) (bytes : List UInt8) : Option Step :=
  (textRun? kind lineStart bytes).map fun run =>
    if run.splices then ⟨run.length, some (.spliceOpen, ""), .splice :: .text kind false :: below, false⟩
    else ⟨run.length, some (.templateClose, ""), below, false⟩

/-- one step in the modes given, topmost first -/
def step? (modes : List Mode) (bytes : List UInt8) : Option Step :=
  match modes with
  | [] => none
  | .code :: _ => codeStep? modes bytes
  | .splice :: _ => codeStep? modes bytes
  | .text kind lineStart :: below => textStep? kind lineStart below bytes

/-- the tokens from `pos` on; `made` holds those before it, last one first -/
def lexFrom (pos : Nat) (modes : List Mode) (afterClose : Bool) (made : List Token) (bytes : List UInt8) :
    Option (List Token) :=
  match bytes with
  | [] =>
    if modes.all Mode.isCode then some (⟨.endOfFile, ⟨pos, pos⟩, "", afterClose⟩ :: made).reverse else none
  | b :: rest =>
    match step? modes (b :: rest) with
    | none => none
    | some s =>
      let n := max 1 s.length
      match s.token with
      | none => lexFrom (pos + n) s.modes (afterClose || s.closes) made ((b :: rest).drop n)
      | some (kind, text) =>
        lexFrom (pos + n) s.modes false (⟨kind, ⟨pos, pos + n⟩, text, afterClose⟩ :: made) ((b :: rest).drop n)
termination_by bytes.length
decreasing_by all_goals (simp only [List.length_drop, List.length_cons]; omega)

/-- the tokens of a file -/
def lex? (source : List UInt8) : Option (List Token) :=
  let outside := outsideLength source
  lexFrom outside [.code] false [] (source.drop outside)

end Isolation.Lexer
