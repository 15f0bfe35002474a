/-
The tokens of YAML texts. Indentation shows as tokens that open and close block collections. A mapping key is known
as one only at its colon, on the same line; until then the place where its token would stand is remembered.
-/
import Isolation.Yaml.Scalar

namespace Isolation.Yaml

inductive Token where
  | directive
  | documentStart
  | documentEnd
  | blockSequence
  | blockMapping
  | blockEnd
  | flowSequence
  | flowSequenceEnd
  | flowMapping
  | flowMappingEnd
  | blockEntry
  | flowEntry
  | key
  | value
  | alias (name : String)
  | anchor (name : String)
  | tag
  | scalar (text : String) (plain : Bool)
deriving DecidableEq, Repr

/-- a place where a mapping key may have started -/
structure KeyStart where
  /-- nothing else may stand there -/
  required : Bool
  /-- the number of tokens before it -/
  number : Nat
  index : Nat
  line : Nat
  column : Nat

structure Scanner where
  place : Place
  /-- the tokens so far, in reverse -/
  tokens : List Token := []
  /-- how many -/
  count : Nat := 0
  /-- the column of the innermost block collection, `-1` outside all -/
  indent : Int := -1
  /-- the columns of the collections around it -/
  outer : List Int := []
  /-- a key may start here -/
  keyAllowed : Bool := true
  /-- the key that may have started in each open flow collection, innermost first, and outside them -/
  keys : List (Option KeyStart) := [none]

namespace Scanner

/-- inside a flow collection -/
def inFlow (s : Scanner) : Bool := 1 < s.keys.length

def emit (s : Scanner) (t : Token) : Scanner := { s with tokens := t :: s.tokens, count := s.count + 1 }

/-- puts a token behind the first `number` tokens -/
def insertAt (s : Scanner) (number : Nat) (t : Token) : Scanner :=
  let later := s.count - number
  { s with tokens := s.tokens.take later ++ t :: s.tokens.drop later, count := s.count + 1 }

/-- the key that may have started at this level -/
def currentKey (s : Scanner) : Option KeyStart := s.keys.headD none

def setKey (s : Scanner) (k : Option KeyStart) : Scanner := { s with keys := k :: s.keys.drop 1 }

/-- no key started at this level after all; refused where nothing but a key may stand -/
def dropKey? (s : Scanner) : Option Scanner :=
  match s.currentKey with
  | some k => if k.required then none else some (s.setKey none)
  | none => some s

/-- a key may start here -/
def noteKey? (s : Scanner) : Option Scanner :=
  if !s.keyAllowed then some s
  else
    s.dropKey?.map fun s =>
      s.setKey (some ⟨!s.inFlow && s.indent == (s.place.column : Int), s.count, s.place.index, s.place.line,
        s.place.column⟩)

/-- the key at this level, if it is on this line and not too long; refused if it is not but had to be -/
def liveKey? (s : Scanner) : Option (Option KeyStart) :=
  match s.currentKey with
  | none => some none
  | some k =>
    if k.line < s.place.line || k.index + 1024 < s.place.index then (if k.required then none else some none)
    else some (some k)

/-- opens a block collection at a column, unless it is open already; its token goes behind `number` tokens -/
def openBlock (s : Scanner) (column number : Nat) (t : Token) : Scanner :=
  if s.inFlow || (column : Int) ≤ s.indent then s
  else { s.insertAt number t with indent := column, outer := s.indent :: s.outer }

/-- closes block collections right of a column; the stack of columns bounds their number -/
def closeBlocksLoop (column : Int) : List Int → Scanner → Scanner
  | [], s => s
  | i :: outer, s =>
    if s.indent ≤ column then s
    else closeBlocksLoop column outer { s.emit .blockEnd with indent := i, outer := outer }

def closeBlocks (s : Scanner) (column : Int) : Scanner :=
  if s.inFlow then s else closeBlocksLoop column s.outer s

/-- past blanks, comments and line breaks between tokens -/
def skipGap : (fuel : Nat) → Scanner → Scanner
  | 0, s => s
  | fuel + 1, s =>
    let p := s.place
    if p.looksAt ' ' || (p.looksAt '\t' && (s.inFlow || !s.keyAllowed)) then skipGap fuel { s with place := p.skip }
    else if p.looksAt '#' then skipGap fuel { s with place := p.skipWhile (!isBreak ·) }
    else if p.breakAt 0 then
      skipGap fuel { s with place := p.skipBreak, keyAllowed := s.keyAllowed || !s.inFlow }
    else s

/-- a mark of some characters, passed over -/
def mark (s : Scanner) (length : Nat) (t : Token) : Scanner :=
  { s.emit t with place := s.place.skipMany length }

/-! ## Kinds of tokens -/

def documentMark? (s : Scanner) (t : Token) : Option Scanner :=
  (s.closeBlocks (-1)).dropKey?.map fun s => { s.mark 3 t with keyAllowed := false }

/-- `%YAML` with a version 1.1 or 1.2, or `%TAG` with two words -/
def isDirective (line : List Char) : Bool :=
  let words := ((line.takeWhile (· ≠ '#')).splitOnP isBlank).filter (!·.isEmpty)
  match words.map String.ofList with
  | ["%YAML", version] => version == "1.1" || version == "1.2"
  | ["%TAG", _, _] => true
  | _ => false

def directive? (s : Scanner) : Option Scanner :=
  (s.closeBlocks (-1)).dropKey?.bind fun s =>
    let (line, p) := s.place.takeWhile (!isBreak ·)
    if isDirective line then some { s.emit .directive with keyAllowed := false, place := p } else none

def flowStart? (s : Scanner) (t : Token) : Option Scanner :=
  s.noteKey?.map fun s => { s.mark 1 t with keys := none :: s.keys, keyAllowed := true }

def flowEnd? (s : Scanner) (t : Token) : Option Scanner :=
  s.dropKey?.map fun s =>
    { s.mark 1 t with keys := if s.inFlow then s.keys.drop 1 else s.keys, keyAllowed := false }

def flowComma? (s : Scanner) : Option Scanner :=
  s.dropKey?.map fun s => { s.mark 1 .flowEntry with keyAllowed := true }

def blockDash? (s : Scanner) : Option Scanner :=
  if !s.inFlow && !s.keyAllowed then none
  else
    (s.openBlock s.place.column s.count .blockSequence).dropKey?.map fun s =>
      { s.mark 1 .blockEntry with keyAllowed := true }

/-- the mark `?` of a key -/
def explicitKey? (s : Scanner) : Option Scanner :=
  if !s.inFlow && !s.keyAllowed then none
  else
    (s.openBlock s.place.column s.count .blockMapping).dropKey?.map fun s =>
      { s.mark 1 .key with keyAllowed := !s.inFlow }

/-- the colon behind a key -/
def value? (s : Scanner) : Option Scanner :=
  match s.liveKey? with
  | none => none
  | some (some k) =>
    let s := (s.insertAt k.number .key).openBlock k.column k.number .blockMapping
    some { (s.setKey none).mark 1 .value with keyAllowed := false }
  | some none =>
    if !s.inFlow && !s.keyAllowed then none
    else
      let s := (s.setKey none).openBlock s.place.column s.count .blockMapping
      some { s.mark 1 .value with keyAllowed := !s.inFlow }

def isNameChar (c : Char) : Bool := c.isAlphanum || c = '_' || c = '-'

/-- a character that may stand behind the name of an anchor -/
def endsName (p : Place) : Bool :=
  p.gapAt 0 || p.char?.any fun c => "?:,]\x7d%@`".toList.contains c

/-- an anchor or alias -/
def name? (s : Scanner) (token : String → Token) : Option Scanner :=
  s.noteKey?.bind fun s =>
    let (name, p) := s.place.skip.takeWhile isNameChar
    if name.isEmpty || !endsName p then none
    else some { s.emit (token (String.ofList name)) with keyAllowed := false, place := p }

/-- a tag, whose text does not matter here -/
def tag? (s : Scanner) : Option Scanner :=
  s.noteKey?.bind fun s =>
    let p := s.place.skipWhile fun c => !(isBlank c || isBreak c || (s.inFlow && isFlowMark c))
    if p.gapAt 0 || (s.inFlow && p.looksAt ',') then some { s.emit .tag with keyAllowed := false, place := p } else none

def quoted? (s : Scanner) (quote : Char) : Option Scanner :=
  s.noteKey?.bind fun s =>
    (quotedScalar? quote s.place.rest.length [] s.place.skip).map fun (done, p) =>
      { s.emit (.scalar (String.ofList done.reverse) false) with keyAllowed := false, place := p }

def block? (s : Scanner) (literal : Bool) : Option Scanner :=
  s.dropKey?.bind fun s =>
    (blockScalar? literal s.indent s.place.skip).map fun (body, p) =>
      { s.emit (.scalar (String.ofList body) false) with keyAllowed := true, place := p }

def plain? (s : Scanner) : Option Scanner :=
  s.noteKey?.bind fun s =>
    (plainScalar? s.inFlow (s.indent + 1).toNat s.place.rest.length [] {} s.place).map fun (done, broken, p) =>
      { s.emit (.scalar (String.ofList done.reverse) true) with keyAllowed := broken, place := p }

/-- characters that have a meaning of their own at the start of a token -/
def indicators : List Char := "-?:,[]\x7b\x7d#&*!|>'\"%@`".toList

/-- a plain scalar may start here -/
def startsPlain (s : Scanner) (c : Char) : Bool :=
  let p := s.place
  (!indicators.contains c && !isBlank c) || (c = '-' && !p.blankAt 1) || (!s.inFlow && (c = '?' || c = ':') && !p.gapAt 1)

/-- one token, or several that it brings about; the text is not at its end -/
def next? (s : Scanner) (c : Char) : Option Scanner :=
  let p := s.place
  let flow := s.inFlow
  if p.column == 0 && c = '%' then s.directive?
  else if p.atDocumentMark then s.documentMark? (if c = '-' then .documentStart else .documentEnd)
  else if c = '[' then s.flowStart? .flowSequence
  else if c = '\x7b' then s.flowStart? .flowMapping
  else if c = ']' then s.flowEnd? .flowSequenceEnd
  else if c = '\x7d' then s.flowEnd? .flowMappingEnd
  else if c = ',' then s.flowComma?
  else if c = '-' && p.gapAt 1 then s.blockDash?
  else if c = '?' && (flow || p.gapAt 1) then s.explicitKey?
  else if c = ':' && (flow || p.gapAt 1) then s.value?
  else if c = '*' then s.name? .alias
  else if c = '&' then s.name? .anchor
  else if c = '!' then s.tag?
  else if c = '|' && !flow then s.block? true
  else if c = '>' && !flow then s.block? false
  else if c = '\'' || c = '"' then s.quoted? c
  else if s.startsPlain c then s.plain?
  else none

/-- the tokens to the end of the text -/
def run? : (fuel : Nat) → Scanner → Option (List Token)
  | 0, _ => none
  | fuel + 1, s =>
    let s := s.skipGap s.place.rest.length
    match s.liveKey? with
    | none => none
    | some key =>
      let s := (s.setKey key).closeBlocks s.place.column
      match s.place.rest with
      | [] => ((s.closeBlocks (-1)).dropKey?).map fun s => s.tokens.reverse
      | c :: _ =>
        match s.next? c with
        | none => none
        | some s => run? fuel s

end Scanner

/-- the text without byte order marks at its start -/
def withoutMark (cs : List Char) : List Char := cs.dropWhile (·.toNat = 0xfeff)

/-- the tokens of a text -/
def tokens? (s : String) : Option (List Token) :=
  if !s.toList.all isAllowed then none
  else
    let cs := withoutMark s.toList
    Scanner.run? (cs.length + 1) { place := { rest := cs } }

end Isolation.Yaml
