/-
Quoted string literals. A literal is read into pieces, each a character of its value together with the
characters that spell it in the source, so that text can be put in front of any character without spelling the
rest anew.

- `Literal.pieces` tiles the content: the spellings, one after the other, are the content.
- `Literal.insertionOffset` is the byte offset behind the leading separators of the value.
-/
import Isolation.Name.WrittenName
import Isolation.Number.Total

namespace Isolation

inductive QuoteStyle where
  | single
  | double
deriving DecidableEq, Repr

def QuoteStyle.quote : QuoteStyle → Char
  | .single => '\''
  | .double => '"'

/-- stands for an escape such as a newline, which no name can hold -/
def escapedChar : Char := Char.ofNat 0

namespace Literal

def isOctal (c : Char) : Bool := '0' ≤ c && c ≤ '7'

/-- an escape in double quotes, read after its backslash: its value and how many characters it takes there -/
def doubleEscape? : List Char → Option (Char × Nat)
  | [] => none
  | c :: cs =>
    if c = '\\' || c = '"' || c = '$' then some (c, 1)
    else if c = 'n' || c = 't' || c = 'r' || c = 'v' || c = 'e' || c = 'f' then some (escapedChar, 1)
    else if isOctal c then some (escapedChar, (((c :: cs).take 3).takeWhile isOctal).length)
    else if c = 'x' then
      match (cs.take 2).takeWhile Ascii.isHexDigit with
      | [] => none
      | digits => some (escapedChar, 1 + digits.length)
    else if c = 'u' && cs.head? = some '{' && cs.contains '}' then
      some (escapedChar, 2 + (cs.takeWhile (· ≠ '}')).length)
    else none

/-- an escape, read after its backslash; `none` when the backslash stands for itself -/
def escape? : QuoteStyle → List Char → Option (Char × Nat)
  | .single, c :: _ => if c = '\\' || c = '\'' then some (c, 1) else none
  | .single, [] => none
  | .double, cs => doubleEscape? cs

/-- one character of the value and how it is spelled -/
structure Piece where
  value : Char
  raw : List Char
deriving DecidableEq, Repr

/-- the content of a literal in pieces -/
def pieces (style : QuoteStyle) : List Char → List Piece
  | [] => []
  | c :: cs =>
    if c = '\\' then
      match escape? style cs with
      | some (value, n) => ⟨value, c :: cs.take n⟩ :: pieces style (cs.drop n)
      | none => ⟨c, [c]⟩ :: pieces style cs
    else ⟨c, [c]⟩ :: pieces style cs
termination_by cs => cs.length

/-- the number of bytes of some characters -/
def byteLength (cs : List Char) : Nat := total (cs.map Char.utf8Size)

/-- each value with the byte offset where its spelling starts -/
def withOffsets (base : Nat) : List Piece → List (Char × Nat)
  | [] => []
  | p :: ps => (p.value, base) :: withOffsets (base + byteLength p.raw) ps

/-- the content decoded, each character with the offset of its spelling -/
def decode (style : QuoteStyle) (base : Nat) (content : List Char) : List (Char × Nat) :=
  withOffsets base (pieces style content)

end Literal

/-- a string literal without interpolation -/
structure Literal where
  /-- the whole literal with its quotes -/
  span : Span
  style : QuoteStyle
  decoded : List (Char × Nat)
  /-- the offset of the closing quote -/
  contentEnd : Nat
  /-- the content holds a doubled backslash -/
  escapedSeparators : Bool
deriving DecidableEq, Repr

namespace Literal

/-- the literal in the quotes `style`, read after the opening quote -/
def ofQuoted? (style : QuoteStyle) (rawBytes start : Nat) (quoted : List Char) (contentStart : Nat) :
    Option Literal :=
  if quoted.getLast? = some style.quote then
    let content := quoted.dropLast
    some {
      span := ⟨start, start + rawBytes⟩
      style
      decoded := decode style contentStart content
      contentEnd := contentStart + byteLength content
      escapedSeparators := Text.occursIn ['\\', '\\'] content }
  else none

/-- reads a complete literal whose first byte has offset `start`, with an optional `b` in front -/
def ofSource? (raw : String) (start : Nat) : Option Literal :=
  let size := byteLength raw.toList
  let ofQuote (cs : List Char) (at_ : Nat) : Option Literal :=
    match cs with
    | '\'' :: rest => ofQuoted? .single size start rest (at_ + 1)
    | '"' :: rest => ofQuoted? .double size start rest (at_ + 1)
    | _ => none
  match raw.toList with
  | 'b' :: rest => ofQuote rest (start + 1)
  | 'B' :: rest => ofQuote rest (start + 1)
  | cs => ofQuote cs start

/-- the value at run time; escapes that no name can hold are read as NUL -/
def value (l : Literal) : String := String.ofList (l.decoded.map Prod.fst)

/-- the offset behind the leading separators of the value -/
def insertionOffset (l : Literal) : Nat :=
  match l.decoded.find? (fun d => d.1 != separator) with
  | some d => d.2
  | none => l.contentEnd

/-- how a separator is spelled in this literal -/
def separatorText (l : Literal) : String :=
  if l.style = .double || l.escapedSeparators then "\\\\" else "\\"

/-- the spelling of a namespace and a separator behind it -/
def encodeNamespace (l : Literal) (namespace_ : String) : String :=
  Text.joinBy l.separatorText (splitSegments namespace_) ++ l.separatorText

end Literal

end Isolation
