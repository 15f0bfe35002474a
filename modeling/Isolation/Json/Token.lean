/-
The tokens of JSON texts. A text is read character by character; what has been read of an unfinished token is the
mode. Blanks between tokens are space, tab, line feed and carriage return.
-/
import Isolation.Json.Basic

namespace Isolation.Json

inductive Token where
  | openArray
  | closeArray
  | openObject
  | closeObject
  | comma
  | colon
  | text (s : String)
  | number (n : Number)
  | null
  | bool (b : Bool)

/-- what is being read; characters read so far stand in reverse -/
inductive Mode where
  | between
  | word (done : List Char)
  | numeral (done : List Char)
  | string (done : List Char)
  /-- behind a backslash -/
  | escape (done : List Char)
  /-- in the four digits behind `\u`, whose value so far is `value`; `high` is the unit before it, if this one must
  complete a pair -/
  | unit (done : List Char) (high : Option Nat) (count value : Nat)
  /-- behind the first unit of a pair, where a backslash must follow -/
  | pair (done : List Char) (high : Nat)
  /-- behind that backslash -/
  | pairEscape (done : List Char) (high : Nat)

/-- what a word stands for -/
def word? (done : List Char) : Option Token :=
  match String.ofList done.reverse with
  | "null" => some .null
  | "true" => some (.bool true)
  | "false" => some (.bool false)
  | _ => none

def hexValue? (c : Char) : Option Nat :=
  if Ascii.isDigit c then some (c.toNat - '0'.toNat)
  else if 'a' ≤ c && c ≤ 'f' then some (c.toNat - 'a'.toNat + 10)
  else if 'A' ≤ c && c ≤ 'F' then some (c.toNat - 'A'.toNat + 10)
  else none

/-- the character of a letter behind a backslash, `u` aside -/
def escaped? : Char → Option Char
  | '"' => some '"'
  | '\\' => some '\\'
  | '/' => some '/'
  | 'b' => some '\x08'
  | 'f' => some '\x0c'
  | 'n' => some '\n'
  | 'r' => some '\r'
  | 't' => some '\t'
  | _ => none

/-- a finished unit of `\u`: a character, or the first half of one; a second half stands only behind a first -/
def unitMode? (done : List Char) (high : Option Nat) (value : Nat) : Option Mode :=
  match high with
  | some h =>
    if 0xDC00 ≤ value && value ≤ 0xDFFF then
      some (.string (Char.ofNat (0x10000 + (h - 0xD800) * 0x400 + (value - 0xDC00)) :: done))
    else none
  | none =>
    if 0xD800 ≤ value && value ≤ 0xDBFF then some (.pair done value)
    else if 0xDC00 ≤ value && value ≤ 0xDFFF then none
    else some (.string (Char.ofNat value :: done))

/-- one character between tokens: the token it is, and the mode behind it -/
def stepBetween? (c : Char) : Option (List Token × Mode) :=
  match c with
  | '[' => some ([.openArray], .between)
  | ']' => some ([.closeArray], .between)
  | '\x7b' => some ([.openObject], .between)
  | '\x7d' => some ([.closeObject], .between)
  | ',' => some ([.comma], .between)
  | ':' => some ([.colon], .between)
  | '"' => some ([], .string [])
  | _ =>
    if c = ' ' || c = '\t' || c = '\n' || c = '\r' then some ([], .between)
    else if Ascii.isDigit c || c = '-' then some ([], .numeral [c])
    else if Ascii.isLetter c then some ([], .word [c])
    else none

/-- one character: the tokens it completes, and the mode behind it -/
def step? (mode : Mode) (c : Char) : Option (List Token × Mode) :=
  match mode with
  | .between => stepBetween? c
  | .word done =>
    if Ascii.isLetter c then some ([], .word (c :: done))
    else do
      let token ← word? done
      let (tokens, mode) ← stepBetween? c
      return (token :: tokens, mode)
  | .numeral done =>
    if Number.isNumberChar c then some ([], .numeral (c :: done))
    else do
      let n ← Number.ofChars? done.reverse
      let (tokens, mode) ← stepBetween? c
      return (.number n :: tokens, mode)
  | .string done =>
    if c = '"' then some ([.text (String.ofList done.reverse)], .between)
    else if c = '\\' then some ([], .escape done)
    else if c.toNat < 0x20 then none
    else some ([], .string (c :: done))
  | .escape done =>
    if c = 'u' then some ([], .unit done none 0 0)
    else (escaped? c).map fun e => ([], .string (e :: done))
  | .unit done high count value => do
    let digit ← hexValue? c
    let value := value * 16 + digit
    if count < 3 then return ([], .unit done high (count + 1) value)
    else
      let mode ← unitMode? done high value
      return ([], mode)
  | .pair done high => if c = '\\' then some ([], .pairEscape done high) else none
  | .pairEscape done high => if c = 'u' then some ([], .unit done (some high) 0 0) else none

/-- the token that the end of the text completes -/
def finish? : Mode → Option (List Token)
  | .between => some []
  | .word done => (word? done).map fun t => [t]
  | .numeral done => (Number.ofChars? done.reverse).map fun n => [.number n]
  | _ => none

/-- the tokens from `mode` on, put behind `done`, which is held in reverse -/
def tokensFrom? (mode : Mode) (done : List Token) : List Char → Option (List Token)
  | [] => (finish? mode).map fun last => done.reverse ++ last
  | c :: rest =>
    match step? mode c with
    | none => none
    | some (tokens, mode) => tokensFrom? mode (tokens.reverse ++ done) rest

/-- the tokens of a text -/
def tokens? (cs : List Char) : Option (List Token) := tokensFrom? .between [] cs

end Isolation.Json
