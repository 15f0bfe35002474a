/-
Writing of JSON values: on one line without blanks, or over several lines with a fixed number of blanks for each
container around a line. In texts a quote, a backslash and control characters are escaped, nothing else.
-/
import Isolation.Json.Basic

namespace Isolation.Json

def hexDigits (n : Nat) : List Char := [Nat.digitChar (n / 16 % 16), Nat.digitChar (n % 16)]

/-- a character inside a written text -/
def escapeChar (c : Char) : List Char :=
  match c with
  | '"' => ['\\', '"']
  | '\\' => ['\\', '\\']
  | '\x08' => ['\\', 'b']
  | '\x0c' => ['\\', 'f']
  | '\n' => ['\\', 'n']
  | '\r' => ['\\', 'r']
  | '\t' => ['\\', 't']
  | _ => if c.toNat < 0x20 then ['\\', 'u', '0', '0'] ++ hexDigits c.toNat else [c]

/-- a written text -/
def quoted (s : String) : List Char := '"' :: s.toList.flatMap escapeChar ++ ['"']

def boolChars (b : Bool) : List Char := if b then "true".toList else "false".toList

mutual

/-- the value on one line -/
def compactChars : Json → List Char
  | .null => "null".toList
  | .bool b => boolChars b
  | .number n => n.chars
  | .text s => quoted s
  | .array items => '[' :: compactItems true items
  | .object entries => '\x7b' :: compactEntries true entries

/-- the items up to the closing bracket; no comma before the first -/
def compactItems (first : Bool) : List Json → List Char
  | [] => [']']
  | j :: rest => (if first then [] else [',']) ++ compactChars j ++ compactItems false rest

def compactEntries (first : Bool) : List (String × Json) → List Char
  | [] => ['\x7d']
  | (k, j) :: rest =>
    (if first then [] else [',']) ++ quoted k ++ ':' :: compactChars j ++ compactEntries false rest

end

/-- a line break and the blanks in front of a line inside `depth` containers, `unit` blanks for each -/
def newLine (unit depth : Nat) : List Char := '\n' :: List.replicate (unit * depth) ' '

mutual

/-- the value over several lines, inside `depth` containers -/
def prettyChars (unit depth : Nat) : Json → List Char
  | .null => "null".toList
  | .bool b => boolChars b
  | .number n => n.chars
  | .text s => quoted s
  | .array [] => ['[', ']']
  | .array (j :: rest) =>
    '[' :: newLine unit (depth + 1) ++ prettyChars unit (depth + 1) j ++ prettyItems unit depth rest
  | .object [] => ['\x7b', '\x7d']
  | .object ((k, j) :: rest) =>
    '\x7b' :: newLine unit (depth + 1) ++ quoted k ++ ':' :: ' ' :: prettyChars unit (depth + 1) j ++
      prettyEntries unit depth rest

/-- the items behind the first of an array inside `depth` containers -/
def prettyItems (unit depth : Nat) : List Json → List Char
  | [] => newLine unit depth ++ [']']
  | j :: rest => ',' :: newLine unit (depth + 1) ++ prettyChars unit (depth + 1) j ++ prettyItems unit depth rest

def prettyEntries (unit depth : Nat) : List (String × Json) → List Char
  | [] => newLine unit depth ++ ['\x7d']
  | (k, j) :: rest =>
    ',' :: newLine unit (depth + 1) ++ quoted k ++ ':' :: ' ' :: prettyChars unit (depth + 1) j ++
      prettyEntries unit depth rest

end

/-- the value on one line -/
def compact (j : Json) : String := String.ofList (compactChars j)

/-- the value over several lines, with `unit` blanks for each container around a line -/
def pretty (unit : Nat) (j : Json) : String := String.ofList (prettyChars unit 0 j)

end Isolation.Json
