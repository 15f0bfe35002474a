/-
JSON values. An object keeps its entries in the order of the text, repeated keys included, so that each reader
decides what a repetition means; `Json.tidy` is the common reading, in which the last value of a key stands at the
place of its first.
-/
import Isolation.Entries
import Isolation.Json.Number

namespace Isolation

/-- a JSON value as written -/
inductive Json where
  | null
  | bool (b : Bool)
  | number (n : Json.Number)
  | text (s : String)
  | array (items : List Json)
  | object (entries : List (String × Json))
deriving Inhabited

namespace Json

mutual

/-- the value with distinct keys in every object -/
def tidy : Json → Json
  | .array items => .array (tidyItems items)
  | .object entries => .object (Entries.ofList (tidyEntries entries))
  | .null => .null
  | .bool b => .bool b
  | .number n => .number n
  | .text s => .text s

def tidyItems : List Json → List Json
  | [] => []
  | j :: rest => tidy j :: tidyItems rest

def tidyEntries : List (String × Json) → List (String × Json)
  | [] => []
  | (k, j) :: rest => (k, tidy j) :: tidyEntries rest

end

/-- the value of a key of an object -/
def get? (key : String) : Json → Option Json
  | .object entries => Entries.get? key entries
  | _ => none

end Json

end Isolation
