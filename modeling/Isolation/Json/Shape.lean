/-
Readings of JSON values at the shapes that settings and metadata have: texts, lists of texts, counts, tables, and
records of named fields. A record may also be written as the list of its fields in order.
-/
import Isolation.Json.Basic

namespace Isolation.Json

def text? : Json → Option String
  | .text s => some s
  | _ => none

def bool? : Json → Option Bool
  | .bool b => some b
  | _ => none

def items? : Json → Option (List Json)
  | .array items => some items
  | _ => none

def listOf? (read : Json → Option α) (j : Json) : Option (List α) := (items? j).bind fun items => items.mapM read

def texts? : Json → Option (List String) := listOf? text?

/-- a whole number that is not negative -/
def count? : Json → Option Nat
  | .number (.whole (.ofNat n)) => some n
  | _ => none

def readPair? (read : Json → Option α) (e : String × Json) : Option (String × α) := (read e.2).map fun v => (e.1, v)

/-- an object whose values all have one shape; the last value of a key stands at the place of its first -/
def tableOf? (read : Json → Option α) : Json → Option (List (String × α))
  | .object entries => (entries.mapM (readPair? read)).map Entries.ofList
  | _ => none

def valuesOf (key : String) (entries : List (String × Json)) : List Json :=
  (entries.filter (·.1 == key)).map (·.2)

/-- the value of a field, if it is there; nothing at all if it is there more than once -/
def field? (entries : List (String × Json)) (name : String) : Option (Option Json) :=
  match valuesOf name entries with
  | [] => some none
  | [j] => some (some j)
  | _ => none

/-- the fields of a record, each there or not: of an object by their names, each at most once and others aside; of
a list by their places, and no more than there are fields -/
def fields? (names : List String) : Json → Option (List (Option Json))
  | .object entries => names.mapM (field? entries)
  | .array items =>
    if names.length < items.length then none
    else some (items.map some ++ List.replicate (names.length - items.length) none)
  | _ => none

/-- the fields of a record that must all be there -/
def allFields? (names : List String) (j : Json) : Option (List Json) := (fields? names j).bind fun fs => fs.mapM id

end Isolation.Json
