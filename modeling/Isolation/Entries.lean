/-
Tables of named values in the order in which the names first came up.
-/

namespace Isolation.Entries

variable {α : Type}

/-- sets the value of a key: in place if the key is there, else at the end -/
def put (key : String) (value : α) : List (String × α) → List (String × α)
  | [] => [(key, value)]
  | (k, v) :: rest => if k = key then (k, value) :: rest else (k, v) :: put key value rest

/-- entries with distinct keys: the last value of a key at the place of its first -/
def ofList (entries : List (String × α)) : List (String × α) :=
  entries.foldl (fun acc e => put e.1 e.2 acc) []

def get? (key : String) : List (String × α) → Option α
  | [] => none
  | (k, v) :: rest => if k = key then some v else get? key rest

end Isolation.Entries
