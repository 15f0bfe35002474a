/-
Autoload sections of package records: strategies in order, each a mapping from keys to paths, a list of paths, or
something else that is kept as it is. Prefixing puts the vendor prefix in front of the mapping keys that name a
moved namespace; a key keeps its place, and all of its own text.
-/
import Isolation.Json.Shape
import Isolation.Name.Policy
import Isolation.Number.Total

namespace Isolation

/-- the value of a mapping key -/
inductive AutoloadPath where
  | single (path : String)
  | several (paths : List String)
deriving DecidableEq, Repr

namespace AutoloadPath

/-- the paths in order -/
def paths : AutoloadPath → List String
  | single path => [path]
  | several paths => paths

def ofJson? : Json → Option AutoloadPath
  | .text path => some (single path)
  | j => j.texts?.map several

def toJson : AutoloadPath → Json
  | single path => .text path
  | several paths => .array (paths.map .text)

end AutoloadPath

/-- one autoload strategy -/
inductive AutoloadEntry where
  | mapping (keys : List (String × AutoloadPath))
  | paths (paths : List String)
  | other (value : Json)

namespace AutoloadEntry

/-- the first reading that fits: a mapping, a list of paths, any value -/
def ofJson (j : Json) : AutoloadEntry :=
  match j.tableOf? AutoloadPath.ofJson? with
  | some keys => mapping keys
  | none =>
    match j.texts? with
    | some ps => paths ps
    | none => other j.tidy

def toJson : AutoloadEntry → Json
  | mapping keys => .object (keys.map fun e => (e.1, e.2.toJson))
  | paths ps => .array (ps.map .text)
  | other value => value

/-- the new text of a mapping key that names a moved namespace -/
def prefixedKey? (policy : Policy) (key : String) : Option String :=
  if policy.moves (trimSeparators key ++ "\\") then some (policy.vendorPrefix ++ "\\" ++ key) else none

/-- a mapping with its keys under the prefix; of keys that become equal the last value stands at the first place -/
def prefixKeys (policy : Policy) (keys : List (String × AutoloadPath)) : List (String × AutoloadPath) :=
  Entries.ofList (keys.map fun e => ((prefixedKey? policy e.1).getD e.1, e.2))

/-- how many keys of a mapping are put under the prefix -/
def countPrefixed (policy : Policy) (keys : List (String × AutoloadPath)) : Nat :=
  (keys.filter fun e => (prefixedKey? policy e.1).isSome).length

def prefixNamespaces (policy : Policy) : AutoloadEntry → AutoloadEntry
  | mapping keys => mapping (prefixKeys policy keys)
  | entry => entry

def prefixCount (policy : Policy) : AutoloadEntry → Nat
  | mapping keys => countPrefixed policy keys
  | _ => 0

end AutoloadEntry

/-- an autoload section -/
structure AutoloadMap where
  strategies : List (String × AutoloadEntry) := []

namespace AutoloadMap

/-- an object of strategies; any list reads as the empty section -/
def ofJson? : Json → Option AutoloadMap
  | .object entries => some ⟨Entries.ofList (entries.map fun e => (e.1, AutoloadEntry.ofJson e.2))⟩
  | .array _ => some ⟨[]⟩
  | _ => none

def toJson (map : AutoloadMap) : Json := .object (map.strategies.map fun e => (e.1, e.2.toJson))

def isEmpty (map : AutoloadMap) : Bool := map.strategies.isEmpty

/-- puts mapping keys under the vendor prefix, in every strategy -/
def prefixNamespaces (policy : Policy) (map : AutoloadMap) : AutoloadMap :=
  ⟨map.strategies.map fun e => (e.1, e.2.prefixNamespaces policy)⟩

/-- how many keys that changes -/
def prefixCount (policy : Policy) (map : AutoloadMap) : Nat :=
  total (map.strategies.map fun e => e.2.prefixCount policy)

/-- the `psr-0` mapping, if there is one -/
def psr0? (map : AutoloadMap) : Option (List (String × AutoloadPath)) :=
  match Entries.get? "psr-0" map.strategies with
  | some (.mapping keys) => some keys
  | _ => none

/-- the `files` list -/
def files (map : AutoloadMap) : List String :=
  match Entries.get? "files" map.strategies with
  | some (.paths ps) => ps
  | _ => []

end AutoloadMap

end Isolation
