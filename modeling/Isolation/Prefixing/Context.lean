/-
What a walk over a file carries along: the scope it is in, and the aliases that imports have bound so far.
-/
import Isolation.Entries
import Isolation.Name.Namespace

namespace Isolation

/-- names bound by `as`, each with what it stands for, in the order they were first bound -/
structure AliasTable where
  entries : List (String × String) := []
deriving DecidableEq, Repr

namespace AliasTable

/-- binds an alias; an alias bound before is bound anew -/
def bind (table : AliasTable) (name target : String) : AliasTable := ⟨Entries.put name target table.entries⟩

/-- the exact name is bound, case included -/
def isAlias (table : AliasTable) (name : String) : Bool := table.entries.any (·.1 == name)

def size (table : AliasTable) : Nat := table.entries.length

end AliasTable

/-- where a walk over a file stands -/
structure Context where
  scope : Scope := .global
  aliases : AliasTable := {}
deriving DecidableEq, Repr

end Isolation
