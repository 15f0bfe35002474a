/-
One file isolated: names under the vendor prefix, then the literal replacements configured for it.
-/
import Isolation.Prefixing.Traversal
import Isolation.Source.Lowering

namespace Isolation

/-- what became of a file -/
structure PrefixedSource where
  contents : List UInt8
  /-- the contents differ from what they were -/
  mutated : Bool
  /-- how many edits were made -/
  edits : Nat
deriving DecidableEq, Repr

namespace Prefixing

/-- moves the names of a source under the vendor prefix; `path` is only named in a failure -/
def source (policy : Policy) (bytes : List UInt8) (path : String) (parser : Parser := Php.parser) :
    Outcome PrefixedSource :=
  match Php.parse bytes path parser with
  | .error f => .error f
  | .ok nodes =>
    let changes := edits policy nodes
    if changes.isEmpty then .ok ⟨bytes, false, 0⟩
    else
      match Edit.applyAll bytes changes with
      | .error f => .error f
      | .ok contents => .ok ⟨contents, contents != bytes, changes.length⟩

/-- one literal replacement, everywhere in the file; an empty text is not searched for -/
def replaceIn (contents : List UInt8) (entry : String × String) : List UInt8 :=
  Text.replaceAll (Utf8.encode entry.1) (Utf8.encode entry.2) contents

/-- the replacements in their order, each on what the one before left -/
def applyReplacements (bytes : List UInt8) (table : List (String × String)) (start : PrefixedSource) : PrefixedSource :=
  let contents := table.foldl replaceIn start.contents
  { start with contents, mutated := contents != bytes }

/-- the names moved, and the replacements made if there is a table for it -/
def sourceWith (policy : Policy) (replacements : Option (List (String × String))) (bytes : List UInt8)
    (path : String) (parser : Parser := Php.parser) : Outcome PrefixedSource :=
  match source policy bytes path parser with
  | .error f => .error (f.inFile path)
  | .ok prefixed =>
    match replacements with
    | some table => .ok (applyReplacements bytes table prefixed)
    | none => .ok prefixed

end Prefixing

end Isolation
