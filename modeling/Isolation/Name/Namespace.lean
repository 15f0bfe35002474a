/-
Namespaces such as `Vendor\Package\Sub`, and the scope that code stands in.
-/
import Isolation.Failure
import Isolation.Name.Label

namespace Isolation

/-- a namespace: its segments, outermost first -/
structure Namespace where
  segments : List String
deriving DecidableEq, Repr

namespace Namespace

def emptyFailure : Failure := .validation "A namespace needs at least one segment" none

def segmentFailure (bad : String) : Failure := .validation ("Invalid namespace segment '" ++ bad ++ "'") none

/-- a namespace of these segments: at least one, and each a label -/
def ofSegments (segments : List String) : Outcome Namespace :=
  if segments.isEmpty then .error emptyFailure
  else
    match segments.find? (fun s => !isLabel s) with
    | some bad => .error (segmentFailure bad)
    | none => .ok ⟨segments⟩

/-- reads a namespace; separators at the ends do not count -/
def parse (s : String) : Outcome Namespace := ofSegments (splitSegments (trimSeparators s))

/-- the namespace as it is written in code -/
def display (n : Namespace) : String := joinSegments n.segments

/-- the namespace as a relative directory -/
def toPath (n : Namespace) : String := Text.joinWith '/' n.segments

/-- `n` begins with the segments of `other`, the case of ASCII letters aside -/
def startsWithIgnoringCase (n other : Namespace) : Bool :=
  decide (other.segments.length ≤ n.segments.length) &&
    (n.segments.zip other.segments).all fun (ours, theirs) => Ascii.sameIgnoringCase ours theirs

/-- segment by segment, by code points -/
def compareSegments : List String → List String → Ordering
  | [], [] => .eq
  | [], _ :: _ => .lt
  | _ :: _, [] => .gt
  | a :: as, b :: bs => if a = b then compareSegments as bs else if a < b then .lt else .gt

instance : Ord Namespace := ⟨fun a b => compareSegments a.segments b.segments⟩

end Namespace

/-- where code stands: outside every named namespace, or inside one -/
inductive Scope where
  | global
  | inside (namespace_ : Namespace)
deriving DecidableEq, Repr

def Scope.isGlobal : Scope → Bool
  | .global => true
  | .inside _ => false

end Isolation
