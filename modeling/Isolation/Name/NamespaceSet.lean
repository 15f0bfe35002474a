/-
Sets of namespace names, kept sorted by code point and without repetition. Membership is exact, on the text
without separators at its ends. Closing a set adds every ancestor of every member.
-/
import Isolation.Name.Label

namespace Isolation

/-- inserts into a sorted list, keeping it sorted; a text already there is not repeated -/
def insertSorted (s : String) : List String → List String
  | [] => [s]
  | t :: ts => if s = t then t :: ts else if s < t then s :: t :: ts else t :: insertSorted s ts

/-- names of namespaces, sorted and distinct -/
structure NamespaceSet where
  names : List String := []
deriving DecidableEq, Repr

namespace NamespaceSet

def empty : NamespaceSet := {}

/-- adds the texts as they are -/
def addAll (set : NamespaceSet) (texts : List String) : NamespaceSet :=
  ⟨texts.foldl (fun names s => insertSorted s names) set.names⟩

/-- the texts as they are, sorted and without repetition -/
def ofTexts (texts : List String) : NamespaceSet := empty.addAll texts

/-- exact membership, separators at the ends aside -/
def contains (set : NamespaceSet) (s : String) : Bool := set.names.contains (trimSeparators s)

/-- adds a name without separators at its ends; a name of separators only is not added -/
def insert (set : NamespaceSet) (s : String) : NamespaceSet :=
  if trimSeparators s = "" then set else ⟨insertSorted (trimSeparators s) set.names⟩

/-- `insert` would add something -/
def isNew (set : NamespaceSet) (s : String) : Bool :=
  trimSeparators s != "" && !set.names.contains (trimSeparators s)

def insertAll (set : NamespaceSet) (texts : List String) : NamespaceSet := texts.foldl insert set

def union (set other : NamespaceSet) : NamespaceSet := set.addAll other.names

/-- every text got by cutting `s` at one of its separators, shortest first, but for the empty one -/
def ancestors (s : String) : List String :=
  let parts := splitSegments s
  ((List.range (parts.length - 1)).map fun k => joinSegments (parts.take (k + 1))).filter (· != "")

/-- the set with every ancestor of every member -/
def closeOverAncestors (set : NamespaceSet) : NamespaceSet := set.addAll (set.names.flatMap ancestors)

def size (set : NamespaceSet) : Nat := set.names.length

def isEmpty (set : NamespaceSet) : Bool := set.names.isEmpty

end NamespaceSet

end Isolation
