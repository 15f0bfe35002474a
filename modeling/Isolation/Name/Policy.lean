/-
The decision which names are moved under the vendor prefix. A name is moved when it has the shape of a
namespace, is a member of the whitelist, and does not already start with the prefix.
-/
import Isolation.Name.NamespaceSet

namespace Isolation

/-- the characters a namespace can hold that may be moved -/
def isNamespaceChar (c : Char) : Bool := Ascii.isWord c || c = separator

def startsWithDigit (segment : List Char) : Bool :=
  match segment with
  | [] => false
  | c :: _ => Ascii.isDigit c

/-- the shape test on characters, see `looksLikeNamespace` -/
def looksLikeNamespaceChars (cs : List Char) : Bool :=
  let segments := (cs.splitOn separator).filter (!·.isEmpty)
  let wrapped := cs.head? == some separator && cs.getLast? == some separator
  !cs.isEmpty && cs.all isNamespaceChar && cs.contains separator && !segments.isEmpty &&
    !(wrapped && segments.length == 1) && !segments.any startsWithDigit

/-- The shape of a namespace: ASCII word characters and at least one separator, no segment that starts with a
digit, not separators only, and not a single word between separators. A single word with one open side (`Word\`)
has the shape, as one-segment namespaces are asked for that way. -/
def looksLikeNamespace (s : String) : Bool := looksLikeNamespaceChars s.toList

/-- which names are moved, and under what -/
structure Policy where
  namespaces : NamespaceSet
  vendorPrefix : String
deriving DecidableEq, Repr

namespace Policy

/-- separators at the ends of the vendor prefix do not count -/
def make (namespaces : NamespaceSet) (vendorPrefix : String) : Policy := ⟨namespaces, trimSeparators vendorPrefix⟩

/-- the name already starts with the vendor prefix, the case of ASCII letters aside -/
def excludes (policy : Policy) (name : String) : Bool :=
  Text.startsWith (Ascii.lower name) (Ascii.lower policy.vendorPrefix)

/-- the name is to be moved under the vendor prefix -/
def moves (policy : Policy) (candidate : String) : Bool :=
  looksLikeNamespace candidate && !policy.excludes (trimSeparators candidate) &&
    policy.namespaces.contains (trimSeparators candidate)

/-- the segments under the vendor prefix, if the namespace they spell is to be moved -/
def prefixSegments (policy : Policy) (segments : List String) : Option (List String) :=
  if segments.isEmpty then none
  else if policy.moves (trimSeparators (joinSegments segments) ++ "\\") then
    some (splitSegments policy.vendorPrefix ++ segments)
  else none

end Policy

end Isolation
