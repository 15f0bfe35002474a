/-
Names as they are written in code: `A\B`, `\A\B` from the root, `namespace\A` relative to the current namespace.
-/
import Isolation.Name.Label
import Isolation.Text.Utf8

namespace Isolation

/-- a range of byte offsets, the end not included -/
structure Span where
  start : Nat
  stop : Nat
deriving DecidableEq, Repr

/-- a name in a source text -/
structure WrittenName where
  /-- where it stands, with a leading separator or `namespace\` -/
  span : Span
  /-- the source text of `span` -/
  text : String
  /-- written with a leading separator -/
  rooted : Bool
  /-- written with a leading `namespace\` -/
  relative : Bool
  /-- the segments after any leading separator or `namespace\` -/
  segments : List String
deriving DecidableEq, Repr

namespace WrittenName

/-- the leading keyword of a relative name, with its separator -/
def relativeMarker : List Char := "namespace\\".toList

/-- the characters after the relative marker, which may be written in any case -/
def afterMarker? (cs : List Char) : Option (List Char) :=
  if (cs.take relativeMarker.length).map Char.toLower = relativeMarker then some (cs.drop relativeMarker.length)
  else none

/-- reads a name: an optional leading separator or `namespace\`, then labels with single separators between -/
def parse? (text : String) (span : Span) : Option WrittenName :=
  let build (rooted relative : Bool) (rest : List Char) : Option WrittenName :=
    let segments := (rest.splitOn separator).map String.ofList
    if segments.all isLabel then some ⟨span, text, rooted, relative, segments⟩ else none
  match text.toList with
  | '\\' :: rest => build true false rest
  | cs =>
    match afterMarker? cs with
    | some rest => build false true rest
    | none => build false false cs

def isQualified (n : WrittenName) : Bool := n.segments.length > 1

/-- the segment that an alias would bind -/
def firstSegment (n : WrittenName) : String := n.segments.headD ""

/-- every segment but the last -/
def namespacePart (n : WrittenName) : List String := n.segments.dropLast

/-- the class, function or constant -/
def lastSegment (n : WrittenName) : String := n.segments.getLastD ""

theorem namespacePart_append_lastSegment {n : WrittenName} (h : n.segments ≠ []) :
    n.namespacePart ++ [n.lastSegment] = n.segments := by
  rw [namespacePart, lastSegment, List.getLastD_eq_getLast?, List.getLast?_eq_some_getLast h]
  exact List.dropLast_concat_getLast h

end WrittenName

end Isolation
