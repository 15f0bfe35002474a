/-
Edits of a source text. An edit replaces a range of bytes and says what it expects to find there; the edits of
one text are made all at once, and everything outside their ranges is kept byte for byte.
-/
import Isolation.Failure
import Isolation.Name.WrittenName

namespace Isolation

/-- one replacement -/
structure Edit where
  span : Span
  /-- what stands at `span` now -/
  expected : String
  /-- what is to stand there -/
  replacement : String
deriving DecidableEq, Repr

namespace Edit

/-- puts `text` at an offset -/
def insertion (offset : Nat) (text : String) : Edit := ⟨⟨offset, offset⟩, "", text⟩

/-- changes nothing -/
def isNoop (e : Edit) : Bool := e.expected == e.replacement

/-- the order of the edits in the text -/
def before (a b : Edit) : Bool :=
  a.span.start < b.span.start || (a.span.start == b.span.start && a.span.stop ≤ b.span.stop)

/-- the bytes of a range, `none` if it is not inside the source -/
def slice? (source : List UInt8) (span : Span) : Option (List UInt8) :=
  if span.start ≤ span.stop && span.stop ≤ source.length then
    some ((source.drop span.start).take (span.stop - span.start))
  else none

def overlapFailure (e : Edit) : Failure := .internal ("Overlapping edits at byte " ++ toString e.span.start) none

def rangeText (e : Edit) : String := toString e.span.start ++ ".." ++ toString e.span.stop

def outsideFailure (e : Edit) : Failure :=
  .internal ("Edit range " ++ e.rangeText ++ " is outside the source") none

def staleFailure (e : Edit) (found : List UInt8) : Failure :=
  .internal ("Edit at " ++ e.rangeText ++ " expected '" ++ e.expected ++ "' but found '" ++
    Utf8.decodeLossy found ++ "'") none

/-- makes edits that are in order, from `cursor` on -/
def applyFrom (source : List UInt8) (cursor : Nat) : List Edit → Outcome (List UInt8)
  | [] => .ok (source.drop cursor)
  | e :: rest =>
    if e.span.start < cursor then .error e.overlapFailure
    else
      match slice? source e.span with
      | none => .error e.outsideFailure
      | some found =>
        if found ≠ Utf8.encode e.expected then .error (e.staleFailure found)
        else
          match applyFrom source e.span.stop rest with
          | .error f => .error f
          | .ok tail =>
            .ok ((source.drop cursor).take (e.span.start - cursor) ++ Utf8.encode e.replacement ++ tail)

/-- the edits that change something, in the order of the text; edits of one range stay in the order given -/
def ordered (edits : List Edit) : List Edit := (edits.filter (!·.isNoop)).mergeSort before

/-- makes all edits at once -/
def applyAll (source : List UInt8) (edits : List Edit) : Outcome (List UInt8) :=
  applyFrom source 0 (ordered edits)

end Edit

end Isolation
