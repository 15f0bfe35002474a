/-
Labels and separators, the building blocks of namespace names. A label starts with an ASCII letter, an
underscore or any character outside ASCII, and goes on with those and digits. Segments are joined by `\`.
-/
import Isolation.Text.Ascii
import Isolation.Text.Search

namespace Isolation

/-- stands between the segments of a name -/
def separator : Char := '\\'

def isLabelStart (c : Char) : Bool := Ascii.isLetter c || c = '_' || !Ascii.isAscii c

def isLabelRest (c : Char) : Bool := Ascii.isWord c || !Ascii.isAscii c

def isLabelChars : List Char → Bool
  | [] => false
  | c :: cs => isLabelStart c && cs.all isLabelRest

/-- a single segment of a name -/
def isLabel (s : String) : Bool := isLabelChars s.toList

/-- the text without separators at its ends -/
def trimSeparators (s : String) : String := Text.trimBoth separator s

/-- the text cut at its separators -/
def splitSegments (s : String) : List String := Text.splitAt separator s

/-- the segments with a separator between neighbours -/
def joinSegments (segments : List String) : String := Text.joinWith separator segments

end Isolation
