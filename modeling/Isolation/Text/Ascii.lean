/-
ASCII character classes and case. Letters outside ASCII have no case here and belong to no class.
-/

namespace Isolation.Ascii

def isLetter (c : Char) : Bool := ('a' ≤ c && c ≤ 'z') || ('A' ≤ c && c ≤ 'Z')

def isDigit (c : Char) : Bool := '0' ≤ c && c ≤ '9'

def isHexDigit (c : Char) : Bool := isDigit c || ('a' ≤ c && c ≤ 'f') || ('A' ≤ c && c ≤ 'F')

/-- a letter, a digit or an underscore -/
def isWord (c : Char) : Bool := isLetter c || isDigit c || c = '_'

def isAscii (c : Char) : Bool := c.toNat < 128

/-- the text with its ASCII capitals made small -/
def lower (s : String) : String := String.ofList (s.toList.map Char.toLower)

/-- equal but for the case of ASCII letters -/
def sameIgnoringCase (s t : String) : Bool := lower s == lower t

end Isolation.Ascii
