/-
The blank characters of Unicode, and words between them.
-/

namespace Isolation.Text

/-- the characters with the property White_Space -/
def isBlank (c : Char) : Bool :=
  let n := c.toNat
  (0x09 ≤ n && n ≤ 0x0d) || n = 0x20 || n = 0x85 || n = 0xa0 || n = 0x1680 || (0x2000 ≤ n && n ≤ 0x200a) ||
    n = 0x2028 || n = 0x2029 || n = 0x202f || n = 0x205f || n = 0x3000

/-- the longest pieces without a blank -/
def words (s : String) : List String :=
  ((s.toList.splitOnP isBlank).filter (!·.isEmpty)).map String.ofList

/-- nothing but blanks -/
def isAllBlank (s : String) : Bool := s.toList.all isBlank

/-- The ASCII letter in the lower case of a character, with what follows it. Outside ASCII only the Kelvin sign
and the dotted capital I have an ASCII letter in their lower case. -/
def lowerChar (c : Char) : List Char :=
  if c = Char.ofNat 0x212A then ['k'] else if c = Char.ofNat 0x130 then ['i', Char.ofNat 0x307] else [c.toLower]

/-- lower case, as far as it brings ASCII letters about; other letters are left as they are -/
def lowerToAscii (s : String) : String := String.ofList (s.toList.flatMap lowerChar)

end Isolation.Text
