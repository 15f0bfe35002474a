/-
Splitting, joining, trimming and searching of texts and byte lists, all by recursion on lists.
-/

namespace Isolation.Text

/-- `s` cut at every occurrence of `c`; never empty -/
def splitAt (c : Char) (s : String) : List String := (s.toList.splitOn c).map String.ofList

/-- the parts with `c` between neighbours -/
def joinWith (c : Char) (parts : List String) : String :=
  String.ofList (List.intercalate [c] (parts.map String.toList))

/-- the parts with `sep` between neighbours -/
def joinBy (sep : String) (parts : List String) : String :=
  String.ofList (List.intercalate sep.toList (parts.map String.toList))

/-- drops `c` from the front, as often as it is there -/
def trimStart (c : Char) (s : String) : String := String.ofList (s.toList.dropWhile (· == c))

def trimEndChars (p : Char → Bool) (cs : List Char) : List Char := (cs.reverse.dropWhile p).reverse

/-- drops `c` from both ends, as often as it is there -/
def trimBoth (c : Char) (s : String) : String :=
  String.ofList (trimEndChars (· == c) (s.toList.dropWhile (· == c)))

/-- `s` starts with `t` -/
def startsWith (s t : String) : Bool := t.toList.isPrefixOf s.toList

/-- `s` ends with `t` -/
def endsWith (s t : String) : Bool := t.toList.isSuffixOf s.toList

/-- what follows `needle` at the front of `hay` -/
def dropFront? [BEq α] : (needle hay : List α) → Option (List α)
  | [], hay => some hay
  | _ :: _, [] => none
  | n :: ns, h :: hs => if n == h then dropFront? ns hs else none

/-- `needle` occurs somewhere in `hay` -/
def occursIn [BEq α] (needle : List α) : (hay : List α) → Bool
  | [] => needle.isEmpty
  | h :: hs => needle.isPrefixOf (h :: hs) || occursIn needle hs

/-- `needle` occurs somewhere in `hay` -/
def containsText (hay needle : String) : Bool := occursIn needle.toList hay.toList

/-- scans for `needle` from the left; `skip` counts the elements of an occurrence still to be passed over -/
def replaceScan [BEq α] (needle new : List α) (skip : Nat) : List α → List α
  | [] => []
  | h :: hs =>
    match skip with
    | k + 1 => replaceScan needle new k hs
    | 0 =>
      if needle.isPrefixOf (h :: hs) then new ++ replaceScan needle new (needle.length - 1) hs
      else h :: replaceScan needle new 0 hs

/-- every occurrence of a non-empty `needle`, leftmost first and without overlap, becomes `new` -/
def replaceAll [BEq α] (needle new hay : List α) : List α :=
  if needle.isEmpty then hay else replaceScan needle new 0 hay

/-- every occurrence of a non-empty `needle` in a text becomes `new` -/
def replaceText (s needle new : String) : String :=
  String.ofList (replaceAll needle.toList new.toList s.toList)

end Isolation.Text
