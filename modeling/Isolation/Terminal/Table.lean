/-
Tables drawn with lines: round corners, a rule below the header, one blank on either side of a cell. A cell may hold
several lines; a column is as wide as its widest line.
-/
import Isolation.Text.Search
import Isolation.Text.Width

namespace Isolation.Terminal

/-- a header and rows of as many cells -/
structure Table where
  header : List String
  rows : List (List String)
deriving DecidableEq, Repr

namespace Table

/-- the lines of a cell -/
def cellLines (cell : String) : List String := Text.splitAt '\n' cell

def cellWidth (cell : String) : Nat := ((cellLines cell).map Text.width).foldl max 0

/-- the width of each column -/
def widths (t : Table) : List Nat :=
  t.rows.foldl (fun acc row => acc.zipWith max (row.map cellWidth)) (t.header.map cellWidth)

/-- the text with blanks behind it up to a width -/
def padTo (width : Nat) (s : String) : String := s ++ String.ofList (List.replicate (width - Text.width s) ' ')

/-- a horizontal line with the given corner, crossing and end -/
def rule (start crossing stop : String) (widths : List Nat) : String :=
  start ++ Text.joinBy crossing (widths.map fun w => String.ofList (List.replicate (w + 2) '─')) ++ stop

/-- one printed line of a row; a cell with fewer lines is blank there -/
def rowLine (widths : List Nat) (cells : List (List String)) (i : Nat) : String :=
  "│" ++ Text.joinBy "│" (widths.zipWith (fun w cell => " " ++ padTo w (cell.getD i "") ++ " ") cells) ++ "│"

/-- the printed lines of a row -/
def rowLines (widths : List Nat) (row : List String) : List String :=
  let cells := row.map cellLines
  (List.range ((cells.map List.length).foldl max 1)).map (rowLine widths cells)

/-- the printed lines of a table -/
def lines (t : Table) : List String :=
  let ws := t.widths
  [rule "╭" "┬" "╮" ws] ++ rowLines ws t.header ++ [rule "├" "┼" "┤" ws] ++ t.rows.flatMap (rowLines ws) ++
    [rule "╰" "┴" "╯" ws]

end Table

end Isolation.Terminal
