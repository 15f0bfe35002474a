/-
Tokens of PHP source. A token remembers where it stands and whether a closing tag `?>` came before it, which
ends a statement as a semicolon does. Blanks, comments and text outside the tags are no tokens.
-/
import Isolation.Name.WrittenName

namespace Isolation

inductive TokenKind where
  /-- an identifier or a keyword; which of the two it is depends on where it stands -/
  | word
  /-- `$name` -/
  | variable
  | number
  /-- a quoted string without interpolation -/
  | literal
  /-- the opening of a text with interpolation: quotes, backticks or a heredoc -/
  | templateOpen
  | templateClose
  /-- the opening brace of an expression inside such a text -/
  | spliceOpen
  | spliceClose
  | symbol
  | endOfFile
deriving DecidableEq, Repr

structure Token where
  kind : TokenKind
  span : Span
  /-- a word in lower case, or the symbol itself; empty for other kinds -/
  text : String
  /-- a closing tag stands between this token and the one before -/
  afterClose : Bool
deriving DecidableEq, Repr

end Isolation
