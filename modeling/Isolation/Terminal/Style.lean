/-
Colours and weights of text on a terminal, by the escape sequences that switch them on and off.
-/

namespace Isolation.Terminal

inductive Colour where
  | red
  | cyan
  | brightGreen
  | brightYellow
  | brightBlue
deriving DecidableEq, Repr

/-- the number that switches the colour on -/
def Colour.number : Colour → String
  | red => "31"
  | cyan => "36"
  | brightGreen => "92"
  | brightYellow => "93"
  | brightBlue => "94"

def escape (number : String) : String := "\x1b[" ++ number ++ "m"

def coloured (c : Colour) (s : String) : String := escape c.number ++ s ++ escape "39"

def bold (s : String) : String := escape "1" ++ s ++ escape "0"

def dimmed (s : String) : String := escape "2" ++ s ++ escape "0"

end Isolation.Terminal
