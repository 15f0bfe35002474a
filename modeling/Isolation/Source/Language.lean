/-
The languages whose sources can be read.
-/
import Isolation.Failure
import Isolation.Text.Ascii

namespace Isolation

inductive Language where
  | php
deriving DecidableEq, Repr

/-- the language of a key, the case of ASCII letters aside -/
def Language.ofKey (key : String) : Outcome Language :=
  if ["php", "phtml", "inc"].contains (Ascii.lower key) then .ok .php
  else .error (.parse key ("No tree-sitter grammar for: " ++ key) none none none)

end Isolation
