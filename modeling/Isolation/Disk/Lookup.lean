/-
From the text of a path to a location. Names are looked up one after the other; `..` goes up from where the names
before it led, and a link is replaced by its target. The last name need not exist.
-/
import Isolation.Disk.Basic
import Isolation.Text.Search

namespace Isolation

/-- the reasons of the system for a refusal -/
inductive SystemError where
  | notFound
  | alreadyExists
  | notDirectory
  | isDirectory
  | invalidArgument
  | notEmpty
  | tooManyLinks
  | notUtf8
deriving DecidableEq, Repr

/-- the system's wording -/
def SystemError.text : SystemError → String
  | notFound => "No such file or directory (os error 2)"
  | alreadyExists => "File exists (os error 17)"
  | notDirectory => "Not a directory (os error 20)"
  | isDirectory => "Is a directory (os error 21)"
  | invalidArgument => "Invalid argument (os error 22)"
  | notEmpty => "Directory not empty (os error 39)"
  | tooManyLinks => "Too many levels of symbolic links (os error 40)"
  | notUtf8 => "stream did not contain valid UTF-8"

/-- what a path leads to -/
inductive Place where
  | found (location : Location) (entry : Entry)
  /-- nothing is there, but the directory around it is; `slash` if a separator follows the last name -/
  | missing (location : Location) (slash : Bool)
deriving DecidableEq, Repr

def Place.location : Place → Location
  | found l _ => l
  | missing l _ => l

namespace Disk

/-- how many links a path may lead through -/
def linkLimit : Nat := 40

/-- Follows names from the directory `here` on. Behind a link `next` goes on, with the directory that its target starts
from. A link in last place is followed only if asked for, or if a separator follows its name. -/
def walkNames (d : Disk) (follow : Bool) (next : Location → List String → Except SystemError Place) (here : Location) :
    List String → Except SystemError Place
  | [] => .ok (.found here .directory)
  | name :: rest =>
    if name = "" || name = "." then walkNames d follow next here rest
    else if name = ".." then walkNames d follow next here.dropLast rest
    else
      match d.get? (here ++ [name]) with
      | none =>
        if rest.all (· = "") then .ok (.missing (here ++ [name]) (!rest.isEmpty)) else .error .notFound
      | some .directory => walkNames d follow next (here ++ [name]) rest
      | some (.file bytes) =>
        if rest.isEmpty then .ok (.found (here ++ [name]) (.file bytes)) else .error .notDirectory
      | some (.link target) =>
        if rest.isEmpty && !follow then .ok (.found (here ++ [name]) (.link target))
        else next (if Text.startsWith target "/" then [] else here) (Text.splitAt '/' target ++ rest)

/-- Follows names through at most so many links. -/
def walk (d : Disk) (follow : Bool) : (links : Nat) → Location → List String → Except SystemError Place
  | 0 => walkNames d follow fun _ _ => .error .tooManyLinks
  | links + 1 => walkNames d follow (walk d follow links)

/-- what a path leads to -/
def locate (d : Disk) (follow : Bool) (path : String) : Except SystemError Place :=
  if path = "" then .error .notFound
  else walk d follow linkLimit (if Text.startsWith path "/" then [] else d.current) (Text.splitAt '/' path)

end Disk

end Isolation
