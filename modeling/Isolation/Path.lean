/-
Paths as texts with `/` between components. Two paths are the same place when their components are; the text is
kept as it was put together, since it is what reports show.
-/
import Isolation.Text.Search

namespace Isolation.Path

/-- a component of a path -/
inductive Component where
  | root
  /-- a leading `.` of a relative path; others are no components -/
  | current
  | parent
  | normal (name : String)
deriving DecidableEq, Repr

def isAbsolute (p : String) : Bool := Text.startsWith p "/"

/-- a piece between separators; empty pieces and `.` are no components -/
def piece? (s : String) : Option Component :=
  if s = "" || s = "." then none else if s = ".." then some .parent else some (.normal s)

def components (p : String) : List Component :=
  let pieces := Text.splitAt '/' p
  if isAbsolute p then .root :: pieces.filterMap piece?
  else if pieces.head? = some "." then .current :: (pieces.drop 1).filterMap piece?
  else pieces.filterMap piece?

/-- the text of components -/
def render : List Component → String
  | [] => ""
  | .root :: rest => "/" ++ Text.joinWith '/' (rest.map text)
  | cs => Text.joinWith '/' (cs.map text)
where
  text : Component → String
    | .root => ""
    | .current => "."
    | .parent => ".."
    | .normal name => name

/-- `q` seen from `p`; an absolute `q` is itself -/
def join (p q : String) : String :=
  if isAbsolute q then q
  else if p = "" || Text.endsWith p "/" then p ++ q
  else p ++ "/" ++ q

/-- one component behind a normal form, which is held with its last component first -/
def normalizeStep (stack : List Component) (c : Component) : List Component :=
  match c with
  | .current => stack
  | .parent =>
    match stack with
    | .normal _ :: below => below
    | _ => if stack.contains .root then stack else .parent :: stack
  | other => other :: stack

def normalizeComponents (cs : List Component) : List Component := (cs.foldl normalizeStep []).reverse

/-- the path without `.` and, as far as that can be done on the text alone, without `..` -/
def normalize (p : String) : String := render (normalizeComponents (components p))

/-- the last component, if it is a name -/
def fileName? (p : String) : Option String :=
  match (components p).getLast? with
  | some (.normal name) => some name
  | _ => none

/-- what follows the last point of the file name, unless the point is its first character -/
def extension? (p : String) : Option String :=
  (fileName? p).bind fun name =>
    let behind := name.toList.reverse.takeWhile (· ≠ '.')
    if behind.length + 1 < name.toList.length then some (String.ofList behind.reverse) else none

/-- the path one component up -/
def parent? (p : String) : Option String :=
  match (components p).reverse with
  | [] => none
  | .root :: _ => none
  | _ :: above => some (render above.reverse)

/-- what is left of `p` behind the components of `base` -/
def relativeTo? (p base : String) : Option String :=
  (Text.dropFront? (components base) (components p)).map render

/-- where a component comes in the order of paths: root, `.`, `..`, then names by code point -/
def Component.key : Component → Nat × String
  | .root => (0, "")
  | .current => (1, "")
  | .parent => (2, "")
  | .normal name => (3, name)

/-- the order of paths, component by component -/
def componentsLe : List Component → List Component → Bool
  | [], _ => true
  | _ :: _, [] => false
  | a :: as, b :: bs =>
    if a = b then componentsLe as bs
    else a.key.1 < b.key.1 || (a.key.1 == b.key.1 && a.key.2 < b.key.2)

def le (p q : String) : Bool := componentsLe (components p) (components q)

/-- the same place -/
def same (p q : String) : Bool := components p == components q

end Isolation.Path
