/-
A disk as a table of entries: every location that exists has one, and a location is the list of names from the top
down to it. The top itself is a directory without an entry. `Disk.get?` is the view on a disk; the other operations
are told by what they do to it.
-/

namespace Isolation

/-- the names from the top of the disk -/
abbrev Location := List String

inductive Entry where
  | file (bytes : List UInt8)
  | directory
  /-- a symbolic link -/
  | link (target : String)
deriving DecidableEq, Repr

structure Disk where
  entries : List (Location × Entry) := []
  /-- the directory that relative paths start from -/
  current : Location := []
deriving DecidableEq, Repr

namespace Disk

/-- the entry in a table -/
def find? (l : Location) : List (Location × Entry) → Option Entry
  | [] => none
  | (k, e) :: rest => if k = l then some e else find? l rest

/-- what is at a location -/
def get? (d : Disk) (l : Location) : Option Entry := if l = [] then some .directory else find? l d.entries

/-- puts an entry into a table, in place of one that is there -/
def insertEntry (l : Location) (e : Entry) : List (Location × Entry) → List (Location × Entry)
  | [] => [(l, e)]
  | (k, f) :: rest => if k = l then (k, e) :: rest else (k, f) :: insertEntry l e rest

/-- puts an entry at a location -/
def set (d : Disk) (l : Location) (e : Entry) : Disk := { d with entries := insertEntry l e d.entries }

/-- removes a location with everything below it -/
def erase (d : Disk) (l : Location) : Disk := { d with entries := d.entries.filter fun e => !l.isPrefixOf e.1 }

/-- where a location is after everything at and below `source` went to `target` -/
def relocated (source target l : Location) : Location :=
  if source.isPrefixOf l then target ++ l.drop source.length else l

/-- moves a location with everything below it; what was at the target is gone -/
def move (d : Disk) (source target : Location) : Disk :=
  { d with entries := (d.erase target).entries.map fun e => (relocated source target e.1, e.2) }

/-- the entries below a location, by what follows it -/
def below (d : Disk) (l : Location) : List (Location × Entry) :=
  d.entries.filterMap fun e =>
    if l.isPrefixOf e.1 && l.length < e.1.length then some (e.1.drop l.length, e.2) else none

def isEmptyAt (d : Disk) (l : Location) : Bool := (d.below l).isEmpty

/-- the files below a location, links not followed -/
def filesBelow (d : Disk) (l : Location) : List Location :=
  (d.below l).filterMap fun e =>
    match e.2 with
    | .file _ => some e.1
    | _ => none

end Disk

end Isolation
