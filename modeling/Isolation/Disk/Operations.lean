/-
Reading and changing a disk by paths, each operation refused for the same reasons as on a real one.
-/
import Isolation.Disk.Lookup
import Isolation.Path
import Isolation.Text.Utf8

namespace Isolation.Disk

/-- the text of an absolute path -/
def pathOf (l : Location) : String := "/" ++ Text.joinWith '/' l

/-! ## Questions -/

/-- what is at a path, links followed -/
def entryAt? (d : Disk) (path : String) : Option Entry :=
  match d.locate true path with
  | .ok (.found _ entry) => some entry
  | _ => none

def exists? (d : Disk) (path : String) : Bool := (d.entryAt? path).isSome

def isDirectory (d : Disk) (path : String) : Bool := d.entryAt? path == some .directory

def isFile (d : Disk) (path : String) : Bool :=
  match d.entryAt? path with
  | some (.file _) => true
  | _ => false

/-- opens a path for reading: the bytes of a file, or nothing for a directory -/
def openAt (d : Disk) (path : String) : Except SystemError (Option (List UInt8)) :=
  match d.locate true path with
  | .error e => .error e
  | .ok (.found _ (.file bytes)) => .ok (some bytes)
  | .ok (.found _ _) => .ok none
  | .ok (.missing _ _) => .error .notFound

/-- the bytes of a file -/
def read (d : Disk) (path : String) : Except SystemError (List UInt8) :=
  match d.openAt path with
  | .error e => .error e
  | .ok (some bytes) => .ok bytes
  | .ok none => .error .isDirectory

/-- the text of a file -/
def readText (d : Disk) (path : String) : Except SystemError String :=
  match d.read path with
  | .error e => .error e
  | .ok bytes =>
    match Utf8.decode? bytes with
    | some s => .ok s
    | none => .error .notUtf8

/-- the absolute path without links -/
def canonicalize (d : Disk) (path : String) : Except SystemError String :=
  match d.locate true path with
  | .error e => .error e
  | .ok (.found l _) => .ok (pathOf l)
  | .ok (.missing _ _) => .error .notFound

/-- the paths of all files at or below a path; links below it are not followed -/
def filesAt (d : Disk) (root : String) : List String :=
  match d.locate false root with
  | .ok (.found _ (.file _)) => [root]
  | .ok (.found _ _) =>
    match d.locate true root with
    | .ok (.found l .directory) => (d.filesBelow l).map fun rest => Path.join root (Text.joinWith '/' rest)
    | _ => []
  | _ => []

/-! ## Changes -/

/-- writes a file, in place of what it held -/
def write (d : Disk) (path : String) (bytes : List UInt8) : Except SystemError Disk :=
  match d.locate true path with
  | .error e => .error e
  | .ok (.found l (.file _)) => .ok (d.set l (.file bytes))
  | .ok (.found _ _) => .error .isDirectory
  | .ok (.missing l slash) => if slash then .error .isDirectory else .ok (d.set l (.file bytes))

/-- makes one directory -/
def makeDirectory (d : Disk) (path : String) : Except SystemError Disk :=
  match d.locate false path with
  | .error e => .error e
  | .ok (.found _ _) => .error .alreadyExists
  | .ok (.missing l _) => .ok (d.set l .directory)

/-- makes a directory, and those around it that are missing; `fuel` bounds their number -/
def makeDirectoriesLoop : (fuel : Nat) → Disk → String → Except SystemError Disk
  | 0, _, _ => .error .notFound
  | fuel + 1, d, path =>
    if path = "" then .ok d
    else
      match d.makeDirectory path with
      | .ok d => .ok d
      | .error .notFound =>
        match Path.parent? path with
        | none => .error .notFound
        | some parent =>
          match makeDirectoriesLoop fuel d parent with
          | .error e => .error e
          | .ok d =>
            match d.makeDirectory path with
            | .ok d => .ok d
            | .error e => if d.isDirectory path then .ok d else .error e
      | .error e => if d.isDirectory path then .ok d else .error e

/-- makes a directory, and those around it that are missing -/
def makeDirectories (d : Disk) (path : String) : Except SystemError Disk :=
  makeDirectoriesLoop ((Path.components path).length + 1) d path

/-- whether an entry can go where another one is -/
def replaces (d : Disk) (entry : Entry) (target : Place) : Except SystemError Unit :=
  match entry, target with
  | .directory, .missing _ _ => .ok ()
  | .directory, .found l .directory => if d.isEmptyAt l then .ok () else .error .notEmpty
  | .directory, .found _ _ => .error .notDirectory
  | _, .missing _ slash => if slash then .error .notDirectory else .ok ()
  | _, .found _ .directory => .error .isDirectory
  | _, .found _ _ => .ok ()

/-- Renames a file or directory, with everything below it. A directory does not go into itself, nor anything onto a
directory that it is in. -/
def rename (d : Disk) (source target : String) : Except SystemError Disk :=
  match d.locate false source, d.locate false target with
  | .error e, _ => .error e
  | .ok (.missing _ _), .error e => .error e
  | .ok (.missing _ _), .ok _ => .error .notFound
  | .ok (.found _ _), .error e => .error e
  | .ok (.found p entry), .ok place =>
    let q := place.location
    if p = q then .ok d
    else if p.isPrefixOf q then .error .invalidArgument
    else if q.isPrefixOf p then .error .notEmpty
    else
      match d.replaces entry place with
      | .error e => .error e
      | .ok () => .ok (d.move p q)

/-- removes a path with everything below it -/
def remove (d : Disk) (path : String) : Except SystemError Disk :=
  match d.locate false path with
  | .error e => .error e
  | .ok (.found l _) => .ok (d.erase l)
  | .ok (.missing _ _) => .error .notFound

/-- makes a link -/
def makeLink (d : Disk) (path target : String) : Except SystemError Disk :=
  match d.locate false path with
  | .error e => .error e
  | .ok (.found _ _) => .error .alreadyExists
  | .ok (.missing l _) => .ok (d.set l (.link target))

end Isolation.Disk
