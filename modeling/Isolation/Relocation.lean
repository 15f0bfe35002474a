/-
Moves directories that an autoloader maps names onto under the path of the vendor prefix, by way of a staging path
in the vendor directory, since the target lies inside the source. Files that are loaded by their own path go back to
where they were declared.
-/
import Isolation.Composer.Package
import Isolation.Disk.Operations
import Isolation.Name.Namespace
import Isolation.Report

namespace Isolation

/-- a computation that changes a disk and may fail; changes made before a failure stay -/
abbrev Action (α : Type) := ExceptT Failure (StateM Disk) α

/-- what was done to one package -/
structure RelocationReport where
  moved : List MovedDirectory := []
  restored : List String := []
deriving DecidableEq, Repr

def RelocationReport.append (r s : RelocationReport) : RelocationReport :=
  ⟨r.moved ++ s.moved, r.restored ++ s.restored⟩

/-- where directories go -/
structure Relocator where
  vendorPrefix : Namespace
  /-- the path that a moved directory passes through -/
  staging : String
deriving DecidableEq, Repr

namespace Relocator

def make (vendorPrefix : Namespace) (vendorDir : String) : Relocator :=
  ⟨vendorPrefix, Path.join vendorDir "_isolate_tmp"⟩

/-- the path of the prefix inside a moved directory -/
def prefixPath (r : Relocator) : String := r.vendorPrefix.toPath

/-- the key starts with the segments of the prefix, the case of ASCII letters aside -/
def isPrefixed (r : Relocator) (key : String) : Bool :=
  match Namespace.parse key with
  | .ok ns => ns.startsWithIgnoringCase r.vendorPrefix
  | .error _ => false

/-- one change of the disk, with the path and what to say if it is refused -/
def attempt (path message : String) (change : Disk → Except SystemError Disk) : Action Unit := do
  match change (← get) with
  | .ok d => set d
  | .error e => throw (.relocation path message (some e.text))

/-- makes the directory around a path -/
def makeParent (path : String) : Action Unit :=
  match Path.parent? path with
  | none => pure ()
  | some parent => attempt parent "Failed to create directory" (·.makeDirectories parent)

/-- moves a directory to a place inside itself -/
def moveDirectory (r : Relocator) (source target : String) : Action Unit := do
  if (← get).exists? r.staging then
    throw (.relocation r.staging "Staging path left over from an interrupted run; remove it and retry" none)
  attempt source "Failed to move to staging" (·.rename source r.staging)
  makeParent target
  attempt target "Failed to move from staging" (·.rename r.staging target)

/-- one directory, unless it has been moved already; `moved` holds the directories moved so far, the latest first -/
def relocatePath (r : Relocator) (package installDir : String) (moved : List MovedDirectory) (path : String) :
    Action (List MovedDirectory) := do
  let source := Path.normalize (Path.join installDir (Text.trimBoth '/' path))
  let target := Path.join source r.prefixPath
  if moved.any (fun m => Path.same m.source source) || (← get).exists? target then return moved
  r.moveDirectory source target
  return ⟨package, source, target⟩ :: moved

def relocatePaths (r : Relocator) (package installDir : String) :
    List MovedDirectory → List String → Action (List MovedDirectory)
  | moved, [] => return moved
  | moved, path :: rest => do
    let moved ← r.relocatePath package installDir moved path
    r.relocatePaths package installDir moved rest

/-- where a declared file is now: in the first of the moved directories that it was in, if it is there -/
def movedPlace? (r : Relocator) (d : Disk) (declared : String) (moved : List MovedDirectory) : Option String :=
  moved.findSome? fun m =>
    (Path.relativeTo? declared m.source).bind fun rest =>
      let place := Path.join (Path.join m.source r.prefixPath) rest
      if d.exists? place then some place else none

/-- puts a file back where it was declared, if it was moved -/
def restoreFile (r : Relocator) (installDir : String) (moved : List MovedDirectory) (file : String) :
    Action (List String) := do
  let declared := Path.normalize (Path.join installDir (Text.trimStart '/' file))
  match r.movedPlace? (← get) declared moved with
  | none => return []
  | some place =>
    makeParent declared
    attempt place "Failed to restore autoloaded file" (·.rename place declared)
    return [declared]

def restoreFiles (r : Relocator) (installDir : String) (moved : List MovedDirectory) :
    List String → Action (List String)
  | [] => return []
  | file :: rest => do
    let restored ← r.restoreFile installDir moved file
    return restored ++ (← r.restoreFiles installDir moved rest)

/-- the paths of the mapping keys that carry the prefix -/
def prefixedPaths (r : Relocator) (autoload : AutoloadMap) : List String :=
  ((autoload.psr0?.getD []).filter fun e => r.isPrefixed e.1).flatMap fun e => e.2.paths

/-- Moves the directories of one autoload section, whose keys have been put under the prefix before. A directory
whose target exists was moved by an earlier run. -/
def relocate (r : Relocator) (package installDir : String) (autoload : AutoloadMap) : Action RelocationReport := do
  let moved ← r.relocatePaths package installDir [] (r.prefixedPaths autoload)
  let restored ← r.restoreFiles installDir moved.reverse autoload.files
  return ⟨moved.reverse, restored⟩

def relocateSections (r : Relocator) (package installDir : String) : List AutoloadMap → Action RelocationReport
  | [] => return {}
  | autoload :: rest => do
    let report ← r.relocate package installDir autoload
    return report.append (← r.relocateSections package installDir rest)

/-- both autoload sections of a package -/
def relocatePackage (r : Relocator) (package : Package) (installDir : String) : Action RelocationReport :=
  r.relocateSections package.name installDir package.sections

end Relocator

end Isolation
