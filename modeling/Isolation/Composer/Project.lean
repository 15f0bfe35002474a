/-
A Composer project on disk: its manifest, its vendor directory and the record of installed packages.
-/
import Isolation.Composer.Package
import Isolation.Config.Basic
import Isolation.Disk.SourceFile
import Isolation.Json.Reader

namespace Isolation

structure Project where
  root : String
  manifest : Json
  vendorDir : String
  /-- where the record of installed packages is -/
  installedPath : String
  installed : InstalledDocument

namespace Project

/-- the vendor directory unless the manifest names another -/
def defaultVendorDir : String := "vendor"

/-- the vendor directory that a manifest names -/
def vendorDirOf (manifest : Json) : String :=
  (((manifest.get? "config").bind (Json.get? "vendor-dir")).bind Json.text?).getD defaultVendorDir

def readManifest (d : Disk) (path : String) : Outcome Json := do
  let text ← SourceFile.readText d path
  match Json.parse? text with
  | some j => return j.tidy
  | none => throw (.config ("Invalid " ++ path ++ ": malformed JSON") none)

def readInstalled (d : Disk) (path : String) : Outcome InstalledDocument := do
  let text ← SourceFile.readText d path
  match (Json.parse? text).bind InstalledDocument.ofJson? with
  | some document => return document
  | none =>
    let cause := "unexpected content"
    throw (.serialization ("Invalid " ++ path ++ ": " ++ cause) (some "installed.json") (some cause))

/-- opens the project in a directory; its manifest and its record of installed packages must be readable -/
def openAt (d : Disk) (directory : String) : Outcome Project := do
  let root ← (d.canonicalize directory).mapError (SourceFile.failed "Project directory not found" directory)
  let manifest ← readManifest d (Path.join root "composer.json")
  let vendorDir := Path.normalize (Path.join root (vendorDirOf manifest))
  let installedPath := Path.join (Path.join vendorDir "composer") "installed.json"
  let installed ← readInstalled d installedPath
  return { root, manifest, vendorDir, installedPath, installed }

/-- the settings in the manifest, if there are any -/
def config (p : Project) : Outcome (Option Config) := Config.ofManifest p.manifest

def packages (p : Project) : List Package := p.installed.packages

def withPackages (p : Project) (packages : List Package) : Project :=
  { p with installed := p.installed.withPackages packages }

/-- the first installed package of a name -/
def package? (p : Project) (name : String) : Option Package := p.packages.find? (·.name == name)

/-- where a package is installed -/
def installDir (p : Project) (package : Package) : String :=
  match package.installPath with
  | some path => Path.normalize (Path.join (Path.join p.vendorDir "composer") path)
  | none => Path.join p.vendorDir package.name

/-! ## Required packages -/

/-- the installed packages whose names are not marked -/
def unmarked (packages : List Package) (marked : List String) : List Package :=
  packages.filter fun p => !marked.contains p.name

theorem unmarked_cons (packages : List Package) (marked : List String) (name : String) :
    unmarked packages (name :: marked) = (unmarked packages marked).filter fun p => !decide (p.name = name) := by
  simp [unmarked, List.filter_filter]

theorem unmarked_lt {packages : List Package} {marked : List String} {name : String} {package : Package}
    (found : packages.find? (fun p => p.name == name) = some package) (fresh : ¬ marked.contains name = true) :
    (unmarked packages (name :: marked)).length < (unmarked packages marked).length := by
  have named : package.name = name := by simpa using List.find?_some found
  rw [unmarked_cons, List.length_filter_lt_length_iff_exists]
  refine ⟨package, ?_, by simp [named]⟩
  simpa [unmarked, named] using And.intro (List.mem_of_find?_eq_some found) (by simpa using fresh)

/-- marks the pending names that are installed, and goes on with what their packages require -/
def mark (packages : List Package) (marked pending : List String) : List String :=
  match pending with
  | [] => marked
  | name :: rest =>
    if _fresh : marked.contains name then mark packages marked rest
    else
      match _found : packages.find? (fun p => p.name == name) with
      | none => mark packages marked rest
      | some package => mark packages (name :: marked) (package.requiredNames ++ rest)
termination_by ((unmarked packages marked).length, pending.length)
decreasing_by
  · exact Prod.Lex.right _ (by simp)
  · exact Prod.Lex.right _ (by simp)
  · exact Prod.Lex.left _ _ (unmarked_lt _found _fresh)

/-- the names of the installed packages that the manifest requires, directly or through others, sorted -/
def requiredPackages (p : Project) : List String :=
  (mark p.packages [] (Package.namesOf (p.manifest.get? "require"))).mergeSort fun a b => decide (a ≤ b)

/-! ## Writing -/

/-- writes the record of installed packages, in the shape it was read in; tells whether it changed -/
def persist (p : Project) (d : Disk) : Outcome (Bool × Disk) :=
  SourceFile.writeIfChanged d p.installedPath (Utf8.encode p.installed.render)

end Project

end Isolation
