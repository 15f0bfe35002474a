/-
Records of installed packages, and the document that lists them. Fields that are of no interest here are kept in
order and written back as they were.
-/
import Isolation.Composer.Autoload
import Isolation.Json.Printer

namespace Isolation

/-- one installed package -/
structure Package where
  name : String
  autoload : Option AutoloadMap := none
  autoloadDev : Option AutoloadMap := none
  /-- requirements as written, since an empty table may be written as a list -/
  require : Option Json := none
  /-- where the package is, seen from the directory of the document -/
  installPath : Option String := none
  extra : List (String × Json) := []

namespace Package

def fieldNames : List String := ["name", "autoload", "autoload-dev", "require", "install-path"]

/-- an optional field: absent, null, or a value that must read -/
def optional? (read : Json → Option α) : Option Json → Option (Option α)
  | none => some none
  | some .null => some none
  | some j => (read j).map some

/-- the entries that are no fields, tidied -/
def extraOf (names : List String) (entries : List (String × Json)) : List (String × Json) :=
  Entries.ofList (Json.tidyEntries (entries.filter fun e => !names.contains e.1))

/-- an object with each field at most once, and a name -/
def ofJson? : Json → Option Package
  | .object entries => do
    let name ← (← Json.field? entries "name").bind Json.text?
    let autoload ← optional? AutoloadMap.ofJson? (← Json.field? entries "autoload")
    let autoloadDev ← optional? AutoloadMap.ofJson? (← Json.field? entries "autoload-dev")
    let require ← optional? (fun j => some j.tidy) (← Json.field? entries "require")
    let installPath ← optional? Json.text? (← Json.field? entries "install-path")
    return { name, autoload, autoloadDev, require, installPath, extra := extraOf fieldNames entries }
  | _ => none

/-- a field that is written only if it is there -/
def written (key : String) (write : α → Json) : Option α → List (String × Json)
  | none => []
  | some a => [(key, write a)]

def toJson (p : Package) : Json :=
  .object ([("name", .text p.name)] ++ written "autoload" AutoloadMap.toJson p.autoload ++
    written "autoload-dev" AutoloadMap.toJson p.autoloadDev ++ written "require" id p.require ++
    written "install-path" Json.text p.installPath ++ p.extra)

/-- the names of an object of requirements -/
def namesOf : Option Json → List String
  | some (.object entries) => entries.map (·.1)
  | _ => []

def requiredNames (p : Package) : List String := namesOf p.require

/-- the autoload sections that are there, the one for production first -/
def sections (p : Package) : List AutoloadMap := p.autoload.toList ++ p.autoloadDev.toList

/-- puts mapping keys of both autoload sections under the vendor prefix -/
def prefixAutoload (policy : Policy) (p : Package) : Package :=
  { p with
    autoload := p.autoload.map (AutoloadMap.prefixNamespaces policy)
    autoloadDev := p.autoloadDev.map (AutoloadMap.prefixNamespaces policy) }

/-- how many keys that changes -/
def prefixCount (policy : Policy) (p : Package) : Nat := total (p.sections.map (AutoloadMap.prefixCount policy))

end Package

/-- the document of installed packages, in either of its two shapes -/
inductive InstalledDocument where
  /-- an object with `packages` among its fields -/
  | record (packages : List Package) (extra : List (String × Json))
  /-- a bare list -/
  | bare (packages : List Package)

namespace InstalledDocument

def packages : InstalledDocument → List Package
  | record packages _ => packages
  | bare packages => packages

def withPackages (packages : List Package) : InstalledDocument → InstalledDocument
  | record _ extra => record packages extra
  | bare _ => bare packages

def ofJson? : Json → Option InstalledDocument
  | .object entries => do
    let field ← Json.field? entries "packages"
    let packages ← field.bind (Json.listOf? Package.ofJson?)
    return record packages (Package.extraOf ["packages"] entries)
  | j => (Json.listOf? Package.ofJson? j).map bare

def toJson : InstalledDocument → Json
  | record packages extra => .object (("packages", .array (packages.map Package.toJson)) :: extra)
  | bare packages => .array (packages.map Package.toJson)

/-- the text of the document on disk: four blanks of indentation and a line break at the end -/
def render (document : InstalledDocument) : String := document.toJson.pretty 4 ++ "\n"

end InstalledDocument

end Isolation
