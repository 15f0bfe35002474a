/-
The settings of a run: the vendor prefix, packages to leave alone, literal replacements for single files, whether
packages for development count, and the extensions of source files. Settings are checked before anything is
touched.
-/
import Isolation.Failure
import Isolation.Json.Shape
import Isolation.Name.Policy
import Isolation.Path
import Isolation.Text.Blank

namespace Isolation

/-- search texts with their replacements, in order -/
abbrev Replacements := List (String × String)

structure Config where
  vendorPrefix : String := ""
  /-- packages that are never scanned or changed -/
  excludeList : List String := []
  /-- replacements by the path of the file in the vendor directory -/
  replacements : List (String × Replacements) := []
  /-- packages that are only needed for development count too -/
  requireDev : Bool := false
  extensions : List String := ["php"]
deriving DecidableEq, Repr

namespace Config

/-! ## Written form -/

def fieldNames : List String := ["prefix", "excludelist", "replacements", "require-dev", "extensions"]

/-- a field that may be absent -/
def withDefault (default : α) (read : Json → Option α) : Option Json → Option α
  | none => some default
  | some j => read j

def ofJson? (j : Json) : Option Config := do
  match ← j.fields? fieldNames with
  | [front, exclude, replacements, dev, extensions] =>
    return {
      vendorPrefix := ← withDefault "" Json.text? front
      excludeList := ← withDefault [] Json.texts? exclude
      replacements := ← withDefault [] (Json.tableOf? (Json.tableOf? Json.text?)) replacements
      requireDev := ← withDefault false Json.bool? dev
      extensions := ← withDefault ["php"] Json.texts? extensions }
  | _ => none

def toJson (c : Config) : Json :=
  .object [("prefix", .text c.vendorPrefix), ("excludelist", .array (c.excludeList.map .text)),
    ("replacements", .object (c.replacements.map fun e => (e.1, .object (e.2.map fun r => (r.1, .text r.2))))),
    ("require-dev", .bool c.requireDev), ("extensions", .array (c.extensions.map .text))]

/-- the key of the settings inside the `config` object of a project manifest -/
def manifestKey : String := "vendor-isolator"

/-- the settings in a project manifest, if it has any -/
def ofManifest (manifest : Json) : Outcome (Option Config) :=
  match (manifest.get? "config").bind (Json.get? manifestKey) with
  | none => .ok none
  | some j =>
    match ofJson? j with
    | some c => .ok (some c)
    | none => .error (Failure.badJson "unexpected value in the settings")

/-! ## Checks -/

def checkPrefix (text : String) : Outcome Unit :=
  if Text.isAllBlank text then .error (.config "You must specify a namespace prefix" (some "prefix"))
  else if !looksLikeNamespace text then
    .error (.config ("Namespace prefix must be a valid namespace, got '" ++ text ++ "'") (some "prefix"))
  else .ok ()

/-- a name of the form `vendor/name` -/
def isPackageName (s : String) : Bool := ((Text.splitAt '/' s).filter (· != "")).length == 2

def checkPackageNames (names : List String) (field : String) : Outcome Unit :=
  match names.find? (!isPackageName ·) with
  | some bad => .error (.config (field ++ " entry '" ++ bad ++ "' is not a vendor/name package name") (some field))
  | none => .ok ()

def checkExtensions (extensions : List String) : Outcome Unit :=
  if extensions.isEmpty then
    .error (.config "extensions must list at least one file extension" (some "extensions"))
  else
    match extensions.find? (Text.trimStart '.' · == "") with
    | some bad => .error (.config ("Invalid extension '" ++ bad ++ "'") (some "extensions"))
    | none => .ok ()

/-- the settings with the separators at the ends of the prefix dropped, if every check passes -/
def validate (c : Config) : Outcome Config := do
  checkPrefix c.vendorPrefix
  checkPackageNames c.excludeList "excludelist"
  checkExtensions c.extensions
  return { c with vendorPrefix := trimSeparators c.vendorPrefix }

/-! ## Use -/

def excludes (c : Config) (package : String) : Bool := c.excludeList.contains package

/-- sets the replacements of a path; of two spellings of one place the first is kept, with the later table -/
def putAt (path : String) (table : Replacements) : List (String × Replacements) → List (String × Replacements)
  | [] => [(path, table)]
  | (p, t) :: rest => if Path.same p path then (p, table) :: rest else (p, t) :: putAt path table rest

/-- the replacements by full path -/
def resolvedReplacements (c : Config) (vendorDir : String) : List (String × Replacements) :=
  c.replacements.foldl (fun acc e => putAt (Path.join vendorDir (Text.trimStart '/' e.1)) e.2 acc) []

end Config

end Isolation
