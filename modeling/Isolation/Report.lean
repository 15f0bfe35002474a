/-
What a run reports: failures that were passed over, directories moved, files changed. Reports are read and written
as JSON records.
-/
import Isolation.Failure
import Isolation.Json.Shape
import Isolation.Name.NamespaceSet
import Isolation.Number.Total

namespace Isolation

/-- the part of a run in which something was passed over -/
inductive Stage where
  | discovery
  | prefixing
  | relocation
  | autoloadCache
deriving DecidableEq, Repr

namespace Stage

/-- the name in written reports -/
def name : Stage → String
  | discovery => "discovery"
  | prefixing => "rewrite"
  | relocation => "relocation"
  | autoloadCache => "autoload-cache"

/-- the name in tables -/
def title : Stage → String
  | discovery => "Discovery"
  | prefixing => "Rewrite"
  | relocation => "Relocation"
  | autoloadCache => "AutoloadCache"

def ofName? (s : String) : Option Stage :=
  [discovery, prefixing, relocation, autoloadCache].find? (·.name == s)

/-- a name, or an object with the name as its only key and null as its value -/
def ofJson? : Json → Option Stage
  | .text s => ofName? s
  | .object [(s, .null)] => ofName? s
  | _ => none

end Stage

/-- something that was passed over -/
structure Skipped where
  path : String
  stage : Stage
  message : String
deriving DecidableEq, Repr

namespace Skipped

def ofFailure (path : String) (stage : Stage) (f : Failure) : Skipped := ⟨path, stage, f.chain⟩

def ofJson? (j : Json) : Option Skipped := do
  match ← j.allFields? ["path", "stage", "message"] with
  | [path, stage, message] => return ⟨← path.text?, ← Stage.ofJson? stage, ← message.text?⟩
  | _ => none

def toJson (s : Skipped) : Json :=
  .object [("path", .text s.path), ("stage", .text s.stage.name), ("message", .text s.message)]

end Skipped

/-- a directory that was moved under the path of the prefix -/
structure MovedDirectory where
  package : String
  source : String
  target : String
deriving DecidableEq, Repr

namespace MovedDirectory

def ofJson? (j : Json) : Option MovedDirectory := do
  match ← j.allFields? ["package", "from", "to"] with
  | [package, source, target] => return ⟨← package.text?, ← source.text?, ← target.text?⟩
  | _ => none

def toJson (m : MovedDirectory) : Json :=
  .object [("package", .text m.package), ("from", .text m.source), ("to", .text m.target)]

end MovedDirectory

def Json.ofNat (n : Nat) : Json := .number (.whole n)

def Json.ofTexts (texts : List String) : Json := .array (texts.map .text)

/-- the namespaces one package declares -/
structure PackageNamespaces where
  package : String
  namespaces : List String
  filesScanned : Nat
deriving DecidableEq, Repr

def PackageNamespaces.toJson (p : PackageNamespaces) : Json :=
  .object [("package", .text p.package), ("namespaces", .ofTexts p.namespaces), ("files_scanned", .ofNat p.filesScanned)]

/-- what the discovery of namespaces found -/
structure DiscoveryReport where
  packages : List PackageNamespaces := []
  /-- all declarations with their ancestors -/
  namespaces : NamespaceSet := {}
  failures : List Skipped := []
deriving DecidableEq, Repr

namespace DiscoveryReport

def filesScanned (r : DiscoveryReport) : Nat := total (r.packages.map (·.filesScanned))

def toJson (r : DiscoveryReport) : Json :=
  .object [("packages", .array (r.packages.map (·.toJson))), ("namespaces", .ofTexts r.namespaces.names),
    ("failures", .array (r.failures.map (·.toJson)))]

end DiscoveryReport

/-- what became of the generated cache files -/
structure CacheReport where
  artifactsChanged : List String := []
  keysMarked : Nat := 0
  failures : List Skipped := []
deriving DecidableEq, Repr

namespace CacheReport

def ofJson? (j : Json) : Option CacheReport := do
  match ← j.allFields? ["artifacts_rewritten", "keys_rewritten", "failures"] with
  | [artifacts, keys, failures] =>
    return ⟨← artifacts.texts?, ← keys.count?, ← failures.listOf? Skipped.ofJson?⟩
  | _ => none

def toJson (r : CacheReport) : Json :=
  .object [("artifacts_rewritten", .ofTexts r.artifactsChanged), ("keys_rewritten", .ofNat r.keysMarked),
    ("failures", .array (r.failures.map (·.toJson)))]

end CacheReport

/-- what a run did -/
structure IsolationReport where
  vendorPrefix : String := ""
  eligiblePackages : List String := []
  /-- the size of the whitelist with all ancestors -/
  namespaceCount : Nat := 0
  filesScanned : Nat := 0
  autoloadKeysPrefixed : Nat := 0
  filesChanged : List String := []
  directoriesMoved : List MovedDirectory := []
  filesRestored : List String := []
  artifactsChanged : List String := []
  cacheKeysMarked : Nat := 0
  failures : List Skipped := []
  /-- in milliseconds -/
  duration : Nat := 0
deriving DecidableEq, Repr

namespace IsolationReport

def fieldNames : List String :=
  ["prefix", "eligible_packages", "namespace_count", "files_scanned", "autoload_keys_rewritten", "files_rewritten",
    "directories_moved", "files_restored", "artifacts_rewritten", "cache_keys_rewritten", "failures", "duration"]

def ofJson? (j : Json) : Option IsolationReport := do
  match ← j.allFields? fieldNames with
  | [front, eligible, names, scanned, keys, changed, moved, restored, artifacts, cacheKeys, failures, duration] =>
    return {
      vendorPrefix := ← front.text?
      eligiblePackages := ← eligible.texts?
      namespaceCount := ← names.count?
      filesScanned := ← scanned.count?
      autoloadKeysPrefixed := ← keys.count?
      filesChanged := ← changed.texts?
      directoriesMoved := ← moved.listOf? MovedDirectory.ofJson?
      filesRestored := ← restored.texts?
      artifactsChanged := ← artifacts.texts?
      cacheKeysMarked := ← cacheKeys.count?
      failures := ← failures.listOf? Skipped.ofJson?
      duration := ← duration.count? }
  | _ => none

def toJson (r : IsolationReport) : Json :=
  .object [("prefix", .text r.vendorPrefix), ("eligible_packages", .ofTexts r.eligiblePackages),
    ("namespace_count", .ofNat r.namespaceCount), ("files_scanned", .ofNat r.filesScanned),
    ("autoload_keys_rewritten", .ofNat r.autoloadKeysPrefixed), ("files_rewritten", .ofTexts r.filesChanged),
    ("directories_moved", .array (r.directoriesMoved.map (·.toJson))), ("files_restored", .ofTexts r.filesRestored),
    ("artifacts_rewritten", .ofTexts r.artifactsChanged), ("cache_keys_rewritten", .ofNat r.cacheKeysMarked),
    ("failures", .array (r.failures.map (·.toJson))), ("duration", .ofNat r.duration)]

def hasFailures (r : IsolationReport) : Bool := !r.failures.isEmpty

/-- adds what became of the generated cache files -/
def absorb (r : IsolationReport) (cache : CacheReport) : IsolationReport :=
  { r with
    artifactsChanged := r.artifactsChanged ++ cache.artifactsChanged
    cacheKeysMarked := r.cacheKeysMarked + cache.keysMarked
    failures := r.failures ++ cache.failures }

end IsolationReport

end Isolation
