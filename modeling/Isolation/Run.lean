/-
A run over a project. The namespaces of the eligible packages are discovered first; then each package in turn has
its autoload keys put under the prefix, its directories moved and its sources changed, and the record of installed
packages is written. What fails in one file or package is reported and passed over. A second part replaces the keys
of the generated cache files.
-/
import Isolation.AutoloadCache
import Isolation.Composer.Project
import Isolation.Discovery
import Isolation.Relocation
import Isolation.Prefixing.Source

namespace Isolation

/-! ## Cache files -/

namespace AutoloadCache

/-- replaces the keys of one generated file: how many, and the disk afterwards -/
def rekeyFile (parser : Parser) (vendorDir : String) (artifact : CacheArtifact) (d : Disk) (path : String) :
    Outcome (Nat × Disk) := do
  let source ← SourceFile.readBytes d path
  let (contents, keys) ← (rekeySource vendorDir artifact source path parser).mapError (·.inFile path)
  if keys = 0 then return (0, d)
  let (_, d) ← SourceFile.writeIfChanged d path contents
  return (keys, d)

/-- one generated file, if it is there -/
def rekeyArtifact (parser : Parser) (vendorDir : String) (state : CacheReport × Disk) (artifact : CacheArtifact) :
    CacheReport × Disk :=
  let (report, d) := state
  let path := artifactPath vendorDir artifact
  if !d.isFile path then (report, d)
  else
    match rekeyFile parser vendorDir artifact d path with
    | .ok (0, d) => (report, d)
    | .ok (keys, d) =>
      ({ report with
          artifactsChanged := report.artifactsChanged ++ [path]
          keysMarked := report.keysMarked + keys }, d)
    | .error f => ({ report with failures := report.failures ++ [Skipped.ofFailure path .autoloadCache f] }, d)

/-- both generated files -/
def rekeyAll (parser : Parser) (vendorDir : String) (d : Disk) : CacheReport × Disk :=
  [CacheArtifact.files, CacheArtifact.static_].foldl (rekeyArtifact parser vendorDir) ({}, d)

end AutoloadCache

/-! ## Runs -/

/-- a project with checked settings -/
structure Engine where
  config : Config
  project : Project
  /-- what the sources are read with -/
  parser : Parser := Php.parser

namespace Engine

/-- the settings are checked before anything is touched -/
def make (config : Config) (project : Project) (parser : Parser := Php.parser) : Outcome Engine := do
  return ⟨← config.validate, project, parser⟩

/-- the package is to be isolated, as far as its name tells -/
def selects (e : Engine) (required : List String) (package : Package) : Bool :=
  (e.config.requireDev || required.contains package.name) && !e.config.excludes package.name

/-- where a package is, if it is to be isolated and its directory exists -/
def eligibleDir? (e : Engine) (d : Disk) (required : List String) (package : Package) : Option String :=
  let dir := e.project.installDir package
  if e.selects required package && d.isDirectory dir then some dir else none

/-- every installed package, with its directory if it is to be isolated -/
def plan (e : Engine) (d : Disk) : List (Package × Option String) :=
  let required := e.project.requiredPackages
  e.project.packages.map fun p => (p, e.eligibleDir? d required p)

/-- the names and directories of the packages to be isolated -/
def eligible (plan : List (Package × Option String)) : List (String × String) :=
  plan.filterMap fun e => e.2.map fun dir => (e.1.name, dir)

/-- adds what was found in one package -/
def addDiscovery (e : Engine) (d : Disk) (report : DiscoveryReport) (package : String × String) : DiscoveryReport :=
  let found := Discovery.package d package.2 e.config.extensions e.parser
  { packages := report.packages ++ [found.toReport package.1]
    namespaces := report.namespaces.union found.namespaces
    failures := report.failures ++ found.failures }

/-- the namespaces of all packages to be isolated, with their ancestors -/
def discoverPlan (e : Engine) (d : Disk) (plan : List (Package × Option String)) : DiscoveryReport :=
  let report := (eligible plan).foldl (e.addDiscovery d) {}
  { report with namespaces := report.namespaces.closeOverAncestors }

/-- the namespaces only -/
def discover (e : Engine) (d : Disk) : DiscoveryReport := e.discoverPlan d (e.plan d)

/-- what a run works with -/
structure Job where
  policy : Policy
  relocator : Relocator
  /-- the replacements by normalized path -/
  replacements : List (String × Replacements)
  extensions : List String
  parser : Parser

/-- the replacements for one file -/
def Job.replacementsFor? (job : Job) (path : String) : Option Replacements :=
  (job.replacements.find? fun e => Path.same e.1 (Path.normalize path)).map (·.2)

/-- moves the names of one file under the prefix; tells whether it was written -/
def Job.prefixFile (job : Job) (d : Disk) (path : String) : Outcome (Bool × Disk) := do
  let bytes ← SourceFile.readBytes d path
  let prefixed ← Prefixing.sourceWith job.policy (job.replacementsFor? path) bytes path job.parser
  if prefixed.mutated then SourceFile.writeIfChanged d path prefixed.contents else return (false, d)

/-- one file, and the report of it -/
def Job.addFile (job : Job) (state : IsolationReport × Disk) (path : String) : IsolationReport × Disk :=
  let (report, d) := state
  match job.prefixFile d path with
  | .ok (true, d) => ({ report with filesChanged := report.filesChanged ++ [path] }, d)
  | .ok (false, d) => (report, d)
  | .error f => ({ report with failures := report.failures ++ [Skipped.ofFailure path .prefixing f] }, d)

/-- all sources of a package -/
def Job.prefixSources (job : Job) (dir : String) (report : IsolationReport) (d : Disk) : IsolationReport × Disk :=
  (SourceFile.collect d dir job.extensions).foldl job.addFile (report, d)

/-- added to a failed relocation, which leaves a package half isolated -/
def rerunHint : String := "rerun once the problem is fixed to finish this package"

def relocationFailure (dir : String) (f : Failure) : Skipped :=
  ⟨dir, .relocation, f.chain ++ " (" ++ rerunHint ++ ")"⟩

/-- moves the directories of a package, then the names in its sources under the prefix; without the first there is no second -/
def Job.relocateAndPrefix (job : Job) (package : Package) (dir : String) (report : IsolationReport) (d : Disk) :
    IsolationReport × Disk :=
  match (job.relocator.relocatePackage package dir).run.run d with
  | (.error f, d) => ({ report with failures := report.failures ++ [relocationFailure dir f] }, d)
  | (.ok relocation, d) =>
    job.prefixSources dir
      { report with
        directoriesMoved := report.directoriesMoved ++ relocation.moved
        filesRestored := report.filesRestored ++ relocation.restored } d

/-- the packages one after the other: their records, the report and the disk afterwards -/
def Job.isolatePackages (job : Job) :
    List (Package × Option String) → IsolationReport → Disk → List Package × IsolationReport × Disk
  | [], report, d => ([], report, d)
  | (package, none) :: rest, report, d =>
    let (packages, report, d) := job.isolatePackages rest report d
    (package :: packages, report, d)
  | (package, some dir) :: rest, report, d =>
    let prefixed := package.prefixAutoload job.policy
    let report := { report with
      autoloadKeysPrefixed := report.autoloadKeysPrefixed + package.prefixCount job.policy }
    let (report, d) := job.relocateAndPrefix prefixed dir report d
    let (packages, report, d) := job.isolatePackages rest report d
    (prefixed :: packages, report, d)

/-- the replacements by normalized path; of two that name one file the later holds -/
def normalizedReplacements (table : List (String × Replacements)) : List (String × Replacements) :=
  table.foldl (fun acc e => Config.putAt (Path.normalize e.1) e.2 acc) []

/-- the work that follows from the namespaces found -/
def job (e : Engine) (namespaces : NamespaceSet) : Outcome Job := do
  let vendorPrefix ← Namespace.parse e.config.vendorPrefix
  return {
    policy := Policy.make namespaces e.config.vendorPrefix
    relocator := Relocator.make vendorPrefix e.project.vendorDir
    replacements := normalizedReplacements (e.config.resolvedReplacements e.project.vendorDir)
    extensions := e.config.extensions
    parser := e.parser }

/-- the report before anything is changed -/
def startReport (e : Engine) (plan : List (Package × Option String)) (discovery : DiscoveryReport) : IsolationReport :=
  { vendorPrefix := e.config.vendorPrefix
    eligiblePackages := (eligible plan).map (·.1)
    namespaceCount := discovery.namespaces.size
    filesScanned := discovery.filesScanned
    failures := discovery.failures }

/-- a result, with the engine and the disk afterwards -/
structure Step (α : Type) where
  outcome : Outcome α
  engine : Engine
  disk : Disk

/-- Isolates all eligible packages and writes the record of installed packages. Without any namespace nothing is
done. -/
def mutateNamespaces (e : Engine) (d : Disk) : Step IsolationReport :=
  let plan := e.plan d
  let discovery := e.discoverPlan d plan
  let report := e.startReport plan discovery
  if discovery.namespaces.isEmpty then ⟨.ok report, e, d⟩
  else
    match e.job discovery.namespaces with
    | .error f => ⟨.error f, e, d⟩
    | .ok job =>
      let (packages, report, d) := job.isolatePackages plan report d
      let e := { e with project := e.project.withPackages packages }
      match e.project.persist d with
      | .error f => ⟨.error f, e, d⟩
      | .ok (_, d) => ⟨.ok report, e, d⟩

/-- replaces the keys of the generated cache files -/
def mutateCache (e : Engine) (d : Disk) : CacheReport × Disk := AutoloadCache.rekeyAll e.parser e.project.vendorDir d

/-- both parts -/
def run (e : Engine) (d : Disk) : Step IsolationReport :=
  let first := e.mutateNamespaces d
  match first.outcome with
  | .error f => { first with outcome := .error f }
  | .ok report =>
    let (cache, d) := first.engine.mutateCache first.disk
    ⟨.ok (report.absorb cache), first.engine, d⟩

end Engine

end Isolation
