/-
The commands carried out on a disk. A reply holds the exit code, what goes to the two outputs, and the disk
afterwards; the time a run took is filled in when the reply is printed.
-/
import Isolation.CommandLine.Display
import Isolation.Config.Yaml
import Isolation.Run

namespace Isolation.CommandLine

open Terminal

/-- what goes to the standard output -/
inductive Output where
  | lines (lines : List String)
  | isolation (root : String) (report : IsolationReport) (format : ReportFormat)

/-- the text, for a run that took so many nanoseconds -/
def Output.render (elapsed : Nat) : Output → String
  | lines ls => unlines ls
  | isolation root report format => unlines (isolationLines elapsed root report format)

structure Reply where
  code : Nat
  output : Output := .lines []
  errors : List String := []
  disk : Disk

namespace Reply

/-- a command that succeeded and changed nothing -/
def success (d : Disk) (lines : List String) : Reply := { code := 0, output := .lines lines, disk := d }

def failure (d : Disk) (c : Complaint) : Reply := { code := 1, errors := c.lines, disk := d }

end Reply

/-! ## Settings -/

/-- says what was being done when something failed -/
def within (context : String) (r : Outcome α) : Except Complaint α := r.mapError fun f => ⟨some context, f⟩

/-- what the command line says takes precedence over the settings -/
def withOverrides (config : Config) (project : ProjectChoice) (selection : Selection) : Config :=
  { config with
    vendorPrefix := project.vendorPrefix.getD config.vendorPrefix
    requireDev := config.requireDev || selection.requireDev
    excludeList := selection.excluded.foldl (fun acc p => if acc.contains p then acc else acc ++ [p])
      config.excludeList }

/-- the settings of a file if one is named, otherwise those in the manifest -/
def configFor (d : Disk) (choice : ProjectChoice) (project : Project) : Except Complaint Config :=
  match choice.configFile with
  | some path => within ("Failed to load configuration from " ++ path) (Config.ofYamlFile d path)
  | none => do
    let config ← within "Invalid config.vendor-isolator section in composer.json" project.config
    return config.getD {}

/-- the project with its checked settings -/
def loadEngine (d : Disk) (choice : ProjectChoice) (selection : Selection) : Except Complaint Engine := do
  let project ← within ("Failed to open Composer project " ++ choice.directory) (Project.openAt d choice.directory)
  let config ← configFor d choice project
  within "Invalid configuration" (Engine.make (withOverrides config choice selection) project)

/-! ## Commands -/

def isolate (d : Disk) (choice : ProjectChoice) (selection : Selection) (skipCache : Bool) (format : ReportFormat) :
    Reply :=
  match loadEngine d choice selection with
  | .error c => .failure d c
  | .ok engine =>
    let step := if skipCache then engine.mutateNamespaces d else engine.run d
    match step.outcome with
    | .error f => .failure step.disk { failure := f }
    | .ok report => { code := 0, output := .isolation engine.project.root report format, disk := step.disk }

def refreshCache (d : Disk) (choice : ProjectChoice) : Reply :=
  match loadEngine d choice {} with
  | .error c => .failure d c
  | .ok engine =>
    let (report, d) := engine.mutateCache d
    .success d (cacheLines engine.project.root report)

def discover (d : Disk) (choice : ProjectChoice) (selection : Selection) (format : ReportFormat) : Reply :=
  match loadEngine d choice selection with
  | .error c => .failure d c
  | .ok engine => .success d (discoveryLines engine.project.root (engine.discover d) format)

def showDefaults (d : Disk) : Reply :=
  { code := 0, output := .lines (defaultsHint ++ [""] ++ (Text.splitAt '\n' ({} : Config).renderYaml).dropLast), disk := d }

def checkConfig (d : Disk) (path : String) : Reply :=
  let start := bold (coloured .brightBlue "Validating configuration:") ++ " " ++ coloured .cyan path
  match (Config.ofYamlFile d path).bind Config.validate with
  | .ok config =>
    .success d ([start, bold (coloured .brightGreen "Configuration file is valid"), ""] ++ (configTable config).lines)
  | .error f =>
    { code := 1
      output := .lines [start]
      errors := [coloured .red "Configuration validation failed:" ++ " " ++ f.text,
        dimmed "Tip: use 'vendor-isolator print-default-config' to see the valid format"] ++
          Complaint.lines { failure := f }
      disk := d }

def carryOut (d : Disk) : Command → Reply
  | .isolate project selection skipCache format => isolate d project selection skipCache format
  | .refreshCache project => refreshCache d project
  | .discover project selection format => discover d project selection format
  | .showDefaults => showDefaults d
  | .checkConfig path => checkConfig d path

/-! ## The program -/

def versionText : String := "vendor-isolator 0.3.0"

def usage : List String :=
  ["Usage: vendor-isolator [OPTIONS] <COMMAND>", "", "Commands:",
    "  isolate               Prefix namespaces, relocate PSR-0 trees and re-key the autoload cache",
    "  rewrite-cache         Re-key the generated autoload cache only",
    "  discover              List the namespaces that would be prefixed",
    "  print-default-config  Print default configuration in YAML format",
    "  validate-config       Validate a vendor-isolator configuration file"]

/-- the reply to a command line -/
def reply (d : Disk) (environmentPrefix : Option String) (args : List String) : Reply :=
  match readRequest environmentPrefix args with
  | .run command => carryOut d command
  | .version => .success d [versionText]
  | .help => .success d usage
  | .malformed => { code := 2, errors := ["error: invalid arguments", ""] ++ usage, disk := d }

end Isolation.CommandLine
