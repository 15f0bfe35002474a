/-
What the commands print: reports as tables and coloured lines or as JSON, failures with their causes below them.
-/
import Isolation.CommandLine.Command
import Isolation.Config.Basic
import Isolation.Json.Printer
import Isolation.Number.Rounding
import Isolation.Path
import Isolation.Report
import Isolation.Terminal.Style
import Isolation.Terminal.Table

namespace Isolation.CommandLine

open Terminal

/-- each line with a line break behind it -/
def unlines (lines : List String) : String := String.join (lines.map (· ++ "\n"))

/-- a path as seen from the root of the project, in full if it is not below it -/
def relativePath (root path : String) : String := (Path.relativeTo? path root).getD path

/-! ## Times -/

/-- hundredths of a unit, with two digits behind the point -/
def hundredths (n : Nat) : String :=
  toString (n / 100) ++ "." ++ (if n % 100 < 10 then "0" else "") ++ toString (n % 100)

/-- a time in nanoseconds, in the largest unit of which it has at least one -/
def elapsedText (nanos : Nat) : String :=
  let inUnit (size : Nat) (name : String) := hundredths (divToEven (100 * nanos) size) ++ name
  if 1000000000 ≤ nanos then inUnit 1000000000 "s"
  else if 1000000 ≤ nanos then inUnit 1000000 "ms"
  else if 1000 ≤ nanos then inUnit 1000 "µs"
  else inUnit 1 "ns"

/-! ## Reports -/

/-- what was passed over; nothing at all if that is nothing -/
def failureLines (root : String) (failures : List Skipped) : List String :=
  if failures.isEmpty then []
  else
    let table : Table :=
      { header := ["Stage", "Path", "Error"]
        rows := failures.map fun f => [f.stage.title, relativePath root f.path, f.message] }
    ["", bold (coloured .brightYellow "Skipped after errors:") ++ " " ++ toString failures.length] ++ table.lines

def jsonLines (j : Json) : List String := [j.pretty 2]

/-- the summary of a run that took so many nanoseconds -/
def summaryTable (elapsed : Nat) (r : IsolationReport) : Table :=
  { header := ["Metric", "Value"]
    rows := [["Prefix", r.vendorPrefix],
      ["Eligible packages", toString r.eligiblePackages.length],
      ["Namespaces (with ancestors)", toString r.namespaceCount],
      ["Files scanned", toString r.filesScanned],
      ["Autoload keys prefixed", toString r.autoloadKeysPrefixed],
      ["Files rewritten", toString r.filesChanged.length],
      ["PSR-0 directories moved", toString r.directoriesMoved.length],
      ["Autoloaded files restored", toString r.filesRestored.length],
      ["Cache artifacts rewritten", toString r.artifactsChanged.length],
      ["Cache keys rewritten", toString r.cacheKeysMarked],
      ["Duration", elapsedText elapsed]] }

def movedLine (root : String) (m : MovedDirectory) : String :=
  "   " ++ coloured .cyan "moved" ++ " " ++ relativePath root m.source ++ " -> " ++ relativePath root m.target

def isolationLines (elapsed : Nat) (root : String) (r : IsolationReport) : ReportFormat → List String
  | .json => jsonLines ({ r with duration := elapsed / 1000000 }).toJson
  | .text =>
    [bold (coloured .brightGreen "Isolation complete"), ""] ++ (summaryTable elapsed r).lines ++
      r.directoriesMoved.map (movedLine root) ++ failureLines root r.failures

/-- the packages with their namespaces -/
def packageLines (packages : List PackageNamespaces) : List String :=
  if packages.isEmpty then [coloured .brightYellow "No eligible packages found"]
  else
    Table.lines
      { header := ["Package", "Files", "Namespaces"]
        rows := packages.map fun p => [p.package, toString p.filesScanned, Text.joinWith '\n' p.namespaces] }

def discoveryLines (root : String) (r : DiscoveryReport) : ReportFormat → List String
  | .json => jsonLines r.toJson
  | .text =>
    packageLines r.packages ++
      ["", bold (coloured .brightBlue "Whitelist (with ancestors):") ++ " " ++ toString r.namespaces.size] ++
      r.namespaces.names.map ("   " ++ ·) ++ failureLines root r.failures

def cacheLines (root : String) (r : CacheReport) : List String :=
  let done :=
    if r.artifactsChanged.isEmpty then dimmed "Autoload cache already isolated"
    else
      bold (coloured .brightGreen "Rewrote") ++ " " ++ toString r.keysMarked ++ " keys in " ++
        Text.joinBy ", " (r.artifactsChanged.map (relativePath root))
  done :: failureLines root r.failures

/-! ## Settings -/

def defaultsHint : List String :=
  ["# Default vendor-isolator configuration", "# Set `prefix`, then save this to a file",
    "# Usage: vendor-isolator isolate --config your-config.yml",
    "# The same keys are read from config.vendor-isolator in composer.json"].map dimmed

def configTable (c : Config) : Table :=
  { header := ["setting", "value"]
    rows := [["prefix", c.vendorPrefix],
      ["excludelist", Text.joinBy ", " c.excludeList],
      ["replacements", toString c.replacements.length ++ " files"],
      ["require-dev", if c.requireDev then "true" else "false"],
      ["extensions", Text.joinBy ", " c.extensions]] }

/-! ## Failures -/

/-- a failure, with what was being done when it arose -/
structure Complaint where
  context : Option String := none
  failure : Failure
deriving DecidableEq, Repr

namespace Complaint

/-- from what was being done down to the last cause -/
def messages (c : Complaint) : List String :=
  c.context.toList ++ c.failure.text :: c.failure.cause?.toList

/-- a cause behind its front; further lines of it are set in as far as the first -/
def indented (front : String) (message : String) : String :=
  let blanks := String.ofList (List.replicate front.length ' ')
  front ++ Text.joinBy ("\n" ++ blanks) (Text.splitAt '\n' message)

/-- the number in front of a cause -/
def numbered (i : Nat) : String :=
  let digits := toString i
  String.ofList (List.replicate (5 - digits.length) ' ') ++ digits ++ ": "

/-- the causes below the first message; numbered if there are several -/
def causeLines : List String → List String
  | [] => []
  | [cause] => ["", "Caused by:", indented "    " cause]
  | causes => ["", "Caused by:"] ++ causes.mapIdx fun i cause => indented (numbered i) cause

def lines (c : Complaint) : List String :=
  match c.messages with
  | [] => []
  | top :: causes => ("Error: " ++ top) :: causeLines causes

end Complaint

end Isolation.CommandLine
