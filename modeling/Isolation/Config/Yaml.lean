/-
Settings as YAML files. Any scalar reads as a text, an empty one also as an empty list or table; a missing document
reads as the settings by default.
-/
import Isolation.Config.Basic
import Isolation.Disk.Operations
import Isolation.Yaml.Printer
import Isolation.Yaml.Reader

namespace Isolation

namespace Config

def yamlText? : Yaml.Node → Option String
  | .scalar text _ => some text
  | _ => none

/-- `true` or `false`, in small letters, with a capital or in capitals, without quotes -/
def yamlBool? : Yaml.Node → Option Bool
  | .scalar text true =>
    if ["true", "True", "TRUE"].contains text then some true
    else if ["false", "False", "FALSE"].contains text then some false
    else none
  | _ => none

def yamlTexts? : Yaml.Node → Option (List String)
  | .sequence items => items.mapM yamlText?
  | .scalar "" true => some []
  | _ => none

def yamlPair? (read : Yaml.Node → Option α) (e : Yaml.Node × Yaml.Node) : Option (String × α) := do
  return (← yamlText? e.1, ← read e.2)

def yamlTable? (read : Yaml.Node → Option α) : Yaml.Node → Option (List (String × α))
  | .mapping entries => (entries.mapM (yamlPair? read)).map Entries.ofList
  | .scalar "" true => some []
  | _ => none

/-- the value of a field, if it is there; nothing at all if it is there more than once -/
def yamlField? (entries : List (String × Yaml.Node)) (name : String) : Option (Option Yaml.Node) :=
  match entries.filter (·.1 == name) with
  | [] => some none
  | [e] => some (some e.2)
  | _ => none

/-- a field that may be absent -/
def yamlDefault (default : α) (read : Yaml.Node → Option α) : Option Yaml.Node → Option α
  | none => some default
  | some n => read n

def ofYaml? : Yaml.Node → Option Config
  | .mapping entries => do
    let entries ← entries.mapM (yamlPair? some)
    return {
      vendorPrefix := ← yamlDefault "" yamlText? (← yamlField? entries "prefix")
      excludeList := ← yamlDefault [] yamlTexts? (← yamlField? entries "excludelist")
      replacements := ← yamlDefault [] (yamlTable? (yamlTable? yamlText?)) (← yamlField? entries "replacements")
      requireDev := ← yamlDefault false yamlBool? (← yamlField? entries "require-dev")
      extensions := ← yamlDefault ["php"] yamlTexts? (← yamlField? entries "extensions") }
  | .scalar "" true => some {}
  | _ => none

def toYaml (c : Config) : Yaml.Node :=
  let text (s : String) : Yaml.Node := .scalar s false
  let name (s : String) : Yaml.Node := .scalar s true
  .mapping [(name "prefix", text c.vendorPrefix),
    (name "excludelist", .sequence (c.excludeList.map text)),
    (name "replacements", .mapping (c.replacements.map fun e =>
      (text e.1, .mapping (e.2.map fun r => (text r.1, text r.2))))),
    (name "require-dev", name (if c.requireDev then "true" else "false")),
    (name "extensions", .sequence (c.extensions.map text))]

/-- the text of a settings file -/
def renderYaml (c : Config) : String := Yaml.render c.toYaml

/-- the settings of a text -/
def parseYaml (s : String) : Outcome Config :=
  match Yaml.parse? s with
  | none => .error (Failure.badYaml "malformed document")
  | some none => .ok {}
  | some (some n) =>
    match ofYaml? n with
    | some c => .ok c
    | none => .error (Failure.badYaml "unexpected value in the settings")

/-- the settings of a file -/
def ofYamlFile (d : Disk) (path : String) : Outcome Config :=
  match d.readText path with
  | .error e => .error (.io ("Failed to read config file: " ++ path) e.text)
  | .ok text => parseYaml text

end Config

end Isolation
