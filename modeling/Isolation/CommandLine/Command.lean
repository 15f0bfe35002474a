/-
The commands of the program and what their arguments say.
-/
import Isolation.CommandLine.Argument

namespace Isolation.CommandLine

/-- how a report is printed -/
inductive ReportFormat where
  | text
  | json
deriving DecidableEq, Repr

/-- the project, and where its settings come from -/
structure ProjectChoice where
  directory : String := "."
  configFile : Option String := none
  /-- takes the place of the prefix in the settings -/
  vendorPrefix : Option String := none
deriving DecidableEq, Repr

/-- which packages are isolated, beyond what the settings say -/
structure Selection where
  requireDev : Bool := false
  excluded : List String := []
deriving DecidableEq, Repr

inductive Command where
  | isolate (project : ProjectChoice) (selection : Selection) (skipCache : Bool) (format : ReportFormat)
  | refreshCache (project : ProjectChoice)
  | discover (project : ProjectChoice) (selection : Selection) (format : ReportFormat)
  | showDefaults
  | checkConfig (path : String)
deriving DecidableEq, Repr

/-- what a command line asks for -/
inductive Request where
  | run (command : Command)
  | version
  | help
  | malformed
deriving DecidableEq, Repr

/-! ## Signatures -/

/-- flags that may stand on either side of a command's name -/
def commonRules : List OptionRule :=
  [⟨"verbose", some 'v', .flag⟩, ⟨"quiet", some 'q', .flag⟩, ⟨"log-json", none, .flag⟩, ⟨"help", some 'h', .notice⟩]

def projectRules : List OptionRule :=
  [⟨"config", some 'c', .single .path⟩, ⟨"prefix", some 'p', .single .text⟩]

def selectionRules : List OptionRule :=
  [⟨"require-dev", none, .flag⟩, ⟨"exclude", some 'e', .repeated .text⟩]

def formatRule : OptionRule := ⟨"format", some 'f', .single (.oneOf ["text", "json"])⟩

/-- in front of a command's name -/
def globalSignature : Signature :=
  { options := commonRules ++ [⟨"version", some 'V', .notice⟩], stopsAtWord := true }

def isolateSignature : Signature :=
  { options := commonRules ++ projectRules ++ selectionRules ++
      [⟨"skip-autoload-cache", none, .flag⟩, ⟨"threads", some 'j', .single .count⟩, formatRule]
    words := [.path] }

def refreshCacheSignature : Signature := { options := commonRules ++ projectRules, words := [.path] }

def discoverSignature : Signature :=
  { options := commonRules ++ projectRules ++ selectionRules ++ [formatRule], words := [.path] }

def showDefaultsSignature : Signature := { options := commonRules }

def checkConfigSignature : Signature := { options := commonRules, words := [.path] }

/-! ## Meaning -/

/-- the prefix of the environment stands in for one that is not given -/
def projectOf (environmentPrefix : Option String) (g : Given) : ProjectChoice :=
  { directory := g.words.head?.getD "."
    configFile := g.value? "config"
    vendorPrefix := (g.value? "prefix").or environmentPrefix }

def selectionOf (g : Given) : Selection := ⟨g.has "require-dev", g.values "exclude"⟩

def formatOf (g : Given) : ReportFormat := if g.value? "format" == some "json" then .json else .text

/-- a command by its name: what it takes, and what it is once that is given -/
def commandNamed? (environmentPrefix : Option String) (name : String) : Option (Signature × (Given → Option Command)) :=
  let project := projectOf environmentPrefix
  match name with
  | "isolate" => some (isolateSignature, fun g =>
      some (.isolate (project g) (selectionOf g) (g.has "skip-autoload-cache") (formatOf g)))
  | "rewrite-cache" => some (refreshCacheSignature, fun g => some (.refreshCache (project g)))
  | "discover" => some (discoverSignature, fun g => some (.discover (project g) (selectionOf g) (formatOf g)))
  | "print-default-config" => some (showDefaultsSignature, fun _ => some .showDefaults)
  | "validate-config" => some (checkConfigSignature, fun g => g.words.head?.map .checkConfig)
  | _ => none

/-- the two levels of logging exclude each other -/
def isConsistent (g : Given) : Bool := !(g.has "verbose" && g.has "quiet")

def requestOfNotice (name : String) : Request := if name == "version" then .version else .help

/-- the request for help on a command, or on the program -/
def helpOn : List String → Request
  | [] => .help
  | [name] => if name == "help" || (commandNamed? none name).isSome then .help else .malformed
  | _ => .malformed

/-- the arguments behind a command's name -/
def readCommand (environmentPrefix : Option String) (name : String) (args : List String) : Request :=
  match commandNamed? environmentPrefix name with
  | none => if name == "help" then helpOn args else .malformed
  | some (signature, meaning) =>
    match readArguments signature {} args with
    | .notice name => requestOfNotice name
    | .refused => .malformed
    | .complete given _ =>
      match meaning given with
      | some command => if isConsistent given then .run command else .malformed
      | none => .malformed

/-- what the whole command line asks for -/
def readRequest (environmentPrefix : Option String) (args : List String) : Request :=
  match readArguments globalSignature {} args with
  | .notice name => requestOfNotice name
  | .refused => .malformed
  | .complete _ [] => .malformed
  | .complete given (name :: rest) =>
    match readCommand environmentPrefix name rest with
    | .run command => if isConsistent given then .run command else .malformed
    | other => other

end Isolation.CommandLine
