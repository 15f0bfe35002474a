/-
What can go wrong, and how it is worded. A failure belongs to one of seven kinds; `Failure.text` is its own
wording, `Failure.chain` adds the cause below it. Configuration and validation failures end a run; every other
kind concerns one file or one package, and the run goes on with the rest.
-/

namespace Isolation

/-- one failure, with what its reader needs to act on it -/
inductive Failure where
  /-- reading or writing failed; `cause` is the system's own text -/
  | io (message cause : String)
  | config (message : String) (field : Option String)
  | parse (language message : String) (file : Option String) (line column : Option Nat)
  | relocation (path message : String) (cause : Option String)
  | serialization (message : String) (dataType : Option String) (cause : Option String)
  | validation (message : String) (field : Option String)
  | internal (message : String) (context : Option String)
deriving DecidableEq, Repr

namespace Failure

/-- the wording of the failure alone -/
def text : Failure → String
  | io message _ => "I/O error: " ++ message
  | config message _ => "Configuration error: " ++ message
  | parse language message _ _ _ => "Parse error in " ++ language ++ ": " ++ message
  | relocation path message _ => "Relocation error at '" ++ path ++ "': " ++ message
  | serialization message _ _ => "Serialization error: " ++ message
  | validation message _ => "Validation error: " ++ message
  | internal message _ => "Internal error: " ++ message

/-- the cause below the failure, if one was recorded -/
def cause? : Failure → Option String
  | io _ cause => some cause
  | relocation _ _ cause => cause
  | serialization _ _ cause => cause
  | _ => none

/-- the wording followed by the cause -/
def chain (f : Failure) : String :=
  match f.cause? with
  | some cause => f.text ++ ": " ++ cause
  | none => f.text

/-- the run cannot go on -/
def isFatal : Failure → Bool
  | config .. => true
  | validation .. => true
  | _ => false

/-- names the file of a parse failure that has none yet -/
def inFile (f : Failure) (path : String) : Failure :=
  match f with
  | parse language message none line column => parse language message (some path) line column
  | other => other

/-- says what was being done: kept beside an internal failure, put in front of an input or output failure -/
def withContext (f : Failure) (context : String) : Failure :=
  match f with
  | internal message _ => internal message (some context)
  | io message cause => io (context ++ ": " ++ message) cause
  | other => other

/-! ## The failures of this library -/

/-- an input or output failure that nothing more is known about -/
def ofCause (cause : String) : Failure := io "I/O operation failed" cause

def badJson (cause : String) : Failure :=
  serialization ("JSON serialization failed: " ++ cause) (some "JSON") (some cause)

def badYaml (cause : String) : Failure :=
  serialization ("YAML serialization failed: " ++ cause) (some "YAML") (some cause)

def syntaxError (path : String) : Failure := parse "php" "Syntax error" (some path) none none

end Failure

/-- the result of an operation that can fail -/
abbrev Outcome (α : Type) := Except Failure α

end Isolation
