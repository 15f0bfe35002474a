/-
Reading of command line arguments. Options have a long name and may have a short one; short ones can be bundled
behind one dash. A value stands behind `=`, directly behind a short name, or in the next argument, which then must
not look like an option. After `--` every argument is a plain word.
-/
import Isolation.Text.Search

namespace Isolation.CommandLine

/-! ## What may be given -/

/-- the values an option or a word can have -/
inductive ValueKind where
  | text
  /-- any text but the empty one -/
  | path
  /-- digits, with or without a `+` in front, below 2^64 -/
  | count
  | oneOf (names : List String)
deriving DecidableEq, Repr

/-- the value of decimal digits, if there are any and nothing else -/
def digits? (cs : List Char) : Option Nat :=
  if cs.isEmpty || !cs.all Char.isDigit then none else some (cs.foldl (fun n c => 10 * n + (c.toNat - '0'.toNat)) 0)

def isCount (s : String) : Bool :=
  match digits? (if Text.startsWith s "+" then s.toList.drop 1 else s.toList) with
  | some n => n < Nat.pow 2 64
  | none => false

def ValueKind.accepts : ValueKind → String → Bool
  | text, _ => true
  | path, s => s != ""
  | count, s => isCount s
  | oneOf names, s => names.contains s

/-- what comes with an option -/
inductive OptionKind where
  | flag
  /-- ends the reading at once -/
  | notice
  /-- a value; the option is given once at most -/
  | single (value : ValueKind)
  /-- a value each time -/
  | repeated (value : ValueKind)
deriving DecidableEq, Repr

/-- an option of a command -/
structure OptionRule where
  long : String
  short : Option Char := none
  kind : OptionKind
deriving DecidableEq, Repr

/-- what a command takes -/
structure Signature where
  options : List OptionRule
  /-- the plain words, in order -/
  words : List ValueKind := []
  /-- the first plain word, and all that follows it, is left for another reader -/
  stopsAtWord : Bool := false
deriving DecidableEq, Repr

/-! ## What is given -/

/-- the options with their values, and the plain words, in order -/
structure Given where
  options : List (String × String) := []
  words : List String := []
deriving DecidableEq, Repr

namespace Given

def has (g : Given) (name : String) : Bool := g.options.any (·.1 == name)

/-- the values of an option, in order -/
def values (g : Given) (name : String) : List String := (g.options.filter (·.1 == name)).map (·.2)

def value? (g : Given) (name : String) : Option String := (g.values name).head?

/-- adds an option, unless it must not be given again or its value does not fit -/
def add? (g : Given) (rule : OptionRule) (value : String) : Option Given :=
  let added : Given := { g with options := g.options ++ [(rule.long, value)] }
  match rule.kind with
  | .flag => if g.has rule.long then none else some added
  | .notice => some added
  | .single kind => if g.has rule.long || !kind.accepts value then none else some added
  | .repeated kind => if kind.accepts value then some added else none

/-- adds a plain word, if there is a place for it and it fits -/
def addWord? (g : Given) (kinds : List ValueKind) (word : String) : Option Given :=
  match kinds[g.words.length]? with
  | some kind => if kind.accepts word then some { g with words := g.words ++ [word] } else none
  | none => none

end Given

/-! ## Reading -/

/-- what one argument comes to -/
inductive ArgumentStep where
  | done (given : Given)
  /-- the value of an option is to follow in the next argument -/
  | awaits (rule : OptionRule) (given : Given)
  | notice (name : String)
  | refused
deriving DecidableEq, Repr

def ArgumentStep.ofGiven? : Option Given → ArgumentStep
  | some g => done g
  | none => refused

/-- an option with the value that is attached to it, if there is one -/
def applyOption (given : Given) (rule : OptionRule) (value? : Option String) : ArgumentStep :=
  match rule.kind, value? with
  | .notice, none => .notice rule.long
  | .flag, none => .ofGiven? (given.add? rule "")
  | .flag, some _ | .notice, some _ => .refused
  | _, some value => .ofGiven? (given.add? rule value)
  | _, none => .awaits rule given

/-- the name in front of the first `=` and the value behind it -/
def splitValue (s : List Char) : String × Option String :=
  match s.dropWhile (· != '=') with
  | [] => (String.ofList s, none)
  | _ :: value => (String.ofList (s.takeWhile (· != '=')), some (String.ofList value))

/-- an argument with two dashes in front of `body` -/
def readLong (rules : List OptionRule) (given : Given) (body : List Char) : ArgumentStep :=
  let (name, value?) := splitValue body
  match rules.find? (·.long == name) with
  | some rule => applyOption given rule value?
  | none => .refused

/-- the value that follows a short name in its own argument -/
def attachedValue? : List Char → Option String
  | [] => none
  | '=' :: value => some (String.ofList value)
  | value => some (String.ofList value)

/-- the short names behind one dash -/
def readShorts (rules : List OptionRule) (given : Given) : List Char → ArgumentStep
  | [] => .done given
  | c :: rest =>
    match rules.find? (·.short == some c) with
    | none => .refused
    | some rule =>
      match rule.kind with
      | .flag | .notice =>
        match applyOption given rule none with
        | .done given => readShorts rules given rest
        | other => other
      | _ => applyOption given rule (attachedValue? rest)

/-- an argument that is an option, or a lone `--` -/
def looksLikeOption (arg : String) : Bool := Text.startsWith arg "-" && arg != "-"

/-- an argument that looks like an option -/
def readOption (rules : List OptionRule) (given : Given) (arg : String) : ArgumentStep :=
  match arg.toList with
  | '-' :: '-' :: body => readLong rules given body
  | _ :: shorts => readShorts rules given shorts
  | [] => .refused

/-- what an argument list comes to -/
inductive Reading where
  | complete (given : Given) (rest : List String)
  | notice (name : String)
  | refused
deriving DecidableEq, Repr

/-- plain words only -/
def readWords (kinds : List ValueKind) (given : Given) : List String → Reading
  | [] => .complete given []
  | word :: rest =>
    match given.addWord? kinds word with
    | some given => readWords kinds given rest
    | none => .refused

/-- reads arguments from the front -/
def readArguments (signature : Signature) (given : Given) : List String → Reading
  | [] => .complete given []
  | arg :: rest =>
    if arg == "--" then readWords signature.words given rest
    else if looksLikeOption arg then
      match readOption signature.options given arg with
      | .done given => readArguments signature given rest
      | .notice name => .notice name
      | .refused => .refused
      | .awaits rule given =>
        match rest with
        | [] => .refused
        | value :: rest =>
          if looksLikeOption value then .refused
          else
            match given.add? rule value with
            | some given => readArguments signature given rest
            | none => .refused
    else if signature.stopsAtWord then .complete given (arg :: rest)
    else
      match given.addWord? signature.words arg with
      | some given => readArguments signature given rest
      | none => .refused

end Isolation.CommandLine
