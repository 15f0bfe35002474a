/-
Values of YAML texts from their tokens. A text holds at most one document; a document without content is told apart
from one that holds an empty value.
-/
import Isolation.Yaml.Token

namespace Isolation.Yaml

/-- values by the names of their anchors, the latest first -/
abbrev Anchors := List (String × Node)

def emptyScalar : Node := .scalar "" true

/-- a value, the tokens behind it, and the anchors seen so far -/
abbrev Parsed (α : Type) := Option (α × List Token × Anchors)

/-- where a node stands -/
inductive Position where
  | block
  /-- the key or value of a block mapping, where entries of a sequence need no indentation -/
  | entry
  | flow
deriving DecidableEq

def nextIs (test : Token → Bool) : List Token → Bool
  | [] => true
  | t :: _ => test t

def endsEntry (t : Token) : Bool := t = .blockEntry || t = .blockEnd

def endsIndentless (t : Token) : Bool := t = .blockEntry || t = .key || t = .value || t = .blockEnd

def endsPair (t : Token) : Bool := t = .key || t = .value || t = .blockEnd

/-- anchor and tag in front of a node, each at most once -/
def properties : List Token → Option String × Bool × List Token
  | .anchor name :: .tag :: rest => (some name, true, rest)
  | .tag :: .anchor name :: rest => (some name, true, rest)
  | .anchor name :: rest => (some name, true, rest)
  | .tag :: rest => (none, true, rest)
  | rest => (none, false, rest)

def remember (name : Option String) (node : Node) (anchors : Anchors) : Anchors :=
  match name with
  | some n => (n, node) :: anchors
  | none => anchors

def lookup? (name : String) (anchors : Anchors) : Option Node := (anchors.find? (·.1 == name)).map (·.2)

mutual

/-- a node -/
def node? : (fuel : Nat) → Position → List Token → Anchors → Parsed Node
  | 0, _, _, _ => none
  | fuel + 1, position, tokens, anchors =>
    match tokens with
    | .alias name :: rest => (lookup? name anchors).map fun n => (n, rest, anchors)
    | _ =>
      let (name, decorated, tokens) := properties tokens
      match content? fuel position decorated tokens anchors with
      | none => none
      | some (n, rest, anchors) => some (n, rest, remember name n anchors)

/-- a node without its properties; with properties it may be empty -/
def content? : (fuel : Nat) → Position → (mayBeEmpty : Bool) → List Token → Anchors → Parsed Node
  | 0, _, _, _, _ => none
  | fuel + 1, position, mayBeEmpty, tokens, anchors =>
    match tokens with
    | .scalar text plain :: rest => some (.scalar text plain, rest, anchors)
    | .flowSequence :: rest => flowItems? fuel true [] rest anchors
    | .flowMapping :: rest => flowEntries? fuel true [] rest anchors
    | .blockEntry :: rest =>
      if position = .entry then indentless? fuel [] (.blockEntry :: rest) anchors
      else if mayBeEmpty then some (emptyScalar, tokens, anchors)
      else none
    | .blockSequence :: rest =>
      if position ≠ .flow then blockItems? fuel [] rest anchors
      else if mayBeEmpty then some (emptyScalar, tokens, anchors)
      else none
    | .blockMapping :: rest =>
      if position ≠ .flow then blockEntries? fuel [] rest anchors
      else if mayBeEmpty then some (emptyScalar, tokens, anchors)
      else none
    | _ => if mayBeEmpty then some (emptyScalar, tokens, anchors) else none

/-- a node, or an empty one before a token that ends it -/
def nodeOrEmpty? : (fuel : Nat) → Position → (ends : Token → Bool) → List Token → Anchors → Parsed Node
  | 0, _, _, _, _ => none
  | fuel + 1, position, ends, tokens, anchors =>
    if nextIs ends tokens then some (emptyScalar, tokens, anchors) else node? fuel position tokens anchors

def blockItems? : (fuel : Nat) → List Node → List Token → Anchors → Parsed Node
  | 0, _, _, _ => none
  | fuel + 1, done, tokens, anchors =>
    match tokens with
    | .blockEntry :: rest =>
      match nodeOrEmpty? fuel .block endsEntry rest anchors with
      | none => none
      | some (n, rest, anchors) => blockItems? fuel (n :: done) rest anchors
    | .blockEnd :: rest => some (.sequence done.reverse, rest, anchors)
    | _ => none

def indentless? : (fuel : Nat) → List Node → List Token → Anchors → Parsed Node
  | 0, _, _, _ => none
  | fuel + 1, done, tokens, anchors =>
    match tokens with
    | .blockEntry :: rest =>
      match nodeOrEmpty? fuel .block endsIndentless rest anchors with
      | none => none
      | some (n, rest, anchors) => indentless? fuel (n :: done) rest anchors
    | _ => some (.sequence done.reverse, tokens, anchors)

def blockEntries? : (fuel : Nat) → List (Node × Node) → List Token → Anchors → Parsed Node
  | 0, _, _, _ => none
  | fuel + 1, done, tokens, anchors =>
    match tokens with
    | .key :: rest =>
      match nodeOrEmpty? fuel .entry endsPair rest anchors with
      | none => none
      | some (k, .value :: rest, anchors) =>
        match nodeOrEmpty? fuel .entry endsPair rest anchors with
        | none => none
        | some (v, rest, anchors) => blockEntries? fuel ((k, v) :: done) rest anchors
      | some (k, rest, anchors) => blockEntries? fuel ((k, emptyScalar) :: done) rest anchors
    | .blockEnd :: rest => some (.mapping done.reverse, rest, anchors)
    | _ => none

def flowItems? : (fuel : Nat) → (first : Bool) → List Node → List Token → Anchors → Parsed Node
  | 0, _, _, _, _ => none
  | fuel + 1, first, done, tokens, anchors =>
    match tokens with
    | .flowSequenceEnd :: rest => some (.sequence done.reverse, rest, anchors)
    | _ =>
      let behind? := if first then some tokens else
        match tokens with
        | .flowEntry :: rest => some rest
        | _ => none
      match behind? with
      | none => none
      | some (.flowSequenceEnd :: rest) => some (.sequence done.reverse, rest, anchors)
      | some (.key :: rest) =>
        match nodeOrEmpty? fuel .flow (fun t => t = .value || t = .flowEntry || t = .flowSequenceEnd) rest anchors with
        | none => none
        | some (k, .value :: rest, anchors) =>
          match nodeOrEmpty? fuel .flow (fun t => t = .flowEntry || t = .flowSequenceEnd) rest anchors with
          | none => none
          | some (v, rest, anchors) => flowItems? fuel false (.mapping [(k, v)] :: done) rest anchors
        | some (k, rest, anchors) => flowItems? fuel false (.mapping [(k, emptyScalar)] :: done) rest anchors
      | some rest =>
        match node? fuel .flow rest anchors with
        | none => none
        | some (n, rest, anchors) => flowItems? fuel false (n :: done) rest anchors

def flowEntries? : (fuel : Nat) → (first : Bool) → List (Node × Node) → List Token → Anchors → Parsed Node
  | 0, _, _, _, _ => none
  | fuel + 1, first, done, tokens, anchors =>
    match tokens with
    | .flowMappingEnd :: rest => some (.mapping done.reverse, rest, anchors)
    | _ =>
      let behind? := if first then some tokens else
        match tokens with
        | .flowEntry :: rest => some rest
        | _ => none
      match behind? with
      | none => none
      | some (.flowMappingEnd :: rest) => some (.mapping done.reverse, rest, anchors)
      | some (.key :: rest) =>
        match nodeOrEmpty? fuel .flow (fun t => t = .value || t = .flowEntry || t = .flowMappingEnd) rest anchors with
        | none => none
        | some (k, .value :: rest, anchors) =>
          match nodeOrEmpty? fuel .flow (fun t => t = .flowEntry || t = .flowMappingEnd) rest anchors with
          | none => none
          | some (v, rest, anchors) => flowEntries? fuel false ((k, v) :: done) rest anchors
        | some (k, rest, anchors) => flowEntries? fuel false ((k, emptyScalar) :: done) rest anchors
      | some rest =>
        match node? fuel .flow rest anchors with
        | none => none
        | some (k, rest, anchors) => flowEntries? fuel false ((k, emptyScalar) :: done) rest anchors

end

/-- a token that ends a document without content -/
def endsDocument (t : Token) : Bool := t = .directive || t = .documentStart || t = .documentEnd

/-- one document: its value, and what is behind it -/
def document? (tokens : List Token) : Option (Node × List Token) :=
  let fuel := 4 * tokens.length + 4
  match tokens with
  | .directive :: _ =>
    match tokens.dropWhile (· = .directive) with
    | .documentStart :: rest => (nodeOrEmpty? fuel .block endsDocument rest []).map fun r => (r.1, r.2.1)
    | _ => none
  | .documentStart :: rest => (nodeOrEmpty? fuel .block endsDocument rest []).map fun r => (r.1, r.2.1)
  | _ => (node? fuel .block tokens []).map fun r => (r.1, r.2.1)

/-- the text has no document, or one -/
def parse? (s : String) : Option (Option Node) :=
  match tokens? s with
  | none => none
  | some [] => some none
  | some tokens =>
    match document? tokens with
    | some (n, rest) => if rest.all (· = .documentEnd) then some (some n) else none
    | none => none

end Isolation.Yaml
