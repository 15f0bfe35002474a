/-
Reading of JSON values from tokens. The containers around the place being read form a stack; a finished value goes
into the innermost of them. At most 127 containers stand inside each other.
-/
import Isolation.Json.Token

namespace Isolation.Json

/-- an unfinished container, its contents in reverse -/
inductive Frame where
  | array (items : List Json)
  /-- `key` is the last key read, whose value is read or has been read -/
  | object (entries : List (String × Json)) (key : String)

/-- what may come next -/
inductive Need where
  | value
  /-- a value, or the end of the array just opened -/
  | valueOrEnd
  | key
  /-- a key, or the end of the object just opened -/
  | keyOrEnd
  | colon
  /-- a comma, or the end of the innermost container -/
  | more
  /-- the value is complete -/
  | nothing (value : Json)

/-- a place in a text: the containers around it, innermost first, and what may come next -/
structure Reading where
  frames : List Frame
  need : Need

/-- the number of containers that may stand inside each other -/
def depthLimit : Nat := 127

/-- a finished value goes into the innermost container -/
def finish (value : Json) : List Frame → Reading
  | [] => ⟨[], .nothing value⟩
  | .array items :: rest => ⟨.array (value :: items) :: rest, .more⟩
  | .object entries key :: rest => ⟨.object ((key, value) :: entries) key :: rest, .more⟩

/-- a token where a value is wanted -/
def startValue? (frames : List Frame) : Token → Option Reading
  | .null => some (finish .null frames)
  | .bool b => some (finish (.bool b) frames)
  | .number n => some (finish (.number n) frames)
  | .text s => some (finish (.text s) frames)
  | .openArray => if frames.length < depthLimit then some ⟨.array [] :: frames, .valueOrEnd⟩ else none
  | .openObject => if frames.length < depthLimit then some ⟨.object [] "" :: frames, .keyOrEnd⟩ else none
  | _ => none

/-- a token that ends the innermost container -/
def endContainer? : List Frame → Token → Option Reading
  | .array items :: rest, .closeArray => some (finish (.array items.reverse) rest)
  | .object entries _ :: rest, .closeObject => some (finish (.object entries.reverse) rest)
  | _, _ => none

/-- a token where a key is wanted -/
def startKey? : List Frame → Token → Option Reading
  | .object entries _ :: rest, .text key => some ⟨.object entries key :: rest, .colon⟩
  | _, _ => none

/-- a comma behind a value -/
def next? : List Frame → Token → Option Reading
  | .array items :: rest, .comma => some ⟨.array items :: rest, .value⟩
  | .object entries key :: rest, .comma => some ⟨.object entries key :: rest, .key⟩
  | _, _ => none

/-- one token -/
def Reading.step? (r : Reading) (t : Token) : Option Reading :=
  match r.need with
  | .value => startValue? r.frames t
  | .valueOrEnd => endContainer? r.frames t <|> startValue? r.frames t
  | .key => startKey? r.frames t
  | .keyOrEnd => endContainer? r.frames t <|> startKey? r.frames t
  | .colon =>
    match t with
    | .colon => some ⟨r.frames, .value⟩
    | _ => none
  | .more => endContainer? r.frames t <|> next? r.frames t
  | .nothing _ => none

def Reading.run? : Reading → List Token → Option Reading
  | r, [] => some r
  | r, t :: rest =>
    match r.step? t with
    | none => none
    | some r => r.run? rest

/-- the value of a text, as written -/
def ofChars? (cs : List Char) : Option Json :=
  (tokens? cs).bind fun tokens =>
    match Reading.run? ⟨[], .value⟩ tokens with
    | some ⟨_, .nothing value⟩ => some value
    | _ => none

/-- the value of a text, as written -/
def parse? (s : String) : Option Json := ofChars? s.toList

end Isolation.Json
