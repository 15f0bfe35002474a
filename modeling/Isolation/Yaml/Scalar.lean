/-
Scalars of YAML texts: plain ones, quoted ones, and blocks introduced by `|` or `>`. Line breaks inside a plain or
quoted scalar are folded: a single one reads as a blank, of several the first is dropped.
-/
import Isolation.Yaml.Place

namespace Isolation.Yaml

/-- blanks and line breaks between two parts of a scalar -/
structure Gap where
  /-- blanks before any line break -/
  blanks : List Char := []
  /-- a line break has been passed -/
  broken : Bool := false
  /-- the first line break -/
  lead : List Char := []
  /-- the other line breaks -/
  trail : List Char := []

/-- what a gap reads as -/
def Gap.text (g : Gap) : List Char :=
  if !g.broken then g.blanks
  else if g.lead == ['\n'] then (if g.trail.isEmpty then [' '] else g.trail)
  else g.lead ++ g.trail

/-- passes over blanks and line breaks; with a bound, no tab may stand before that column on a new line -/
def scanGap? (bound : Option Nat) : (fuel : Nat) → Gap → Place → Option (Gap × Place)
  | 0, g, p => some (g, p)
  | fuel + 1, g, p =>
    if p.blankAt 0 then
      if g.broken && p.looksAt '\t' && bound.any (p.column < ·) then none
      else
        let g := if g.broken then g else { g with blanks := g.blanks ++ (p.rest.take 1) }
        scanGap? bound fuel g p.skip
    else if p.breakAt 0 then
      let g := if g.broken then { g with trail := g.trail ++ p.breakChar }
        else { g with blanks := [], broken := true, lead := p.breakChar }
      scanGap? bound fuel g p.skipBreak
    else some (g, p)

/-! ## Plain scalars -/

def isFlowMark (c : Char) : Bool := c = ',' || c = '[' || c = ']' || c = '\x7b' || c = '\x7d'

/-- a colon right before a flow mark -/
def strayColon (flow : Bool) (p : Place) : Bool :=
  flow && p.looksAt ':' && (p.charAt? 1).any fun c => isFlowMark c || c = '?'

/-- a character that ends a plain scalar -/
def endsPlain (flow : Bool) (p : Place) : Bool :=
  p.gapAt 0 || (p.looksAt ':' && p.gapAt 1) || (flow && p.char?.any isFlowMark)

/-- the characters up to the next gap or end of a plain scalar, put in front of `done`, which is in reverse -/
def plainPart? (flow : Bool) : (fuel : Nat) → List Char → Place → Option (List Char × Place)
  | 0, done, p => some (done, p)
  | fuel + 1, done, p =>
    if strayColon flow p then none
    else if endsPlain flow p then some (done, p)
    else plainPart? flow fuel (p.rest.take 1 ++ done) p.skip

/-- A plain scalar: parts with gaps between them. Outside flow context a part stands right of column `least - 1`.
Also tells whether the scalar was followed by a line break. -/
def plainScalar? (flow : Bool) (least : Nat) :
    (fuel : Nat) → (done : List Char) → (gap : Gap) → Place → Option (List Char × Bool × Place)
  | 0, done, gap, p => some (done, gap.broken, p)
  | fuel + 1, done, gap, p =>
    if p.atDocumentMark || p.looksAt '#' then some (done, gap.broken, p)
    else
      match plainPart? flow p.rest.length (gap.text.reverse ++ done) p with
      | none => none
      | some (extended, q) =>
        -- nothing was read: the gap is behind the scalar
        let (done, gap) := if q.index == p.index then (done, gap) else (extended, ({} : Gap))
        if !(q.blankAt 0 || q.breakAt 0) then some (done, gap.broken, q)
        else
          match scanGap? (some least) q.rest.length gap q with
          | none => none
          | some (gap, r) =>
            if !flow && r.column < least then some (done, gap.broken, r)
            else plainScalar? flow least fuel done gap r

/-! ## Quoted scalars -/

def hexValue? (c : Char) : Option Nat :=
  if '0' ≤ c && c ≤ '9' then some (c.toNat - '0'.toNat)
  else if 'a' ≤ c && c ≤ 'f' then some (c.toNat - 'a'.toNat + 10)
  else if 'A' ≤ c && c ≤ 'F' then some (c.toNat - 'A'.toNat + 10)
  else none

/-- the character of `count` hexadecimal digits -/
def hexChar? (digits : List Char) (count : Nat) : Option Char :=
  if digits.length < count then none
  else
    match (digits.take count).mapM hexValue? with
    | none => none
    | some values =>
      let n := values.foldl (fun n v => n * 16 + v) 0
      if (0xd800 ≤ n && n ≤ 0xdfff) || 0x10ffff < n then none else some (Char.ofNat n)

/-- the character of a letter behind a backslash -/
def escapedChar? (c : Char) : Option Char :=
  match c with
  | '0' => some '\x00'
  | 'a' => some '\x07'
  | 'b' => some '\x08'
  | 't' => some '\t'
  | '\t' => some '\t'
  | 'n' => some '\n'
  | 'v' => some '\x0b'
  | 'f' => some '\x0c'
  | 'r' => some '\r'
  | 'e' => some '\x1b'
  | ' ' => some ' '
  | '"' => some '"'
  | '/' => some '/'
  | '\\' => some '\\'
  | 'N' => some (Char.ofNat 0x85)
  | '_' => some (Char.ofNat 0xa0)
  | 'L' => some (Char.ofNat 0x2028)
  | 'P' => some (Char.ofNat 0x2029)
  | _ => none

/-- an escape, from the character behind the backslash on -/
def escape? (p : Place) : Option (Char × Place) :=
  match p.rest with
  | [] => none
  | c :: digits =>
    let count := if c = 'x' then 2 else if c = 'u' then 4 else if c = 'U' then 8 else 0
    if count = 0 then (escapedChar? c).map fun e => (e, p.skip)
    else (hexChar? digits count).map fun e => (e, p.skipMany (count + 1))

/-- the characters up to the next gap or the closing quote, put in front of `done`; also whether the part ended in
an escaped line break -/
def quotedPart? (quote : Char) : (fuel : Nat) → List Char → Place → Option (List Char × Bool × Place)
  | 0, done, p => some (done, false, p)
  | fuel + 1, done, p =>
    if p.gapAt 0 then some (done, false, p)
    else if quote = '\'' && p.looksAt '\'' && p.charAt? 1 == some '\'' then
      quotedPart? quote fuel ('\'' :: done) (p.skipMany 2)
    else if p.looksAt quote then some (done, false, p)
    else if quote = '"' && p.looksAt '\\' then
      if p.breakAt 1 then some (done, true, p.skip.skipBreak)
      else
        match escape? p.skip with
        | none => none
        | some (c, q) => quotedPart? quote fuel (c :: done) q
    else quotedPart? quote fuel (p.rest.take 1 ++ done) p.skip

/-- a quoted scalar from behind its opening quote on -/
def quotedScalar? (quote : Char) : (fuel : Nat) → (done : List Char) → Place → Option (List Char × Place)
  | 0, _, _ => none
  | fuel + 1, done, p =>
    if p.atDocumentMark || p.atEnd then none
    else
      match quotedPart? quote p.rest.length done p with
      | none => none
      | some (done, broken, p) =>
        if p.looksAt quote then some (done, p.skip)
        else
          match scanGap? none p.rest.length { broken := broken } p with
          | none => none
          | some (gap, p) => quotedScalar? quote fuel (gap.text.reverse ++ done) p

/-! ## Block scalars -/

/-- how the end of a block scalar is read -/
inductive Chomping where
  | strip
  | clip
  | keep
deriving DecidableEq

/-- the marks behind `|` or `>`: chomping, and the indentation if it is given, in either order -/
def blockHeader? (p : Place) : Option (Chomping × Nat × Place) :=
  let chomp? (p : Place) : Option Chomping :=
    if p.looksAt '-' then some .strip else if p.looksAt '+' then some .keep else none
  let digit? (p : Place) : Option Nat := p.char?.bind fun c => if '0' ≤ c && c ≤ '9' then some (c.toNat - 48) else none
  match chomp? p, digit? p with
  | some c, _ =>
    match digit? p.skip with
    | some 0 => none
    | some n => some (c, n, p.skipMany 2)
    | none => some (c, 0, p.skip)
  | none, some 0 => none
  | none, some n =>
    match chomp? p.skip with
    | some c => some (c, n, p.skipMany 2)
    | none => some (.clip, n, p.skip)
  | none, none => some (.clip, 0, p)

/-- empty lines and the indentation of the next one; without a known indentation (`0`) the widest one is found -/
def blockBreaks? (indent : Nat) : (fuel widest : Nat) → List Char → Place → Option (List Char × Nat × Place)
  | 0, widest, done, p => some (done, widest, p)
  | fuel + 1, widest, done, p =>
    let room := p.rest.takeWhile (· = ' ')
    let count := if indent = 0 then room.length else min room.length (indent - p.column)
    let p := p.skipMany count
    let widest := max widest p.column
    if (indent = 0 || p.column < indent) && p.looksAt '\t' then none
    else if p.breakAt 0 then blockBreaks? indent fuel widest (done ++ p.breakChar) p.skipBreak
    else some (done, widest, p)

/-- the lines of a block scalar; `lead` and `trail` are the line breaks behind what is done -/
def blockLines? (literal : Bool) (indent : Nat) :
    (fuel : Nat) → (done lead trail : List Char) → (blank : Bool) → Place →
      Option (List Char × List Char × List Char × Place)
  | 0, done, lead, trail, _, p => some (done, lead, trail, p)
  | fuel + 1, done, lead, trail, blank, p =>
    if p.column ≠ indent || p.atEnd then some (done, lead, trail, p)
    else
      let blankHere := p.blankAt 0
      let joint :=
        if !literal && lead == ['\n'] && !blank && !blankHere then (if trail.isEmpty then [' '] else [])
        else lead
      let (body, q) := p.takeWhile (!isBreak ·)
      let done := body.reverse ++ (joint ++ trail).reverse ++ done
      match blockBreaks? indent q.rest.length 0 [] q.skipBreak with
      | none => none
      | some (trail, _, r) => blockLines? literal indent fuel done q.breakChar trail blankHere r

/-- a block scalar from behind `|` or `>` on, inside a collection at column `outer` (`-1` outside all) -/
def blockScalar? (literal : Bool) (outer : Int) (p : Place) : Option (List Char × Place) :=
  match blockHeader? p with
  | none => none
  | some (chomping, given, p) =>
    let p := p.skipWhile isBlank
    let p := if p.looksAt '#' then p.skipWhile (!isBreak ·) else p
    if !(p.atEnd || p.breakAt 0) then none
    else
      let p := p.skipBreak
      let fixed := if given = 0 then 0 else if 0 ≤ outer then outer.toNat + given else given
      match blockBreaks? fixed (p.rest.length + 1) 0 [] p with
      | none => none
      | some (trail, widest, p) =>
        let indent := if fixed = 0 then max (max widest (outer + 1).toNat) 1 else fixed
        match blockLines? literal indent p.rest.length [] [] trail false p with
        | none => none
        | some (done, lead, trail, p) =>
          let tail := match chomping with
            | .strip => []
            | .clip => lead
            | .keep => lead ++ trail
          some (done.reverse ++ tail, p)

end Isolation.Yaml
