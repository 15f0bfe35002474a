/-
The keys of Composer's generated tables of autoloaded files. Composer loads a key once in a process, so two
isolated copies of one library need different keys: each key is replaced by one made of the vendor directory,
the file and the old key. A key that carries the marker `isolated-` is left alone.
-/
import Isolation.Failure
import Isolation.Path
import Isolation.Source.Edit
import Isolation.Source.Lowering
import Isolation.Text.Blank

namespace Isolation

/-- the generated files with such a table -/
inductive CacheArtifact where
  /-- returns the table -/
  | files
  /-- holds the table in a property `$files` -/
  | static_
deriving DecidableEq, Repr

def CacheArtifact.fileName : CacheArtifact → String
  | .files => "autoload_files.php"
  | .static_ => "autoload_static.php"

namespace AutoloadCache

/-- marks a key that has been replaced -/
def marker : String := "isolated-"

/-- where the generated file of a vendor directory is -/
def artifactPath (vendorDir : String) (artifact : CacheArtifact) : String :=
  Path.join (Path.join vendorDir "composer") artifact.fileName

/-- the named components of a path -/
def pathNames (p : String) : List String :=
  (Path.components p).filterMap fun
    | .normal name => some name
    | _ => none

/-- the part of a key that tells vendor directories apart: their last three names in lower case -/
def keyScope (vendorDir : String) : String :=
  let names := pathNames vendorDir
  Text.lowerToAscii ("/" ++ Text.joinWith '/' (names.drop (names.length - 3)))

/-- keys hold small letters, digits and dashes -/
def keyChar (c : Char) : Char :=
  if ('a' ≤ c && c ≤ 'z') || Ascii.isDigit c || c = '-' then c else '-'

/-- one dash in place of several -/
def collapseDashes : List Char → List Char
  | [] => []
  | c :: rest =>
    let tail := collapseDashes rest
    if c = '-' && tail.head? = some '-' then tail else c :: tail

/-- any text as the text of a key: other characters become dashes, with none doubled and none at the ends -/
def slug (s : String) : String :=
  Text.trimBoth '-' (String.ofList (collapseDashes (s.toList.map keyChar)))

/-- the value of a table entry as far as it tells files apart -/
def valueText (value : String) : String :=
  Text.replaceText (Text.replaceText (Text.joinWith ' ' (Text.words value)) "$vendorDir . " "") ".php" ""

/-- the new key of an entry -/
def cacheKey (vendorDir value key : String) : String :=
  slug (marker ++ keyScope vendorDir ++ valueText value ++ key)

/-- the first array of the first returned value -/
def returnedArray (root : Node) : List Node :=
  ((Node.findIn? (·.kind == .returnStatement) root.children).bind fun r =>
    Node.findIn? (·.kind == .arrayCreation) r.children).toList

/-- the property is named `$files` -/
def isFilesProperty (source : List UInt8) (property : Node) : Bool :=
  property.children.any fun c => c.isNamed .variableName && Php.textAt? source c.span == some "$files"

mutual

/-- the first array of each property `$files`; properties inside properties are not looked for -/
def filesArraysOf (source : List UInt8) : Node → List Node
  | .mk kind named field span children =>
    if kind = .propertyElement then
      if isFilesProperty source (.mk kind named field span children) then
        (Node.findIn? (·.kind == .arrayCreation) children).toList
      else []
    else filesArrays source children

def filesArrays (source : List UInt8) : List Node → List Node
  | [] => []
  | n :: rest => (if n.named then filesArraysOf source n else []) ++ filesArrays source rest

end

/-- the arrays that hold a table -/
def tables (artifact : CacheArtifact) (source : List UInt8) (root : Node) : List Node :=
  match artifact with
  | .files => returnedArray root
  | .static_ => filesArraysOf source root

/-- the key and the value of an element that has both -/
def entryOf? (element : Node) : Option (Node × Node) :=
  if element.children.any (·.kind == .arrow) then
    match element.namedChildren with
    | key :: rest => rest.getLast?.map fun value => (key, value)
    | [] => none
  else none

/-- the edit of an entry: none if it has no key, or none that reads as a quoted text, or one that is marked -/
def entryEdit (vendorDir : String) (source : List UInt8) (element : Node) : List Edit :=
  match entryOf? element with
  | some (key, value) =>
    let keyText := (Php.textAt? source key.span).getD ""
    match Literal.ofSource? keyText key.span.start with
    | none => []
    | some l =>
      if Text.containsText l.value marker then []
      else
        let newKey := cacheKey vendorDir ((Php.textAt? source value.span).getD "") l.value
        [⟨key.span, keyText, "'" ++ newKey ++ "'"⟩]
  | none => []

def tableEdits (vendorDir : String) (source : List UInt8) (table : Node) : List Edit :=
  (table.children.filter (·.isNamed .arrayElement)).flatMap (entryEdit vendorDir source)

/-- replaces the unmarked keys of a generated file: the new contents, and how many keys were replaced -/
def rekeySource (vendorDir : String) (artifact : CacheArtifact) (source : List UInt8) (path : String)
    (parser : Parser := Php.parser) : Outcome (List UInt8 × Nat) :=
  match parser source with
  | none => .error (Failure.syntaxError path)
  | some root =>
    let edits := (tables artifact source root).flatMap (tableEdits vendorDir source)
    if edits.isEmpty then .ok (source, 0)
    else
      match Edit.applyAll source edits with
      | .error f => .error f
      | .ok contents => .ok (contents, edits.length)

end AutoloadCache

end Isolation
