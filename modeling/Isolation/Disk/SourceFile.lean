/-
Source files on disk: reading, writing only what changed, telling sources from other files, and collecting the
sources of a package in a fixed order.
-/
import Isolation.Disk.Operations
import Isolation.Failure
import Isolation.Text.Ascii

namespace Isolation.SourceFile

/-- an input or output failure with what was being done to which path -/
def failed (doing path : String) (e : SystemError) : Failure := .io (doing ++ ": " ++ path) e.text

def readBytes (d : Disk) (path : String) : Outcome (List UInt8) :=
  (d.read path).mapError (failed "Failed to read file" path)

def readText (d : Disk) (path : String) : Outcome String :=
  (d.readText path).mapError (failed "Failed to read file" path)

/-- writes a file unless it holds the contents already; tells whether it was written -/
def writeIfChanged (d : Disk) (path : String) (contents : List UInt8) : Outcome (Bool × Disk) :=
  if (d.read path).toOption = some contents then .ok (false, d)
  else
    match d.write path contents with
    | .ok d => .ok (true, d)
    | .error e => .error (failed "Failed to write file" path e)

/-! ## What is a source -/

/-- how much of a file is looked at -/
def sniffLength : Nat := 512

/-- the bytes behind a first line that names an interpreter -/
def behindShebang (bytes : List UInt8) : List UInt8 :=
  if (Utf8.encode "#!").isPrefixOf bytes then (bytes.dropWhile (· ≠ 0x0a)).drop 1 else bytes

def lowerByte (b : UInt8) : UInt8 := if 0x41 ≤ b && b ≤ 0x5a then b + 0x20 else b

/-- the sample starts with `<?php`, a shebang line and the case of letters aside -/
def hasOpenTag (sample : List UInt8) : Bool :=
  (Utf8.encode "<?php").isPrefixOf ((behindShebang sample).map lowerByte)

/-- the file starts with an opening tag -/
def startsWithOpenTag (d : Disk) (path : String) : Outcome Bool :=
  match d.openAt path with
  | .error e => .error (failed "Failed to open file" path e)
  | .ok none => .error (failed "Failed to sample file" path .isDirectory)
  | .ok (some bytes) => .ok (hasOpenTag (bytes.take sniffLength))

/-- a file with one of the extensions, or one without extension that starts with an opening tag -/
def isSource (d : Disk) (extensions : List String) (path : String) : Bool :=
  match Path.extension? path with
  | some ext => extensions.any fun candidate => Ascii.lower (Text.trimStart '.' candidate) == Ascii.lower ext
  | none => (startsWithOpenTag d path).toOption.getD false

/-- the sources at or below a path, in the order of paths -/
def collect (d : Disk) (root : String) (extensions : List String) : List String :=
  ((d.filesAt root).filter (isSource d extensions)).mergeSort Path.le

end Isolation.SourceFile
