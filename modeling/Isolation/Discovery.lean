/-
The namespaces that the sources of a package declare. Files that cannot be read are noted and passed over.
-/
import Isolation.Disk.SourceFile
import Isolation.Report
import Isolation.Source.Lowering

namespace Isolation

/-- what was found in one package -/
structure PackageDiscovery where
  namespaces : NamespaceSet := {}
  /-- files that could be read -/
  filesScanned : Nat := 0
  failures : List Skipped := []
deriving DecidableEq, Repr

namespace Discovery

/-- the namespaces that a file declares -/
def file (d : Disk) (path : String) (parser : Parser := Php.parser) : Outcome (List String) := do
  let source ← SourceFile.readBytes d path
  let nodes ← (Php.parse source path parser).mapError (·.inFile path)
  return SyntaxNode.declaredNamespaces nodes

/-- adds what one file declares -/
def addFile (d : Disk) (parser : Parser) (found : PackageDiscovery) (path : String) : PackageDiscovery :=
  match file d path parser with
  | .ok names =>
    { found with namespaces := found.namespaces.insertAll names, filesScanned := found.filesScanned + 1 }
  | .error f => { found with failures := found.failures ++ [Skipped.ofFailure path .discovery f] }

/-- the namespaces declared at or below a path -/
def package (d : Disk) (root : String) (extensions : List String) (parser : Parser := Php.parser) : PackageDiscovery :=
  (SourceFile.collect d root extensions).foldl (addFile d parser) {}

end Discovery

/-- the entry of a package in a report -/
def PackageDiscovery.toReport (found : PackageDiscovery) (package : String) : PackageNamespaces :=
  ⟨package, found.namespaces.names, found.filesScanned⟩

end Isolation
