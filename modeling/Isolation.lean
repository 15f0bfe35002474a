import Isolation.AutoloadCache
import Isolation.CommandLine.Argument
import Isolation.CommandLine.Command
import Isolation.CommandLine.Display
import Isolation.CommandLine.Reply
import Isolation.Composer.Autoload
import Isolation.Composer.Package
import Isolation.Composer.Project
import Isolation.Config.Basic
import Isolation.Config.Yaml
import Isolation.Discovery
import Isolation.Disk.Basic
import Isolation.Disk.Lookup
import Isolation.Disk.Operations
import Isolation.Disk.SourceFile
import Isolation.Entries
import Isolation.Failure
import Isolation.Json.Basic
import Isolation.Json.Number
import Isolation.Json.Printer
import Isolation.Json.Reader
import Isolation.Json.Shape
import Isolation.Json.Token
import Isolation.Main
import Isolation.Name.Label
import Isolation.Name.Namespace
import Isolation.Name.NamespaceSet
import Isolation.Name.Policy
import Isolation.Name.WrittenName
import Isolation.Number.Rounding
import Isolation.Number.Shortest
import Isolation.Number.Total
import Isolation.Path
import Isolation.Prefixing.Context
import Isolation.Prefixing.Source
import Isolation.Prefixing.Traversal
import Isolation.Proofs.Composer.Resolution
import Isolation.Proofs.Name.Decision
import Isolation.Proofs.Name.Exclusion
import Isolation.Proofs.Name.Joining
import Isolation.Proofs.Name.Whitelist
import Isolation.Proofs.Prefixing.Coverage
import Isolation.Proofs.Prefixing.Declarations
import Isolation.Proofs.Prefixing.Fitting
import Isolation.Proofs.Prefixing.SecondWalk
import Isolation.Proofs.Prefixing.Sites
import Isolation.Proofs.Source.Mentions
import Isolation.Proofs.Source.NodeSpans
import Isolation.Proofs.Source.ParserSpans
import Isolation.Proofs.Source.Reading
import Isolation.Proofs.Source.TokenSpans
import Isolation.Relocation
import Isolation.Report
import Isolation.Run
import Isolation.Source.Edit
import Isolation.Source.Grammar
import Isolation.Source.Language
import Isolation.Source.Lexer
import Isolation.Source.Literal
import Isolation.Source.Lowering
import Isolation.Source.Node
import Isolation.Source.PhpGrammar
import Isolation.Source.PhpTree
import Isolation.Source.Syntax
import Isolation.Source.Token
import Isolation.Terminal.Style
import Isolation.Terminal.Table
import Isolation.Text.Ascii
import Isolation.Text.Blank
import Isolation.Text.Search
import Isolation.Text.Utf8
import Isolation.Text.Width
import Isolation.Yaml.Place
import Isolation.Yaml.Printer
import Isolation.Yaml.Reader
import Isolation.Yaml.Scalar
import Isolation.Yaml.Token
import Isolation.Proofs.Source.QuotedValue
import Isolation.Proofs.Json.Tokens
import Isolation.Proofs.Prefixing.LiteralEdits
import Isolation.Proofs.Composer.Records
import Isolation.Proofs.Composer.Persistence
import Isolation.Proofs.Disk.Tree
import Isolation.Proofs.Relocation.DeclaredFiles
import Isolation.Proofs.Run.RecordFrame
import Isolation.Proofs.Name.Lookalikes
import Isolation.Proofs.Composer.RenamedKeys
import Isolation.Proofs.Prefixing.GroupImports
import Isolation.Proofs.Prefixing.ImportedReferences
import Isolation.Proofs.Source.SimultaneousEdits
import Isolation.Proofs.Composer.LostEntries
import Isolation.Proofs.Config.AcceptedPrefix
import Isolation.Proofs.Relocation.Layout
import Isolation.Proofs.Source.Reversal
import Isolation.Proofs.Name.AncestorClosure
import Isolation.Proofs.Composer.RequiredPackages
import Isolation.Proofs.Prefixing.ClassNames
import Isolation.Proofs.Path.NormalForm
import Isolation.Proofs.AutoloadCache.Keys
import Isolation.Proofs.AutoloadCache.Rekeying
import Isolation.Proofs.Source.Decoding
import Isolation.Proofs.Prefixing.Visits
import Isolation.Proofs.Source.WrittenNames
