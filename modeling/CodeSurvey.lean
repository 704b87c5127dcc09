import CodeSurvey.Cache.Codec
import CodeSurvey.Cache.Store
import CodeSurvey.CallGraph
import CodeSurvey.Command.Options
import CodeSurvey.Command.Run
import CodeSurvey.Command.Summary
import CodeSurvey.Complexity
import CodeSurvey.Config
import CodeSurvey.DeadCode
import CodeSurvey.Decimal
import CodeSurvey.Declaration
import CodeSurvey.Digest.Basic
import CodeSurvey.Digest.Blake3
import CodeSurvey.Digest.Sha256
import CodeSurvey.Disk
import CodeSurvey.Doc.Comment
import CodeSurvey.Doc.TypeTags
import CodeSurvey.Document
import CodeSurvey.EntryPoint
import CodeSurvey.Extraction
import CodeSurvey.FileTree.Basic
import CodeSurvey.FileTree.Listing
import CodeSurvey.Graph.Basic
import CodeSurvey.Graph.Cycle
import CodeSurvey.Host
import CodeSurvey.Import.Graph
import CodeSurvey.Import.Resolve
import CodeSurvey.Json.Basic
import CodeSurvey.Json.Printer
import CodeSurvey.Json.Reader
import CodeSurvey.Json.Record
import CodeSurvey.Language
import CodeSurvey.Language.JavaScript
import CodeSurvey.Language.Python
import CodeSurvey.Language.Swift
import CodeSurvey.Main
import CodeSurvey.Mask
import CodeSurvey.Parameter
import CodeSurvey.Pattern
import CodeSurvey.Phase
import CodeSurvey.Proofs.Attribution.Basic
import CodeSurvey.Proofs.Attribution.Brace
import CodeSurvey.Proofs.Attribution.Gap
import CodeSurvey.Proofs.Attribution.Literal
import CodeSurvey.Proofs.Attribution.Local
import CodeSurvey.Proofs.BraceSpan
import CodeSurvey.Proofs.Cache.Codec
import CodeSurvey.Proofs.Cache.History
import CodeSurvey.Proofs.Cache.Load
import CodeSurvey.Proofs.CallGraph
import CodeSurvey.Proofs.CallResolution
import CodeSurvey.Proofs.CallToken
import CodeSurvey.Proofs.Complexity
import CodeSurvey.Proofs.DeadCode
import CodeSurvey.Proofs.Disk
import CodeSurvey.Proofs.Document.Attribute
import CodeSurvey.Proofs.Extraction.Id
import CodeSurvey.Proofs.Extraction.Identity
import CodeSurvey.Proofs.Extraction.Line
import CodeSurvey.Proofs.Extraction.Name
import CodeSurvey.Proofs.Extraction.Parameter
import CodeSurvey.Proofs.Extraction.Queue
import CodeSurvey.Proofs.Extraction.Symbol
import CodeSurvey.Proofs.Extraction.Trace
import CodeSurvey.Proofs.FileTree.Listing
import CodeSurvey.Proofs.Graph.Basic
import CodeSurvey.Proofs.Graph.Canonical
import CodeSurvey.Proofs.Graph.Coverage
import CodeSurvey.Proofs.Graph.Cycle
import CodeSurvey.Proofs.Graph.Forest
import CodeSurvey.Proofs.Graph.Indexed
import CodeSurvey.Proofs.Graph.Insertion
import CodeSurvey.Proofs.Graph.Walk
import CodeSurvey.Proofs.Import.Accounting
import CodeSurvey.Proofs.Import.Candidate
import CodeSurvey.Proofs.Import.Comment
import CodeSurvey.Proofs.Import.Path
import CodeSurvey.Proofs.Json.Document
import CodeSurvey.Proofs.Json.Record
import CodeSurvey.Proofs.Json.Token
import CodeSurvey.Proofs.Mask.Analysis
import CodeSurvey.Proofs.Mask.Comment
import CodeSurvey.Proofs.Mask.Idempotent
import CodeSurvey.Proofs.Mask.Layout
import CodeSurvey.Proofs.Mask.Place
import CodeSurvey.Proofs.Mask.Splice
import CodeSurvey.Proofs.Outline.Basic
import CodeSurvey.Proofs.Outline.Python
import CodeSurvey.Proofs.Outline.Swift
import CodeSurvey.Proofs.Outline.Text
import CodeSurvey.Proofs.Parameter
import CodeSurvey.Proofs.Parameter.Bracket
import CodeSurvey.Proofs.Pattern.Capture
import CodeSurvey.Proofs.Pattern.Ending
import CodeSurvey.Proofs.Pattern.First
import CodeSurvey.Proofs.Pattern.Scan
import CodeSurvey.Proofs.Pattern.Window
import CodeSurvey.Proofs.Scan.Faithful
import CodeSurvey.Proofs.Scan.Limit
import CodeSurvey.Proofs.Scan.Recall
import CodeSurvey.Proofs.Scan.Refresh
import CodeSurvey.Proofs.Scan.Serve
import CodeSurvey.Proofs.Scan.Update
import CodeSurvey.Proofs.Scope
import CodeSurvey.Proofs.Search
import CodeSurvey.Proofs.Survey.Count
import CodeSurvey.Proofs.Survey.History
import CodeSurvey.Proofs.Survey.Repeat
import CodeSurvey.Proofs.Survey.Run
import CodeSurvey.Proofs.SymbolTable
import CodeSurvey.Proofs.SymbolTable.Index
import CodeSurvey.Proofs.Table
import CodeSurvey.Proofs.Text.Cut
import CodeSurvey.Proofs.Text.Line
import CodeSurvey.Proofs.Text.Offset
import CodeSurvey.Proofs.Text.Order
import CodeSurvey.Proofs.Text.Utf8
import CodeSurvey.Proofs.Workspace
import CodeSurvey.Registry
import CodeSurvey.Report
import CodeSurvey.Scan
import CodeSurvey.Scope
import CodeSurvey.SourceFile
import CodeSurvey.SourceText
import CodeSurvey.Span
import CodeSurvey.Survey
import CodeSurvey.SymbolTable
import CodeSurvey.Table
import CodeSurvey.Text.Basic
import CodeSurvey.Text.Blank
import CodeSurvey.Text.LineIndex
import CodeSurvey.Text.Utf8
import CodeSurvey.Text.Word
import CodeSurvey.TreePath
import CodeSurvey.Warning
import CodeSurvey.Workspace
import CodeSurvey.Proofs.BraceEnd
import CodeSurvey.Proofs.LineOwner
import CodeSurvey.Proofs.LineRange
import CodeSurvey.Proofs.Document.Script
import CodeSurvey.Proofs.Document.Page
import CodeSurvey.Proofs.Graph.Search
import CodeSurvey.Proofs.Scope.Run
import CodeSurvey.Proofs.Text.LineStart
import CodeSurvey.Proofs.Parameter.Paren
