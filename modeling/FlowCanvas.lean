import FlowCanvas.Build.Analysis
import FlowCanvas.Build.Arguments
import FlowCanvas.Build.Builder
import FlowCanvas.Build.Node
import FlowCanvas.Build.Site
import FlowCanvas.Command.Arguments
import FlowCanvas.Command.Run
import FlowCanvas.Decimal.Shortest
import FlowCanvas.Diagram
import FlowCanvas.Document
import FlowCanvas.Json.Number
import FlowCanvas.Json.Reader
import FlowCanvas.Json.Value
import FlowCanvas.Json.Writer
import FlowCanvas.Node.Basic
import FlowCanvas.Node.Codec
import FlowCanvas.Node.Kind
import FlowCanvas.Node.Property
import FlowCanvas.Path
import FlowCanvas.Scope.Class
import FlowCanvas.Scope.Symbol
import FlowCanvas.Service.Request
import FlowCanvas.Service.Settings
import FlowCanvas.Service.Toml
import FlowCanvas.Service.Workspace
import FlowCanvas.Source.Error
import FlowCanvas.Source.Expression
import FlowCanvas.Source.Parser.Cursor
import FlowCanvas.Source.Parser.Member
import FlowCanvas.Source.Parser.Statement
import FlowCanvas.Source.Tree
import FlowCanvas.Template.Bundled
import FlowCanvas.Template.Catalog
import FlowCanvas.Template.Fresh
import FlowCanvas.Text.Blank
import FlowCanvas.Text.Digits
import FlowCanvas.Text.Lines
import FlowCanvas.Text.Position
import FlowCanvas.Text.Split
import FlowCanvas.Token.Basic
import FlowCanvas.Token.Brackets
import FlowCanvas.Token.Lexer
import FlowCanvas.TypeData
import FlowCanvas.Write.Edit
import FlowCanvas.Write.Piece
import FlowCanvas.Write.Statement
import FlowCanvas.Proofs.Lexing
import FlowCanvas.Proofs.Spelling
import FlowCanvas.Main
import FlowCanvas.Proofs.Scanning
import FlowCanvas.Proofs.Places
import FlowCanvas.Proofs.Brackets
import FlowCanvas.Proofs.Nesting
import FlowCanvas.Proofs.Readers
import FlowCanvas.Proofs.Reading
import FlowCanvas.Proofs.Building
import FlowCanvas.Proofs.Forest
import FlowCanvas.Proofs.Rendering
import FlowCanvas.Proofs.Remains
import FlowCanvas.Proofs.Leaves
import FlowCanvas.Proofs.Editing
import FlowCanvas.Proofs.RoundTrip
import FlowCanvas.Proofs.Wording
import FlowCanvas.Proofs.Losses
import FlowCanvas.Proofs.CallReading
import FlowCanvas.Proofs.Arguments
import FlowCanvas.Proofs.CallWriting
import FlowCanvas.Proofs.CallNodes
import FlowCanvas.Proofs.CallStatements
import FlowCanvas.Proofs.CallLosses
import FlowCanvas.Proofs.CallRoundTrip
import FlowCanvas.Proofs.Copies
import FlowCanvas.Proofs.Unplaced
import FlowCanvas.Proofs.Framing
import FlowCanvas.Proofs.Recasting
import FlowCanvas.Proofs.ModuleParts
import FlowCanvas.Proofs.Exchanging
import FlowCanvas.Proofs.Seams
import FlowCanvas.Proofs.StatementEdits
import FlowCanvas.Proofs.TokenGrammar
import FlowCanvas.Proofs.Lossless
import FlowCanvas.Proofs.TreeNodes
import FlowCanvas.Proofs.Spans
import FlowCanvas.Proofs.Erasure
import FlowCanvas.Proofs.LayoutFree
import FlowCanvas.Proofs.ByteLoops
import FlowCanvas.Proofs.ByteLexer
import FlowCanvas.Proofs.IndexedCursor
import FlowCanvas.Proofs.IndexedExpressions
import FlowCanvas.Proofs.IndexedStatements
import FlowCanvas.Proofs.IndexedMembers
import FlowCanvas.Proofs.Faultless
import FlowCanvas.Proofs.Sorting
import FlowCanvas.Proofs.Pruning
import FlowCanvas.Proofs.Sessions
import FlowCanvas.Proofs.Descent
import FlowCanvas.Proofs.Connections
import FlowCanvas.Proofs.Rescanning
import FlowCanvas.Proofs.TypePhrases
import FlowCanvas.Proofs.TypeReading
import FlowCanvas.Proofs.TypeRoundTrip
import FlowCanvas.Proofs.TypeEdits
import FlowCanvas.Proofs.Tightness
import FlowCanvas.Proofs.Enclosing
import FlowCanvas.Proofs.Zooming
import FlowCanvas.Proofs.Scopes
import FlowCanvas.Proofs.Visibility
import FlowCanvas.Proofs.Scoping
import FlowCanvas.Proofs.Clients
import FlowCanvas.Proofs.Offsets
import FlowCanvas.Proofs.Requirements
import FlowCanvas.Proofs.Rereading
import FlowCanvas.Proofs.EditedTexts
import FlowCanvas.Proofs.EditedCalls
import FlowCanvas.Proofs.DeclaredTexts
import FlowCanvas.Proofs.ModuleVariables
import FlowCanvas.Proofs.Modifiers
import FlowCanvas.Proofs.Headers
import FlowCanvas.Proofs.FunctionNames
import FlowCanvas.Proofs.ParameterAnnotations
import FlowCanvas.Proofs.TypeForms
import FlowCanvas.Proofs.Spacing
import FlowCanvas.Proofs.Indentation
import FlowCanvas.Proofs.CallParts
import FlowCanvas.Proofs.JsonTexts
import FlowCanvas.Proofs.JsonRecords
import FlowCanvas.Proofs.NodeTexts
import FlowCanvas.Proofs.InsertionOrder
