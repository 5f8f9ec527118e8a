import Stencil.Compile
import Stencil.Component.Analysis
import Stencil.Component.Basic
import Stencil.Component.Chain
import Stencil.Component.Imports
import Stencil.Component.Problem
import Stencil.Component.Visit
import Stencil.Decimal.Binary
import Stencil.Decimal.Shortest
import Stencil.Digest
import Stencil.Error
import Stencil.Json
import Stencil.Markup.Blank
import Stencil.Markup.Brace
import Stencil.Markup.Build
import Stencil.Markup.Document
import Stencil.Markup.Interpolation
import Stencil.Markup.Keyword
import Stencil.Markup.Loop
import Stencil.Markup.Node
import Stencil.Markup.Print
import Stencil.Markup.Scan
import Stencil.Markup.Tag
import Stencil.Markup.Token
import Stencil.Options.Basic
import Stencil.Options.Read
import Stencil.Passes.Attributes
import Stencil.Passes.Basic
import Stencil.Passes.Blocks
import Stencil.Passes.Embedded
import Stencil.Passes.Texts
import Stencil.Passes.Transform
import Stencil.Passes.Types
import Stencil.Proofs.Account
import Stencil.Proofs.Assigned
import Stencil.Proofs.Attached
import Stencil.Proofs.Attributes
import Stencil.Proofs.Balanced
import Stencil.Proofs.Bare
import Stencil.Proofs.Braceless
import Stencil.Proofs.Braces
import Stencil.Proofs.Builds
import Stencil.Proofs.Calls
import Stencil.Proofs.Chains
import Stencil.Proofs.Clauses
import Stencil.Proofs.Collapse
import Stencil.Proofs.Comment
import Stencil.Proofs.Content
import Stencil.Proofs.Directives
import Stencil.Proofs.Divided
import Stencil.Proofs.Emitted
import Stencil.Proofs.Entries
import Stencil.Proofs.Environment
import Stencil.Proofs.Examined
import Stencil.Proofs.Extents
import Stencil.Proofs.Filling
import Stencil.Proofs.Flattening
import Stencil.Proofs.Folded
import Stencil.Proofs.Forest
import Stencil.Proofs.Frame
import Stencil.Proofs.Gathered
import Stencil.Proofs.Header
import Stencil.Proofs.Holes
import Stencil.Proofs.Imitation
import Stencil.Proofs.Keywords
import Stencil.Proofs.Landing
import Stencil.Proofs.Legible
import Stencil.Proofs.Letters
import Stencil.Proofs.Lexemes
import Stencil.Proofs.Literals
import Stencil.Proofs.Located
import Stencil.Proofs.Log
import Stencil.Proofs.Marker
import Stencil.Proofs.Marking
import Stencil.Proofs.Minified
import Stencil.Proofs.Needed
import Stencil.Proofs.Nesting
import Stencil.Proofs.Nodes
import Stencil.Proofs.Normal
import Stencil.Proofs.Numbering
import Stencil.Proofs.Occurrences
import Stencil.Proofs.OnePass
import Stencil.Proofs.OneValue
import Stencil.Proofs.OpenTag
import Stencil.Proofs.Operands
import Stencil.Proofs.Order
import Stencil.Proofs.Origin
import Stencil.Proofs.Outline
import Stencil.Proofs.Ownership
import Stencil.Proofs.Pairing
import Stencil.Proofs.Pasted
import Stencil.Proofs.Picked
import Stencil.Proofs.Placeholders
import Stencil.Proofs.Positions
import Stencil.Proofs.PrintedDocument
import Stencil.Proofs.PrintedNodes
import Stencil.Proofs.PrintedTemplate
import Stencil.Proofs.PrintedValues
import Stencil.Proofs.Props
import Stencil.Proofs.Quiet
import Stencil.Proofs.Quotation
import Stencil.Proofs.Reactivity
import Stencil.Proofs.Readers
import Stencil.Proofs.References
import Stencil.Proofs.Registry
import Stencil.Proofs.Regular
import Stencil.Proofs.RegularTrees
import Stencil.Proofs.Resolved
import Stencil.Proofs.RoundTrip
import Stencil.Proofs.Ruled
import Stencil.Proofs.Scanned
import Stencil.Proofs.Scoping
import Stencil.Proofs.Served
import Stencil.Proofs.Settled
import Stencil.Proofs.Shape
import Stencil.Proofs.Sheets
import Stencil.Proofs.Shown
import Stencil.Proofs.SmallLanguage
import Stencil.Proofs.Static
import Stencil.Proofs.StaticModule
import Stencil.Proofs.Strings
import Stencil.Proofs.StyleRoundTrip
import Stencil.Proofs.TagBalance
import Stencil.Proofs.Tally
import Stencil.Proofs.Texts
import Stencil.Proofs.Tile
import Stencil.Proofs.Tiling
import Stencil.Proofs.Tree
import Stencil.Proofs.TreeBuild
import Stencil.Proofs.TreeParse
import Stencil.Proofs.TreeScan
import Stencil.Proofs.Trimming
import Stencil.Proofs.Turns
import Stencil.Proofs.Twins
import Stencil.Proofs.Unquoted
import Stencil.Proofs.Verbatim
import Stencil.Proofs.Walk
import Stencil.Proofs.Written
import Stencil.Render.Client
import Stencil.Render.Code
import Stencil.Render.Emitter
import Stencil.Render.Frame
import Stencil.Render.Scope
import Stencil.Render.Server
import Stencil.Script.Bindings
import Stencil.Script.Expression
import Stencil.Script.Fault
import Stencil.Script.Grammar.Declarations
import Stencil.Script.Grammar.Expressions
import Stencil.Script.Grammar.Functions
import Stencil.Script.Grammar.Modules
import Stencil.Script.Grammar.Names
import Stencil.Script.Grammar.Parameters
import Stencil.Script.Grammar.Statements
import Stencil.Script.Grammar.Targets
import Stencil.Script.Grammar.Types
import Stencil.Script.Import
import Stencil.Script.Language
import Stencil.Script.Lexer
import Stencil.Script.Literal
import Stencil.Script.Parser
import Stencil.Script.Parts
import Stencil.Script.Program
import Stencil.Script.Reader
import Stencil.Script.Scope
import Stencil.Script.Token
import Stencil.Script.Tree
import Stencil.Source.Diagnostic
import Stencil.Source.Location
import Stencil.Style.Flatten
import Stencil.Style.Hash
import Stencil.Style.Print
import Stencil.Style.Read
import Stencil.Style.Selector
import Stencil.Style.Sheet
import Stencil.Template
import Stencil.Text.Alphanumeric
import Stencil.Text.Chars
import Stencil.Text.Flips
import Stencil.Text.IdentifierPart
import Stencil.Text.IdentifierStart
import Stencil.Text.Offset
import Stencil.Text.Quoted
import Stencil.Text.Search
import Stencil.Text.Trim
