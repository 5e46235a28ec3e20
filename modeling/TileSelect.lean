import TileSelect.Asm.Halves
import TileSelect.Asm.Part
import TileSelect.Asm.Text
import TileSelect.Block.Basic
import TileSelect.Block.Build
import TileSelect.Block.Dependencies
import TileSelect.CommandLine
import TileSelect.Expansion.Combination
import TileSelect.Expansion.Draft
import TileSelect.Expansion.Instantiation
import TileSelect.Expansion.SubstFault
import TileSelect.Expansion.Substitution
import TileSelect.Index
import TileSelect.Keyed
import TileSelect.Lowering
import TileSelect.Main
import TileSelect.Match.Attempt
import TileSelect.Match.Record
import TileSelect.NodeSet
import TileSelect.Operation
import TileSelect.Pattern.Definition
import TileSelect.Pattern.DefinitionError
import TileSelect.Pattern.Shape
import TileSelect.Pattern.Text
import TileSelect.Proofs.Asm.Halves
import TileSelect.Proofs.Asm.Pieces
import TileSelect.Proofs.Asm.Values
import TileSelect.Proofs.Block.Reachability
import TileSelect.Proofs.Block.Renumbering
import TileSelect.Proofs.Expansion.Assembly
import TileSelect.Proofs.Expansion.Choices
import TileSelect.Proofs.Expansion.Closure
import TileSelect.Proofs.Expansion.Combinations
import TileSelect.Proofs.Expansion.Enumeration
import TileSelect.Proofs.Expansion.Explicit
import TileSelect.Proofs.Expansion.Filling
import TileSelect.Proofs.Expansion.Hygiene
import TileSelect.Proofs.Expansion.Lasting
import TileSelect.Proofs.Expansion.Numbering
import TileSelect.Proofs.Expansion.Occurrences
import TileSelect.Proofs.Expansion.Odometer
import TileSelect.Proofs.Expansion.Operands
import TileSelect.Proofs.Expansion.Reads
import TileSelect.Proofs.Expansion.Recounting
import TileSelect.Proofs.Expansion.Rendering
import TileSelect.Proofs.Expansion.Renumbering
import TileSelect.Proofs.Expansion.Resolution
import TileSelect.Proofs.Faults
import TileSelect.Proofs.Lowering
import TileSelect.Proofs.Match.Completeness
import TileSelect.Proofs.Match.Depth
import TileSelect.Proofs.Match.Embedding
import TileSelect.Proofs.Match.Entry
import TileSelect.Proofs.Match.Exactness
import TileSelect.Proofs.Match.Exchange
import TileSelect.Proofs.Match.Extension
import TileSelect.Proofs.Match.Frame
import TileSelect.Proofs.Match.Layers
import TileSelect.Proofs.Match.Position
import TileSelect.Proofs.Match.References
import TileSelect.Proofs.Match.Renumbering
import TileSelect.Proofs.Match.Termination
import TileSelect.Proofs.Match.Widths
import TileSelect.Proofs.Meaning.Address
import TileSelect.Proofs.Meaning.Calls
import TileSelect.Proofs.Meaning.Formula
import TileSelect.Proofs.Meaning.Location
import TileSelect.Proofs.Meaning.Machine
import TileSelect.Proofs.Meaning.Pattern
import TileSelect.Proofs.Meaning.Shape
import TileSelect.Proofs.Meaning.Template
import TileSelect.Proofs.Pattern.Places
import TileSelect.Proofs.Pattern.ReadBack
import TileSelect.Proofs.Pattern.References
import TileSelect.Proofs.Pattern.Scope
import TileSelect.Proofs.Pattern.Templates
import TileSelect.Proofs.Pattern.Text
import TileSelect.Proofs.Pattern.WellFormed
import TileSelect.Proofs.Report
import TileSelect.Proofs.Selection.Alone
import TileSelect.Proofs.Selection.Arithmetic
import TileSelect.Proofs.Selection.Candidates
import TileSelect.Proofs.Selection.Coverage
import TileSelect.Proofs.Selection.Extension
import TileSelect.Proofs.Selection.Halves
import TileSelect.Proofs.Selection.Hygiene
import TileSelect.Proofs.Selection.Offers
import TileSelect.Proofs.Selection.Operands
import TileSelect.Proofs.Selection.Order
import TileSelect.Proofs.Selection.Outcomes
import TileSelect.Proofs.Selection.Pipeline
import TileSelect.Proofs.Selection.Reads
import TileSelect.Proofs.Selection.Renumbering
import TileSelect.Proofs.Selection.Signature
import TileSelect.Proofs.Selection.Subgraph
import TileSelect.Proofs.Selection.Verdict
import TileSelect.Proofs.Source.Grammar
import TileSelect.Proofs.Source.Lexing
import TileSelect.Proofs.Source.Locality
import TileSelect.Proofs.Source.Parsing
import TileSelect.Proofs.Source.Partition
import TileSelect.Proofs.Source.Paths
import TileSelect.Proofs.Source.Reading
import TileSelect.Proofs.Source.Recovery
import TileSelect.Proofs.Source.Spans
import TileSelect.Proofs.Source.Spelling
import TileSelect.Proofs.Tables
import TileSelect.Proofs.Text.Lines
import TileSelect.Report
import TileSelect.Samples
import TileSelect.Selection.Selector
import TileSelect.Selection.Settings
import TileSelect.Session
import TileSelect.Source.Document
import TileSelect.Source.Lexeme
import TileSelect.Source.Parser
import TileSelect.Source.Span
import TileSelect.Source.SyntaxError
import TileSelect.Source.Token
import TileSelect.Tables
import TileSelect.Tables.X86
import TileSelect.Text.Lines
import TileSelect.Text.Unsigned
import TileSelect.Tile
import TileSelect.ValueType
import TileSelect.Verdict
