import OpenQasm.Backend
import OpenQasm.Circuit
import OpenQasm.Complex
import OpenQasm.Expr.Basic
import OpenQasm.Expr.Parser
import OpenQasm.Expr.Token
import OpenQasm.FileTree
import OpenQasm.Gate
import OpenQasm.Line
import OpenQasm.Metadata
import OpenQasm.Number.Binary
import OpenQasm.Number.Decimal
import OpenQasm.Number.Functions
import OpenQasm.Number.Order
import OpenQasm.Number.Reader
import OpenQasm.Number.Shortest
import OpenQasm.Number.Text
import OpenQasm.Operation
import OpenQasm.Outcome
import OpenQasm.Parameter
import OpenQasm.Placeholder
import OpenQasm.Program
import OpenQasm.Proofs.Backend.Pipeline
import OpenQasm.Proofs.Backend.Writing
import OpenQasm.Proofs.Expr.Blanks
import OpenQasm.Proofs.Expr.Evaluation
import OpenQasm.Proofs.Expr.Grammar
import OpenQasm.Proofs.Expr.Lexing
import OpenQasm.Proofs.Number.Arithmetic
import OpenQasm.Proofs.Number.Decimals
import OpenQasm.Proofs.Number.Naturals
import OpenQasm.Proofs.Number.Order
import OpenQasm.Proofs.Number.Packing
import OpenQasm.Proofs.Number.Range
import OpenQasm.Proofs.Number.Rounding
import OpenQasm.Proofs.Number.Scanning
import OpenQasm.Proofs.Number.Shortest
import OpenQasm.Proofs.Number.Text
import OpenQasm.Proofs.Number.Value
import OpenQasm.Proofs.Placeholder.Binding
import OpenQasm.Proofs.Placeholder.Cache
import OpenQasm.Proofs.Placeholder.Staging
import OpenQasm.Proofs.Placeholder.Substitution
import OpenQasm.Proofs.Simulator.Outcomes
import OpenQasm.Proofs.Simulator.Readout
import OpenQasm.Proofs.Source.Arguments
import OpenQasm.Proofs.Source.Clauses
import OpenQasm.Proofs.Source.Commands
import OpenQasm.Proofs.Source.Comments
import OpenQasm.Proofs.Source.Failures
import OpenQasm.Proofs.Source.Layout
import OpenQasm.Proofs.Source.Lines
import OpenQasm.Proofs.Source.Measuring
import OpenQasm.Proofs.Source.Reading
import OpenQasm.Proofs.Source.RoundTrip
import OpenQasm.Proofs.Source.Scopes
import OpenQasm.Proofs.Source.Scoping
import OpenQasm.Proofs.Source.Spelling
import OpenQasm.Proofs.Source.Statements
import OpenQasm.Proofs.Success
import OpenQasm.Proofs.Table
import OpenQasm.Proofs.Text.Cutting
import OpenQasm.QubitName
import OpenQasm.Register
import OpenQasm.Simulator
import OpenQasm.Source.Command
import OpenQasm.Source.Reader
import OpenQasm.Source.Statement
import OpenQasm.Storage
import OpenQasm.Table
import OpenQasm.Text.Blank
import OpenQasm.Text.Units
import OpenQasm.Text.Word
import OpenQasm.Proofs.Backend.History
import OpenQasm.Proofs.Simulator.Requests
import OpenQasm.Proofs.Simulator.Protocol
import OpenQasm.Proofs.Backend.Declarations
import OpenQasm.Proofs.Placeholder.Sharing
import OpenQasm.Proofs.Text.Groups
import OpenQasm.Proofs.Simulator.Spacing
import OpenQasm.Proofs.Failure
import OpenQasm.Proofs.Backend.Problems
import OpenQasm.Proofs.Circuit.Sessions
import OpenQasm.Proofs.Simulator.Histograms
import OpenQasm.Proofs.Backend.Classification
import OpenQasm.Proofs.Backend.Inputs
import OpenQasm.Proofs.Source.Angles
import OpenQasm.Proofs.Text.Runs
import OpenQasm.Proofs.Placeholder.Replacement
import OpenQasm.Proofs.Placeholder.Composition
import OpenQasm.Proofs.Backend.Operands
import OpenQasm.Proofs.Backend.Deferring
import OpenQasm.Proofs.Source.LateBinding
import OpenQasm.Proofs.Expr.Dependence
import OpenQasm.Proofs.Backend.PlainAngles
import OpenQasm.Proofs.Number.Growth
import OpenQasm.Proofs.Simulator.Ranges
import OpenQasm.Proofs.Source.Positions
import OpenQasm.Proofs.Backend.DefaultNames
