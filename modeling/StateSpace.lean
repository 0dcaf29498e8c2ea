import StateSpace.Circuit.Encoder
import StateSpace.Circuit.Word
import StateSpace.CommandLine.Options
import StateSpace.CommandLine.Run
import StateSpace.Configuration
import StateSpace.Declaration
import StateSpace.Description.Header
import StateSpace.Description.Parser
import StateSpace.Diagram.ComputedTable
import StateSpace.Diagram.Ite
import StateSpace.Diagram.Manager
import StateSpace.Diagram.Model
import StateSpace.Diagram.Quantifier
import StateSpace.Event
import StateSpace.Execution
import StateSpace.Exploration
import StateSpace.Expr.Basic
import StateSpace.Expr.Eval
import StateSpace.Expr.Operator
import StateSpace.Expr.Renaming
import StateSpace.Failure
import StateSpace.Formula.Parser
import StateSpace.Formula.Term
import StateSpace.Formula.Token
import StateSpace.Label.Basic
import StateSpace.Label.Frame
import StateSpace.Label.Successor
import StateSpace.Main
import StateSpace.Profile
import StateSpace.Proofs.Bracketing
import StateSpace.Proofs.Circuit.Arithmetic
import StateSpace.Proofs.Circuit.Division
import StateSpace.Proofs.Circuit.Encoder
import StateSpace.Proofs.Circuit.Encoding
import StateSpace.Proofs.Circuit.Indices
import StateSpace.Proofs.Circuit.Lockstep
import StateSpace.Proofs.Circuit.Meaning
import StateSpace.Proofs.Circuit.Operations
import StateSpace.Proofs.Circuit.Shift
import StateSpace.Proofs.Circuit.Slots
import StateSpace.Proofs.Circuit.Spelling
import StateSpace.Proofs.Circuit.TwosComplement
import StateSpace.Proofs.Circuit.ZeroDivisor
import StateSpace.Proofs.Counting
import StateSpace.Proofs.Coverage
import StateSpace.Proofs.Description.Location
import StateSpace.Proofs.Description.Persistence
import StateSpace.Proofs.Description.Scope
import StateSpace.Proofs.Diagram.Build
import StateSpace.Proofs.Diagram.Calls
import StateSpace.Proofs.Diagram.Canonicity
import StateSpace.Proofs.Diagram.Ite
import StateSpace.Proofs.Diagram.LeastModel
import StateSpace.Proofs.Diagram.Lockstep
import StateSpace.Proofs.Diagram.ModelCount
import StateSpace.Proofs.Diagram.Operations
import StateSpace.Proofs.Diagram.Pairing
import StateSpace.Proofs.Diagram.Path
import StateSpace.Proofs.Diagram.Quantifier
import StateSpace.Proofs.Diagram.Support
import StateSpace.Proofs.Diagram.WellFormed
import StateSpace.Proofs.Execution
import StateSpace.Proofs.Exploration
import StateSpace.Proofs.Exploration.Abreast
import StateSpace.Proofs.Exploration.Congruence
import StateSpace.Proofs.Exploration.Events
import StateSpace.Proofs.Exploration.Following
import StateSpace.Proofs.Exploration.Loop
import StateSpace.Proofs.Exploration.Outcome
import StateSpace.Proofs.Exploration.Rounds
import StateSpace.Proofs.Exploration.Transcript
import StateSpace.Proofs.Expr.Binding
import StateSpace.Proofs.Expr.Encodable
import StateSpace.Proofs.Expr.Eval
import StateSpace.Proofs.Expr.HiddenName
import StateSpace.Proofs.Expr.Renaming
import StateSpace.Proofs.Expr.Scope
import StateSpace.Proofs.Expr.Truth
import StateSpace.Proofs.Formula.Connectives
import StateSpace.Proofs.Formula.Folding
import StateSpace.Proofs.Formula.Grammar
import StateSpace.Proofs.Formula.Invariant
import StateSpace.Proofs.Formula.Inversion
import StateSpace.Proofs.Formula.Lexing
import StateSpace.Proofs.Formula.Scope
import StateSpace.Proofs.Label.Frame
import StateSpace.Proofs.Label.Independence
import StateSpace.Proofs.Label.Scope
import StateSpace.Proofs.Label.Slice
import StateSpace.Proofs.Label.Successor
import StateSpace.Proofs.Novelty
import StateSpace.Proofs.Record.Expr
import StateSpace.Proofs.Record.Normalisation
import StateSpace.Proofs.Record.Refusal
import StateSpace.Proofs.Record.System
import StateSpace.Proofs.Region
import StateSpace.Proofs.Search.Completeness
import StateSpace.Proofs.Search.Congruence
import StateSpace.Proofs.Search.Depth
import StateSpace.Proofs.Search.Enumeration
import StateSpace.Proofs.Search.Events
import StateSpace.Proofs.Search.FewVariables
import StateSpace.Proofs.Search.FirstDepth
import StateSpace.Proofs.Search.NewStates
import StateSpace.Proofs.Search.NextValue
import StateSpace.Proofs.Search.Origin
import StateSpace.Proofs.Search.Pinning
import StateSpace.Proofs.Search.Simplification
import StateSpace.Proofs.Search.Strategy
import StateSpace.Proofs.Search.Synchronised
import StateSpace.Proofs.Search.Termination
import StateSpace.Proofs.Search.Transcript
import StateSpace.Proofs.Solver.ByDiagram
import StateSpace.Proofs.Solver.ModelCount
import StateSpace.Proofs.Solver.Reliable
import StateSpace.Proofs.Solver.Settled
import StateSpace.Proofs.Solver.TableSize
import StateSpace.Proofs.Text
import StateSpace.Proofs.Unrolling.Basic
import StateSpace.Proofs.Unrolling.Bound
import StateSpace.Proofs.Unrolling.Changes
import StateSpace.Proofs.Unrolling.Completeness
import StateSpace.Proofs.Unrolling.Congruence
import StateSpace.Proofs.Unrolling.Events
import StateSpace.Proofs.Unrolling.Firing
import StateSpace.Proofs.Unrolling.Hygiene
import StateSpace.Proofs.Unrolling.Integrity
import StateSpace.Proofs.Unrolling.Interruption
import StateSpace.Proofs.Unrolling.Origin
import StateSpace.Proofs.Unrolling.Resumption
import StateSpace.Proofs.Unrolling.Retry
import StateSpace.Proofs.Unrolling.Soundness
import StateSpace.Proofs.Unrolling.Start
import StateSpace.Proofs.Unrolling.Termination
import StateSpace.Proofs.ValueType
import StateSpace.Record.Reader
import StateSpace.Record.Writer
import StateSpace.Region
import StateSpace.Search.BreadthFirst
import StateSpace.Search.Image
import StateSpace.Search.Strategy
import StateSpace.Solver.Basic
import StateSpace.Solver.ByDiagram
import StateSpace.State.Concrete
import StateSpace.State.Symbolic
import StateSpace.Storage.Basic
import StateSpace.Storage.Path
import StateSpace.System
import StateSpace.Text.Character
import StateSpace.Text.Lines
import StateSpace.Text.Numeral
import StateSpace.Transition
import StateSpace.Unrolling.Basic
import StateSpace.Unrolling.Unroll
import StateSpace.Value
import StateSpace.ValueType
import StateSpace.Variable
