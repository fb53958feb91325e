import AnswerSetTest.AnswerSet
import AnswerSetTest.AssertionIndex
import AnswerSetTest.Command
import AnswerSetTest.Config
import AnswerSetTest.Control
import AnswerSetTest.Engine
import AnswerSetTest.Pipeline
import AnswerSetTest.Failure
import AnswerSetTest.FileTree
import AnswerSetTest.FunctionTable
import AnswerSetTest.Glob.Basic
import AnswerSetTest.Glob.Reader
import AnswerSetTest.Ground.Lists
import AnswerSetTest.Ground.Binding
import AnswerSetTest.Ground.Evaluation
import AnswerSetTest.Ground.Instance
import AnswerSetTest.Ground.Instantiation
import AnswerSetTest.Ground.Match
import AnswerSetTest.Ground.Matching
import AnswerSetTest.Ground.Selection
import AnswerSetTest.Ground.Simplification
import AnswerSetTest.Ground.Unpooling
import AnswerSetTest.GroundProgram
import AnswerSetTest.IgnoreFile
import AnswerSetTest.Invocation
import AnswerSetTest.Pattern.Basic
import AnswerSetTest.Pattern.CharSet
import AnswerSetTest.Pattern.Property
import AnswerSetTest.Pattern.Reader
import AnswerSetTest.Registry
import AnswerSetTest.Report
import AnswerSetTest.Resolution
import AnswerSetTest.Runner
import AnswerSetTest.Search
import AnswerSetTest.Source.Diagnostic
import AnswerSetTest.Source.Span
import AnswerSetTest.SourcePath
import AnswerSetTest.Sources
import AnswerSetTest.Symbol
import AnswerSetTest.Syntax.Cursor
import AnswerSetTest.Syntax.Lexer
import AnswerSetTest.Syntax.Parser
import AnswerSetTest.Syntax.Program
import AnswerSetTest.Syntax.Token
import AnswerSetTest.Tester
import AnswerSetTest.Text.Characters
import AnswerSetTest.Text.Columns
import AnswerSetTest.Text.Quoted
import AnswerSetTest.Text.Unprintable
import AnswerSetTest.Toml.Reader
import AnswerSetTest.Toml.Value
import AnswerSetTest.Proofs.Ground.Ascending
import AnswerSetTest.Proofs.GroundProgram.LeastModel
import AnswerSetTest.Proofs.Symbol.Order
import AnswerSetTest.Main
import AnswerSetTest.Proofs.AnswerSet.Reduct
import AnswerSetTest.Proofs.Control
import AnswerSetTest.Proofs.AssertionIndex
import AnswerSetTest.Proofs.Engine.Events
import AnswerSetTest.Proofs.Tester.Events
import AnswerSetTest.Proofs.Tester.Models
import AnswerSetTest.Proofs.Tester.Verdict
import AnswerSetTest.Proofs.Tester.Ensured
import AnswerSetTest.Proofs.Tester.History
import AnswerSetTest.Proofs.Ground.Simulation
import AnswerSetTest.Proofs.Runner
import AnswerSetTest.Proofs.AnswerSet.Instances
import AnswerSetTest.Proofs.AnswerSet.Representation
import AnswerSetTest.Proofs.Ground.Instantiation
import AnswerSetTest.Proofs.GroundProgram.AnswerSets
import AnswerSetTest.Proofs.Ground.Selection
import AnswerSetTest.Proofs.Syntax.InStep
import AnswerSetTest.Proofs.Syntax.Terms
import AnswerSetTest.Proofs.Syntax.Statements
import AnswerSetTest.Proofs.Syntax.Recovery
import AnswerSetTest.Proofs.Control.LifeCycle
import AnswerSetTest.Proofs.GroundProgram.Reports
import AnswerSetTest.Proofs.GroundProgram.RuleOrder
import AnswerSetTest.Proofs.GroundProgram.BodyOrder
import AnswerSetTest.Proofs.Registry
import AnswerSetTest.Proofs.Resolution
import AnswerSetTest.Proofs.Runner.Schedule
import AnswerSetTest.Proofs.Runner.Insertion
import AnswerSetTest.Proofs.Traversal
import AnswerSetTest.Proofs.Syntax.Lexing
import AnswerSetTest.Proofs.Syntax.Display
import AnswerSetTest.Proofs.Syntax.Pools
import AnswerSetTest.Proofs.Ground.Congruence
import AnswerSetTest.Proofs.GroundProgram.Preservation
import AnswerSetTest.Proofs.Search.Foundedness
import AnswerSetTest.Proofs.Tester.Finality
import AnswerSetTest.Proofs.Ground.Refusal
import AnswerSetTest.Proofs.Ground.Replay
import AnswerSetTest.Proofs.Ground.Coverage
import AnswerSetTest.Proofs.GroundProgram.RefusedCalls
import AnswerSetTest.Proofs.Ground.Termination
import AnswerSetTest.Proofs.Ground.CallsOnce
import AnswerSetTest.Proofs.GroundProgram.Repetition
import AnswerSetTest.Proofs.AssertionIndex.Ambiguity
import AnswerSetTest.Proofs.Ground.Confluence
import AnswerSetTest.Proofs.Ground.MostGeneral
import AnswerSetTest.Proofs.Ground.Recognition
import AnswerSetTest.Proofs.Ground.Pools
import AnswerSetTest.Proofs.Ground.Substitution
import AnswerSetTest.Proofs.Resolution.OwnPart
import AnswerSetTest.Proofs.Syntax.Pieces
import AnswerSetTest.Proofs.Syntax.Spacing
import AnswerSetTest.Proofs.Syntax.Octets
import AnswerSetTest.Proofs.Syntax.ByteScan
import AnswerSetTest.Proofs.Syntax.Ranges
import AnswerSetTest.Proofs.Source.Position
import AnswerSetTest.Proofs.Symbol.UniqueReading
import AnswerSetTest.Proofs.Tester.Listed
import AnswerSetTest.Proofs.Text.Columns
import AnswerSetTest.Proofs.Syntax.Spans
import AnswerSetTest.Proofs.Syntax.Slices
import AnswerSetTest.Proofs.Control.Uniformity
import AnswerSetTest.Proofs.Pipeline
import AnswerSetTest.Proofs.Registry.Tables
import AnswerSetTest.Proofs.SourcePath
import AnswerSetTest.Proofs.FileTree
import AnswerSetTest.Proofs.Sources
import AnswerSetTest.Proofs.Ground.BoundVariables
