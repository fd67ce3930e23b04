import InvariantSearch.CommandLine.Arguments
import InvariantSearch.CommandLine.Duration
import InvariantSearch.CommandLine.Help
import InvariantSearch.CommandLine.Report
import InvariantSearch.CommandLine.Run
import InvariantSearch.CommandLine.Settings
import InvariantSearch.Diagnostic
import InvariantSearch.Enumeration.Derivation
import InvariantSearch.Enumeration.Enumerator
import InvariantSearch.Grammar.Basic
import InvariantSearch.Grammar.Builder
import InvariantSearch.Grammar.Size
import InvariantSearch.Grammar.Template
import InvariantSearch.Logic
import InvariantSearch.Main
import InvariantSearch.Malformed
import InvariantSearch.Oracle.Basic
import InvariantSearch.Oracle.Bounded
import InvariantSearch.Oracle.Smt
import InvariantSearch.Problem.Command
import InvariantSearch.Proofs.Typing
import InvariantSearch.Search.Basic
import InvariantSearch.Search.Store
import InvariantSearch.Sexp.Basic
import InvariantSearch.Sexp.Printer
import InvariantSearch.Sexp.Reader
import InvariantSearch.Solver.Launch
import InvariantSearch.Solver.Paths
import InvariantSearch.Solver.Reply
import InvariantSearch.Solver.Scripted
import InvariantSearch.Solver.Session
import InvariantSearch.Solver.Transcript
import InvariantSearch.Synthesis.Error
import InvariantSearch.Synthesis.Execute
import InvariantSearch.Synthesis.Problem
import InvariantSearch.Synthesis.Request
import InvariantSearch.Synthesis.Solve
import InvariantSearch.Term.Basic
import InvariantSearch.Term.Eval
import InvariantSearch.Term.Printer
import InvariantSearch.Term.Reader
import InvariantSearch.Term.Sorting
import InvariantSearch.Term.Subst
import InvariantSearch.Text
import InvariantSearch.Text.Blank
import InvariantSearch.Text.Json
import InvariantSearch.Text.Lines
import InvariantSearch.Text.Uppercase
import InvariantSearch.Text.Width
import InvariantSearch.Transition
import InvariantSearch.Word
import InvariantSearch.Proofs.Meaning
import InvariantSearch.Proofs.Definitions
import InvariantSearch.Proofs.Templates
import InvariantSearch.Proofs.Derivations
import InvariantSearch.Proofs.SmallestDerivation
import InvariantSearch.Proofs.Splits
import InvariantSearch.Proofs.DerivationOrder
import InvariantSearch.Proofs.Enumeration
import InvariantSearch.Proofs.LargestDerivation
import InvariantSearch.Proofs.DepthFirst
import InvariantSearch.Proofs.FiniteLanguages
import InvariantSearch.Proofs.MaximumSize
import InvariantSearch.Proofs.Refutation
import InvariantSearch.Proofs.Candidates
import InvariantSearch.Proofs.Conditions
import InvariantSearch.Proofs.Soundness
import InvariantSearch.Proofs.Resumption
import InvariantSearch.Proofs.Reading
import InvariantSearch.Proofs.RoundTrip
import InvariantSearch.Proofs.PrintedDefinitions
import InvariantSearch.Proofs.Fragments
import InvariantSearch.Proofs.Queries
import InvariantSearch.Proofs.Modes
import InvariantSearch.Proofs.Solutions
import InvariantSearch.Proofs.Requests
import InvariantSearch.Proofs.Framing
import InvariantSearch.Proofs.Sessions
import InvariantSearch.Proofs.Answers
import InvariantSearch.Proofs.Statements
import InvariantSearch.Proofs.Stepping
import InvariantSearch.Proofs.Accounting
import InvariantSearch.Proofs.Windows
import InvariantSearch.Proofs.Progress
import InvariantSearch.Proofs.Interleaving
import InvariantSearch.Proofs.Cancellation
import InvariantSearch.Proofs.Returning
import InvariantSearch.Proofs.Declarations
import InvariantSearch.Proofs.Listing
import InvariantSearch.Proofs.Pausing
import InvariantSearch.Proofs.Following
import InvariantSearch.Proofs.Runs
import InvariantSearch.Proofs.Deadlines
import InvariantSearch.Proofs.Evaluation
import InvariantSearch.Proofs.Inlining
import InvariantSearch.Proofs.ConditionValues
import InvariantSearch.Proofs.Exhaustion
import InvariantSearch.Proofs.TermReading
import InvariantSearch.Proofs.OperatorSorts
import InvariantSearch.Proofs.Denotation
import InvariantSearch.Proofs.SignedIntegers
import InvariantSearch.Proofs.AffineForms
import InvariantSearch.Proofs.BoundedRuns
import InvariantSearch.Proofs.Spans
import InvariantSearch.Proofs.Replies
import InvariantSearch.Proofs.Replaying
import InvariantSearch.Proofs.Constants
import InvariantSearch.Proofs.TermSizes
import InvariantSearch.Proofs.CallMarks
import InvariantSearch.Proofs.LeastSplits
import InvariantSearch.Proofs.Instances
import InvariantSearch.Proofs.Substitution
