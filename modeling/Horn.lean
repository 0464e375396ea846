import Horn.Config.Basic
import Horn.Decision.Check
import Horn.EntryPoints.Entry
import Horn.EntryPoints.Registry
import Horn.Smt.Problem
import Horn.Fixpoint.Solver
import Horn.Split.Loop
import Horn.CommandLine.Arguments
import Horn.CommandLine.Report
import Horn.Learner.Violation
import Horn.Main
import Horn.Proofs.Semantics.Eval
import Horn.Proofs.Semantics.Sorting
import Horn.Proofs.Semantics.Interpretation
import Horn.Proofs.Semantics.Clauses
import Horn.Proofs.Instance.Safe
import Horn.Proofs.Act
import Horn.Proofs.Instance.WellFormed
import Horn.Proofs.Split.Trivial
import Horn.Proofs.Instance.Expand
import Horn.Proofs.Candidates
import Horn.Proofs.Split.Run
import Horn.Proofs.Split.Soundness
import Horn.Proofs.Split.Standard
import Horn.Proofs.Split.Verdict
import Horn.Proofs.Split.Guess
import Horn.Proofs.Instance.Resolve
import Horn.Proofs.Oracle.Assertion
import Horn.Proofs.Problem.Meaning
import Horn.Proofs.Problem.Plain
import Horn.Proofs.Learner.Verdict
import Horn.Proofs.Coupled
import Horn.Proofs.Equivalent
import Horn.Proofs.Candidates.Calls
import Horn.Proofs.Split.InPlace
import Horn.Proofs.Split.Calls
import Horn.Proofs.Instance.Index
import Horn.Proofs.Instance.Inline
import Horn.Proofs.Instance.Cycles
import Horn.Proofs.Instance.Built
import Horn.Proofs.Split.Priority
import Horn.Proofs.Split.Session
import Horn.Proofs.Split.Lessons
import Horn.Proofs.Split.Rounds
import Horn.Proofs.Split.Trace
import Horn.Proofs.Split.Holders
import Horn.Proofs.Oracle.Scope
import Horn.Proofs.Oracle.Pool
import Horn.Proofs.Oracle.Stacks
import Horn.Proofs.Oracle.Levels
import Horn.Proofs.Sample.Set
import Horn.Proofs.Sample.Value
import Horn.Proofs.Sample.Order
import Horn.Proofs.Sample.Constants
import Horn.Proofs.Sample.Signature
import Horn.Proofs.EntryPoints.Query
import Horn.Proofs.EntryPoints.Faults
import Horn.Proofs.EntryPoints.Recover
import Horn.Proofs.EntryPoints.Trial
import Horn.Proofs.EntryPoints.Unreconstructable
import Horn.Proofs.EntryPoints.Order
import Horn.Proofs.EntryPoints.Chains
import Horn.Proofs.EntryPoints.Justified
import Horn.Proofs.EntryPoints.AllOrNothing
import Horn.Proofs.EntryPoints.LeastSafe
import Horn.Proofs.CommandLine.Foreseen
import Horn.Proofs.Config.Faults
import Horn.Proofs.Problem.Raw
import Horn.Proofs.Problem.Overloaded
import Horn.Proofs.Learner.Raw
import Horn.Proofs.Split.Faults
import Horn.Proofs.CommandLine.ExitCode
import Horn.Proofs.Instance.Calls
import Horn.Proofs.Config.Malformed
import Horn.Proofs.Config.RoundTrip
