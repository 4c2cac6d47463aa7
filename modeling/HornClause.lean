/-
  HornClause

  A propositional knowledge base of facts and Horn rules, a backward chaining prover
  with traces, and the console and command line program around it. The theory of all
  this is under `HornClause.Proofs`.

  Three libraries show in what the program reads and writes. They are not parameters:
  as much of them as the program uses is restated by definitions.

    * `serde_json` — the layout of a trace as JSON (`Text.Json`, `Trace.Render`).
    * `crossterm` — the control sequences for colours (`Trace.Tree`).
    * `clap` — the conventions of the command line (`CommandLine.Options`).

  Left out, since nothing here depends on it, are the wording of the help, the version
  and the complaints about arguments (`Main` has short texts of its own), what becomes of
  a log record once it is made, and failures to write to the output streams.
-/
import HornClause.Files.Directory
import HornClause.Main
import HornClause.Trace.Walk
import HornClause.Proofs.Declaration
import HornClause.Proofs.Agreement
import HornClause.Proofs.LeastModel
import HornClause.Proofs.Steps
import HornClause.Proofs.TrueCache
import HornClause.Proofs.Bookkeeping
import HornClause.Proofs.Relaxation
import HornClause.Proofs.Answer
import HornClause.Proofs.Completeness
import HornClause.Proofs.Composition
import HornClause.Proofs.CycleCheck
import HornClause.Proofs.DepthLimit
import HornClause.Proofs.Dependency
import HornClause.Proofs.Runs
import HornClause.Proofs.Entries
import HornClause.Proofs.RoundTrip
import HornClause.Proofs.Rereading
import HornClause.Proofs.Extension
import HornClause.Proofs.BigStep
import HornClause.Proofs.TraceRecord
import HornClause.Proofs.Coherence
import HornClause.Proofs.Splitting
import HornClause.Proofs.Relevance
import HornClause.Proofs.Transcript
import HornClause.Proofs.Balance
import HornClause.Proofs.Provenance
import HornClause.Proofs.TriedLetters
import HornClause.Proofs.Settlement
import HornClause.Proofs.Reading
import HornClause.Proofs.RuleMatch
import HornClause.Proofs.Drawing
import HornClause.Proofs.Numbering
import HornClause.Proofs.TypedQuery
import HornClause.Proofs.JsonForm
import HornClause.Proofs.Colouring
import HornClause.Proofs.WalkOrder
