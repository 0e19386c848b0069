import BlockScript.Main
import BlockScript.Embedding
import BlockScript.Session
import BlockScript.Store.View
import BlockScript.Proofs.Syntax.RoundTrip
import BlockScript.Proofs.Execution.Growth
import BlockScript.Proofs.Typing.CheckingProgram
import BlockScript.Proofs.Execution.Following
import BlockScript.Proofs.Soundness.Values
import BlockScript.Proofs.Store.Root
import BlockScript.Proofs.Soundness.Trace
import BlockScript.Proofs.Soundness.Conditions
import BlockScript.Proofs.Soundness.Invariant
import BlockScript.Proofs.Soundness.Calls
import BlockScript.Proofs.Soundness.Methods
import BlockScript.Proofs.Soundness.Programs
import BlockScript.Proofs.Soundness.Resolution
import BlockScript.Proofs.Soundness.Types
import BlockScript.Proofs.Store.Building
import BlockScript.Proofs.Soundness.Dispatch
import BlockScript.Proofs.Soundness.Results
import BlockScript.Proofs.Syntax.DerivationProgram
import BlockScript.Proofs.Meaning
import BlockScript.Proofs.Token.Tiling
import BlockScript.Proofs.Soundness.Operations
import BlockScript.Proofs.Execution.Reachable
import BlockScript.Proofs.Execution.Isolation
import BlockScript.Proofs.Token.Splitting
import BlockScript.Proofs.Typing.Inference
import BlockScript.Proofs.Execution.Termination
import BlockScript.Proofs.Execution.Protection
import BlockScript.Proofs.Execution.Locality
import BlockScript.Proofs.CommandLine.Pipeline
import BlockScript.Proofs.Token.Respacing
import BlockScript.Proofs.Typing.Restoring
import BlockScript.Proofs.Syntax.Deciding
import BlockScript.Proofs.Soundness.Placing
import BlockScript.Proofs.Soundness.Reordering
import BlockScript.Proofs.Number.Exactness
import BlockScript.Proofs.Number.Division
import BlockScript.Proofs.Value.Order
import BlockScript.Proofs.Number.Magnitude
import BlockScript.Proofs.Syntax.NumberText
import BlockScript.Proofs.Execution.Rounds
import BlockScript.Proofs.Store.Catalog
import BlockScript.Proofs.Store.Environments
import BlockScript.Proofs.Syntax.Places
import BlockScript.Proofs.Typing.Abandoned
import BlockScript.Proofs.Token.Escaping
import BlockScript.Proofs.Syntax.Loops
import BlockScript.Proofs.Execution.Arity
