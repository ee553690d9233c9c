import Abacus.Proofs.Canonical.Grouped
import Abacus.Proofs.Canonical.ImpliedProducts
import Abacus.Proofs.Canonical.NormalForm
import Abacus.Proofs.Canonical.Refusals
import Abacus.Proofs.Canonical.Rounds
import Abacus.Proofs.Decimal.RoundTrip
import Abacus.Proofs.Evaluation.Alike
import Abacus.Proofs.Evaluation.Faults
import Abacus.Proofs.Evaluation.Recursion
import Abacus.Proofs.Evaluation.Relaxed
import Abacus.Proofs.Evaluation.Renaming
import Abacus.Proofs.Evaluation.Safety
import Abacus.Proofs.Evaluation.Series
import Abacus.Proofs.Evaluation.Substitution
import Abacus.Proofs.Expr.Building
import Abacus.Proofs.Expr.CallSites
import Abacus.Proofs.Expr.Legible
import Abacus.Proofs.Name.Registry
import Abacus.Proofs.Naming.Local
import Abacus.Proofs.Naming.Numbers
import Abacus.Proofs.Number.Binomial
import Abacus.Proofs.Number.Factorial
import Abacus.Proofs.Reading.Meaning
import Abacus.Proofs.Reading.Repeated
import Abacus.Proofs.Session.Run
import Abacus.Proofs.Session.Store
import Abacus.Proofs.Session.Transparency
import Abacus.Proofs.Session.Variables
import Abacus.Proofs.Workspace.CallGraph
import Abacus.Proofs.Workspace.Resaving
import Abacus.Proofs.Workspace.Run
import Abacus.Proofs.Workspace.Search
import Abacus.Proofs.Workspace.WellFormed
import Abacus.Session.Basic
