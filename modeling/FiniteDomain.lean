import FiniteDomain.Main
import FiniteDomain.Proofs.Arrangement
import FiniteDomain.Proofs.IntervalSet
import FiniteDomain.Proofs.Line
import FiniteDomain.Proofs.Propagator.CountConsistency
import FiniteDomain.Proofs.Propagator.MaximumConsistency
import FiniteDomain.Proofs.Restriction
import FiniteDomain.Proofs.Session.Arithmetic
import FiniteDomain.Proofs.Session.Checkpoints
import FiniteDomain.Proofs.Session.Clauses
import FiniteDomain.Proofs.Session.Counting
import FiniteDomain.Proofs.Session.Decisions
import FiniteDomain.Proofs.Session.Delivery
import FiniteDomain.Proofs.Session.Ending
import FiniteDomain.Proofs.Session.Entailment
import FiniteDomain.Proofs.Session.Fixpoints
import FiniteDomain.Proofs.Session.Progress
import FiniteDomain.Proofs.Session.Solutions
import FiniteDomain.Proofs.Store.Reports
import FiniteDomain.Proofs.Store.Rewriting
