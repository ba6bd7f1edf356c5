import FiniteDomain.ClauseBuilder
import FiniteDomain.Engine.Analysis
import FiniteDomain.Engine.Backtracking
import FiniteDomain.Engine.Creation

/-!
Learning from conflicts.

* `Engine.build`: the clause of a builder is posted;
* `Engine.handleConflict`: a clause is learned, the engine goes back, and the
  clause is posted.
-/

namespace FiniteDomain

namespace Engine

/-- Posts what a clause builder amounts to.  A clause that never holds shows that
the problem has no solution. -/
def build (b : ClauseBuilder) : Action (Except PostError Unit) := do
  match b.result with
  | .alwaysTrue =>
    modify fun e => e.note .alwaysTrue
    return .ok ()
  | .alwaysTrueOnRoots =>
    modify fun e => e.note .alwaysTrueOnRoots
    return .ok ()
  | .nothing =>
    declareInfeasible
    return .error .unsupportedDerivation
  | .neverTrue =>
    declareInfeasible
    return .error .infeasibleClause
  | .member l =>
    modify fun e => e.note (.postingMember l)
    post [.member ⟨l.var, l.allowed⟩]
  | .clause c =>
    modify fun e => e.note (.postingClause c.length)
    post [.disjunction c]

/-- The clause that the strategy of the engine learns from its failure. -/
def learn : Action (Option Clause) := do
  match (← get).strategy with
  | .allDecision => resolveConflict
  | .noLearning => return none

/-- Adds a learned clause.  An empty one depends on no decision, so the problem
has no solution. -/
def addLearned (c : Clause) : Action (Except PostError Unit) := do
  if c.isEmpty then
    declareInfeasible
    return .error .infeasibleClause
  modify fun e => e.count fun n =>
    { n with
      learnedClauses := n.learnedClauses + 1
      learnedLiterals := n.learnedLiterals + c.length }
  let b : ClauseBuilder := { store := (← get).store }
  build (c.foldl (fun b l => b.put l) b)

/-- Learns a clause from the failure, goes back to a level and adds the clause. -/
def handleConflict (level : Nat) : Action (Except PostError (Option Clause)) := do
  Action.require (← get).isFailed .handlingWithoutFailure
  let learned ← learn
  restore level
  match learned with
  | none => return .ok none
  | some c =>
    match ← addLearned c with
    | .error reason => return .error reason
    | .ok () => return .ok (some c)

end Engine

end FiniteDomain
