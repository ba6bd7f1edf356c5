import FiniteDomain.Propagator.Count
import FiniteDomain.Propagator.Disjunction
import FiniteDomain.Propagator.Maximum
import FiniteDomain.Propagator.Member
import FiniteDomain.Propagator.Observer

/-!
Constraints and their propagators.

A constraint is what a caller posts; a propagator is what the engine calls.
They differ in that a propagator may own memory.

* `Constraint`, `Constraint.Holds`: the kinds of constraint and what they say;
* `Propagator`, `Propagator.constraint`: the kinds of propagator and the
  constraint each stands for;
* `Propagator.propagate`, `Propagator.react`: the calls of the engine;
* `Propagator.entailment`, `Propagator.explain`: its questions;
* `PostError`, `Constraint.propagator`: why a constraint is not accepted, and
  the propagator of one that is well-formed.
-/

namespace FiniteDomain

/-- A relation on variables that a caller can post. -/
inductive Constraint
  | count (c : Count)
  | maximum (c : Maximum)
  | member (c : Member)
  | disjunction (literals : List Literal)
  | observer (o : Observer)
  deriving DecidableEq

/-- What the constraint says of an assignment; an observer says nothing. -/
def Constraint.Holds (values : VarId → Int) : Constraint → Prop
  | .count c => c.Holds values
  | .maximum c => c.Holds values
  | .member c => c.Holds values
  | .disjunction ls => Clause.Holds values ls
  | .observer _ => True

/-- A reason why a constraint is not accepted. -/
inductive PostError
  /-- The constraint makes no sense. -/
  | malformed (reason : String)
  /-- A clause was asked for to which nothing was ever added. -/
  | unsupportedDerivation
  /-- The problem is known to have no solution. -/
  | infeasibleState
  /-- No literal of the clause can ever hold. -/
  | infeasibleClause
  deriving DecidableEq, Repr

/-- The wording of the reason. -/
def PostError.message : PostError → String
  | malformed reason => "The constraint is malformed: " ++ reason
  | unsupportedDerivation =>
    "The accumulated explanation is unconditionally false and cannot be materialised"
  | infeasibleState => "Adding constraint failed because the solver is in an infeasible state"
  | infeasibleClause => "Adding the clause failed because it is infeasible at the root"

/-- What the engine calls to enforce a constraint. -/
inductive Propagator
  | count (c : Count) (sets : Count.Sets)
  | maximum (c : Maximum)
  | member (c : Member)
  | disjunction (c : Disjunction)
  | observer (o : Observer)
  deriving DecidableEq

namespace Propagator

/-- The constraint that the propagator stands for. -/
def constraint : Propagator → Constraint
  | count c _ => .count c
  | maximum c => .maximum c
  | member c => .member c
  | disjunction c => .disjunction c.clause
  | observer o => .observer o

/-- The name of the propagator. -/
def name : Propagator → String
  | count _ _ => "Count"
  | maximum _ => "Maximum"
  | member _ => "Member"
  | disjunction _ => "SignedClause"
  | observer o => o.name

/-- The variables of the propagator, in the order that events refer to. -/
def scope : Propagator → List VarId
  | count c _ => c.scope
  | maximum c => c.scope
  | member c => c.scope
  | disjunction c => c.scope
  | observer o => o.scope

/-- When the propagator is called. -/
def priority : Propagator → Priority
  | count _ _ | maximum _ => .low
  | member _ | disjunction _ => .high
  | observer o => o.priority

/-- Whether the propagator is called for each event; otherwise events make it
start from scratch. -/
def fine : Propagator → Bool
  | maximum _ => false
  | observer o => o.fine
  | _ => true

/-- The events the propagator asks for at an index of its scope. -/
def condition (index : Nat) : Propagator → EventSet
  | maximum _ => .boundsAndAssign
  | observer o => o.condition index
  | _ => .any

/-- Narrows the domains from scratch. -/
def propagate (p : PropId) : Propagator → Filter Unit
  | count c sets => c.propagate p sets
  | maximum c => c.propagate p
  | member c => c.propagate p
  | disjunction c => c.propagate p
  | observer o => o.propagate p

/-- Narrows the domains after events on the variable at an index of the scope. -/
def react (p : PropId) (index : Nat) (events : EventSet) : Propagator → Filter Unit
  | count c sets => c.react p sets index
  | maximum c => c.propagate p
  | member c => c.propagate p
  | disjunction c => c.propagate p
  | observer o => o.react p index events

/-- Whether the constraint holds for all, some or no values of the domains. -/
def entailment (store : Store) : Propagator → Entailment
  | count c _ => c.entailment store
  | maximum c => c.entailment store
  | member c => c.entailment store
  | disjunction c => c.entailment store
  | observer _ => .undetermined

/-- Explains a request that the propagator made at a position. -/
def explain (store : Store) (position : Nat) (r : Request) : Propagator → Explanation
  | count c _ => c.explain store position r
  | maximum c => c.explain store position r
  | member c => c.explain store
  | disjunction c => c.explain r
  | observer o => store.explainByScope position r o.scope

end Propagator

namespace Constraint

/-- The propagator of a constraint, and the memory with room for it. -/
def propagator (m : Memory) : Constraint → Except PostError (Propagator × Memory)
  | count c =>
    let (possible, m) := m.addSet c.vars.length
    let (certain, m) := m.addSet c.vars.length
    .ok (.count c ⟨possible, certain⟩, m)
  | maximum c =>
    if c.array.isEmpty then .error (.malformed "the maximum of an empty array is undefined")
    else .ok (.maximum c, m)
  | member c => .ok (.member c, m)
  | disjunction ls => .ok (.disjunction (.ofLiterals ls), m)
  | observer o =>
    match o.refusal with
    | some reason => .error (.malformed reason)
    | none => .ok (.observer o, m)

end Constraint

end FiniteDomain
