import FiniteDomain.Propagator.Entailment
import FiniteDomain.Space

/-!
Disjunctions of literals.

The constraint says that some literal of a clause holds.  When all literals but
one are false, the variable of that literal is restricted to its allowed values;
when a literal is certain, nothing is left to do.

* `Disjunction`: the constraint, whose literals are on different variables, and
  `Disjunction.Holds`, what it says;
* `Disjunction.ofLiterals`: literals on one variable are merged;
* `Disjunction.scan`: what the literals amount to;
* `Disjunction.propagate`, `Disjunction.entailment`, `Disjunction.explain`: its
  propagator.
-/

namespace FiniteDomain

/-- Some literal of the clause holds. -/
structure Disjunction where
  clause : Clause
  deriving DecidableEq

namespace Disjunction

/-- What the constraint says of an assignment. -/
def Holds (values : VarId → Int) (c : Disjunction) : Prop := c.clause.Holds values

/-- The disjunction of some literals. -/
def ofLiterals (ls : List Literal) : Disjunction := ⟨Clause.addAll ls []⟩

/-- The variables, in the order of their first literals. -/
def scope (c : Disjunction) : List VarId := c.clause.map Literal.var

/-- What the literals amount to at the current domains. -/
inductive State
  /-- A literal is certain. -/
  | satisfied
  /-- Two literals are possible, or none is left to look at. -/
  | undecided
  /-- This literal has to hold. -/
  | unit (l : Literal)

/-- Looks at the literals in order, until one is certain or two are possible.
`found` is the possible one seen so far.  If all literals are false, the last
one has to hold, which fails. -/
def scan (store : Store) (c : Disjunction) : Clause → Option Literal → State
  | [], some l => .unit l
  | [], none =>
    match c.clause.getLast? with
    | some l => .unit l
    | none => .undecided
  | l :: ls, found =>
    if (store.domain l.var).isSubset l.allowed then .satisfied
    else if (store.domain l.var).intersects l.allowed then
      match found with
      | some _ => .undecided
      | none => scan store c ls (some l)
    else scan store c ls found

/-- Enforces the last literal that is possible. -/
def propagate (c : Disjunction) (p : PropId) : Filter Unit := do
  match c.scan (← Filter.store) c.clause none with
  | .satisfied => Filter.setPassive p
  | .undecided => pure ()
  | .unit l =>
    discard (Filter.restrictTo p l.var l.allowed)
    Filter.setPassive p

/-- Whether the constraint holds for all, some or no values of the domains. -/
def entailment (c : Disjunction) (store : Store) : Entailment :=
  if c.clause.any fun l => (store.domain l.var).isSubset l.allowed then .holds
  else if c.clause.any fun l => (store.domain l.var).intersects l.allowed then .undetermined
  else .violated

/-- Explains any request by the clause itself. -/
def explain (c : Disjunction) (r : Request) : Explanation :=
  c.clause.foldl (fun e l =>
    if l.var = r.var then e.addPivot l.var l.allowed else e.add l.var l.allowed) {}

end Disjunction

end FiniteDomain
