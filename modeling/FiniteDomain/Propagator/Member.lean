import FiniteDomain.Propagator.Entailment
import FiniteDomain.Space

/-!
Membership in a set.

The constraint says that a variable takes one of the allowed values.  One
propagation removes all other values, after which nothing is left to do.

* `Member`: the constraint, and `Member.Holds`, what it says;
* `Member.propagate`, `Member.entailment`, `Member.explain`: its propagator.
-/

namespace FiniteDomain

/-- The variable takes one of the allowed values. -/
structure Member where
  var : VarId
  allowed : IntervalSet
  deriving DecidableEq

namespace Member

/-- What the constraint says of an assignment. -/
def Holds (values : VarId → Int) (c : Member) : Prop := values c.var ∈ c.allowed

/-- The variable. -/
def scope (c : Member) : List VarId := [c.var]

/-- Removes all values that are not allowed. -/
def propagate (c : Member) (p : PropId) : Filter Unit := do
  discard (Filter.restrictTo p c.var c.allowed)
  Filter.setPassive p

/-- Whether the constraint holds for all, some or no values of the domain. -/
def entailment (c : Member) (store : Store) : Entailment :=
  let d := store.domain c.var
  if d.isSubset c.allowed then .holds
  else if d.intersects c.allowed then .undetermined
  else .violated

/-- Explains any request by the allowed values among the initial ones. -/
def explain (c : Member) (store : Store) : Explanation :=
  ({} : Explanation).addPivot c.var (store.initial c.var ∩ c.allowed)

end Member

end FiniteDomain
