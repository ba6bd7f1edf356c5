/-!
Whether a constraint follows from the domains.

* `Entailment`: for all values of the domains, for none, or not known;
* `Entailment.name`: its name.
-/

namespace FiniteDomain

/-- What the domains say of a constraint. -/
inductive Entailment
  /-- All values of the domains satisfy it. -/
  | holds
  /-- No values of the domains satisfy it. -/
  | violated
  | undetermined
  deriving DecidableEq, Repr

/-- The name of the answer. -/
def Entailment.name : Entailment → String
  | .holds => "True"
  | .violated => "False"
  | .undetermined => "Undefined"

end FiniteDomain
