/-!
Numbers of variables and of propagators.

Both are given out from 0 on, in the order in which variables are created and
propagators are accepted.

* `VarId`: the number of a variable, written `x3`;
* `PropId`: the number of a propagator, written `PropagatorId(3)`.
-/

namespace FiniteDomain

/-- The number of a variable. -/
structure VarId where
  index : Nat
  deriving DecidableEq, Repr, Inhabited

instance : ToString VarId := ⟨fun v => "x" ++ toString v.index⟩

/-- Older variables come first. -/
def VarId.ble (v w : VarId) : Bool := decide (v.index ≤ w.index)

/-- The number of a propagator. -/
structure PropId where
  index : Nat
  deriving DecidableEq, Repr, Inhabited

instance : ToString PropId := ⟨fun p => "PropagatorId(" ++ toString p.index ++ ")"⟩

end FiniteDomain
