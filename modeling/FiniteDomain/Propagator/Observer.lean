import FiniteDomain.Propagator.Entailment
import FiniteDomain.Propagator.Priority
import FiniteDomain.Space

/-!
Observers.

An observer constrains nothing.  It asks for chosen events on the variables of
its scope and records every call, which shows when the engine calls propagators,
and in which order.  It may be told to fail at one of its calls.

* `Observer`: what it watches, how, and when it fails;
* `Observer.record`: a recorded call, and the failure if its turn has come;
* `Observer.plain`: an observer with the customary settings that does not tell
  events apart.
-/

namespace FiniteDomain

/-- A propagator that only records its calls. -/
structure Observer where
  scope : List VarId
  priority : Priority := .medium
  /-- Whether it is called for each event; otherwise events make it start from
  scratch. -/
  fine : Bool := true
  /-- Whether a call for an event is recorded as such. -/
  detailed : Bool := true
  /-- The events asked for, by index in the scope; all where nothing is said. -/
  conditions : List EventSet := []
  /-- The number of the call that fails. -/
  failAt : Option Nat := none
  /-- The reason for which the observer is not accepted, if it is not. -/
  refusal : Option String := none
  deriving DecidableEq

namespace Observer

/-- An observer that records every call as one from scratch. -/
def plain (scope : List VarId) : Observer := { scope := scope, detailed := false }

/-- The name of the observer. -/
def name (o : Observer) : String := if o.detailed then "Observer" else "Plain"

/-- The events asked for at an index of the scope. -/
def condition (o : Observer) (index : Nat) : EventSet := o.conditions[index]?.getD EventSet.any

/-- Records a call.  The call whose turn it is fails on the first variable of
the scope. -/
def record (o : Observer) (call : Call) : Filter Unit := do
  modify fun s => { s with calls := s.calls.push call }
  let made := (← get).calls.countP fun c => decide (c.propagator = call.propagator)
  match o.scope with
  | v :: _ => if o.failAt = some made then throw (.inconsistent ⟨.emptied, v⟩)
  | [] => pure ()

/-- A propagation from scratch. -/
def propagate (o : Observer) (p : PropId) : Filter Unit := o.record ⟨p, none⟩

/-- A propagation for the events on one variable of the scope. -/
def react (o : Observer) (p : PropId) (index : Nat) (events : EventSet) : Filter Unit :=
  o.record ⟨p, if o.detailed then some (index, events) else none⟩

end Observer

end FiniteDomain
