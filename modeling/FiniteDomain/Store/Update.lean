import FiniteDomain.Store.Basic

/-!
Updates of the store.

A request on a variable either holds already, or narrows the domain of the
root, or would leave no value.  In the first case nothing happens, in the second
the update is logged and the events of the root and of the views on it are
raised, and in the third the domains stay as they are and the request is kept as
the failure.  A request for several operations stops at the first that fails.

* `Store.request`: one operation;
* `Store.apply`, `Store.applyAll`: operations on one variable;
* `Store.updateBounds`, `Store.restrictTo`: operations made of several;
* `Store.mark`, `Store.restore`: checkpoints.
-/

namespace FiniteDomain

namespace Store

/-- A change of the store that says whether a domain changed, or stops at an
inconsistency. -/
abbrev Change := EStateM Inconsistency Store Bool

/-- The events of the views in a list when the answers of their root go from `old`
to `new`. -/
def followerEvents (s : Store) (old new : Reading) (vs : List VarId) :
    List (VarId × EventSet) :=
  vs.map fun v =>
    (v, EventSet.ofBounds ((s.chain v).reading old).bounds ((s.chain v).reading new).bounds)

/-- The events when the answers of a root go from `old` to `new`, those of the
root first.  The root always loses a value. -/
def eventsOf (s : Store) (root : VarId) (old new : Reading) : List (VarId × EventSet) :=
  (root, EventSet.ofBounds old.bounds new.bounds ∪ EventSet.ofList [.removal]) ::
    (s.followerEvents old new (s.followers root)).filter fun e => !e.2.isEmpty

/-- The store after an operation narrowed the root of a request to `d`. -/
def narrow (s : Store) (r : Request) (op : Operation) (d : IntervalSet) : Store :=
  let root := s.root r.var
  let old := s.history r.var
  { s with
    vars := s.vars.modify root.index fun x =>
      match x with
      | .root h vs => .root (h.record s.trail.length d) vs
      | .view ws v => .view ws v
    trail := s.trail.push ⟨root, op, r⟩
    raised := Assoc.joinAll EventSet.union
      (s.eventsOf root old.reading (old.record s.trail.length d).reading) s.raised }

/-- The request fails: it is kept, and nothing else changes. -/
def refuse (r : Request) (kind : Inconsistency.Kind) : Change := fun s =>
  .error ⟨kind, r.var⟩ { s with failure := some r }

/-- Carries out a request. -/
def request (r : Request) : Change := fun s =>
  match (s.chain r.var).effect (s.history r.var).current r.operation with
  | .unchanged => .ok false s
  | .fails kind => refuse r kind s
  | .narrowed op d => .ok true (s.narrow r op d)

/-- Applies an operation to a variable. -/
def apply (cause : Option PropId) (v : VarId) (op : Operation) : Change :=
  request ⟨v, op, cause⟩

/-- Applies operations to a variable one after another. -/
def applyAll (cause : Option PropId) (v : VarId) : List Operation → Change
  | [] => pure false
  | op :: ops => do
    let first ← apply cause v op
    let others ← applyAll cause v ops
    return first || others

/-- Tightens both bounds of a variable, the lower one first.  Bounds that cross
already are refused as a request for the lower one. -/
def updateBounds (cause : Option PropId) (v : VarId) (lo hi : Int) : Change :=
  if hi < lo then refuse ⟨v, .atLeast lo, cause⟩ .crossed
  else applyAll cause v [.atLeast lo, .atMost hi]

/-- Restricts a variable to a set: the bounds first, then the values between
that are not in the set, ascending.  If no value is in the set, a lower bound
above all values is asked for, as far as there are values above. -/
def restrictTo (cause : Option PropId) (v : VarId) (allowed : IntervalSet) : Change := do
  let left := (← get).domain v ∩ allowed
  if left.isEmpty then
    apply cause v (.atLeast (Value.above ((← get).upper v)))
  else
    let bounds ← applyAll cause v [.atLeast left.lower, .atMost left.upper]
    let holes := (← get).domain v \ allowed
    let removed ← applyAll cause v (holes.toList.map .differs)
    return bounds || removed

/-- The store with one more checkpoint. -/
def mark (s : Store) : Store := { s with trail := s.trail.mark }

/-- The store back at a level: without the updates since, the failure and the
events. -/
def restore (s : Store) (level : Nat) : Store where
  vars := s.vars.map fun x =>
    match x with
    | .root h vs => .root (h.rewind (s.trail.extent level)) vs
    | .view ws v => .view ws v
  trail := s.trail.cut level

end Store

end FiniteDomain
