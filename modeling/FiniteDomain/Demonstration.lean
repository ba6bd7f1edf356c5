import FiniteDomain.Engine.Learning
import FiniteDomain.Engine.Propagation

/-!
A demonstration of the engine.

A small model with a count and a maximum has a fixpoint at the root.  A decision
leads to a conflict, from which a clause is learned that excludes the decision.
The remarks in the journal of the engine tell the story.

* `Demonstration.model`: the variables and the constraints;
* `Demonstration.script`: what is done with them.
-/

namespace FiniteDomain

namespace Demonstration

/-- A remark in the journal. -/
def remark (text : String) : Action Unit := modify fun e => e.note (.remark text)

/-- Remarks on the domains of some variables. -/
def remarkDomains (vs : List VarId) : Action Unit := do
  let e ← get
  vs.forM fun v => remark (e.describe v ++ " = " ++ toString (e.store.domain v))

/-- The variables of the demonstration. -/
structure Model where
  card : VarId
  all : List VarId

/-- Exactly `card` of `x1`, `x2`, `x3` are 2, and the greatest of `x1`, `x3`, `y`
is `max`. -/
def model : Action (Except PostError Model) := do
  let x1 ← Engine.newSparseVariable [2, 3] (some "x1")
  let x2 ← Engine.newVariable 2 2 (some "x2")
  let x3 ← Engine.newSparseVariable [2, 4] (some "x3")
  let y ← Engine.newVariable 0 2 (some "y")
  let card ← Engine.newVariable 2 3 (some "card")
  let max ← Engine.newVariable 3 10 (some "max")
  let posted ← Engine.post [.count ⟨[x1, x2, x3], 2, card⟩, .maximum ⟨[x1, x3, y], max⟩]
  return posted.map fun _ => ⟨card, [x1, x2, x3, y, card, max]⟩

/-- What was learned, in the names of the variables. -/
def lesson (e : Engine) : Option Clause → String
  | some c =>
    "Learned " ++ " \\/ ".intercalate
      (c.map fun l => e.describe l.var ++ " in " ++ toString l.allowed)
  | none => "Backtracked without learning"

/-- Goes back to a level after a conflict, and propagates again.  Returns whether
that was possible. -/
def recover (m : Model) (level : Nat) : Action Bool := do
  match ← Engine.handleConflict level with
  | .error _ => return false
  | .ok learned =>
    remark (lesson (← get) learned)
    match ← Engine.propagate with
    | .error _ => return false
    | .ok () =>
      remark "Fixpoint after backtracking:"
      remarkDomains m.all
      return true

/-- Makes a decision on the model that leads to a conflict. -/
def decide (m : Model) (level : Nat) : Action Bool := do
  remark "Deciding card >= 3"
  match ← Engine.decide m.card (.apply (.atLeast 3)) with
  | .error _ => return false
  | .ok _ =>
    match ← Engine.propagate with
    | .ok () =>
      remark "The decision did not lead to a conflict"
      return true
    | .error i =>
      remark ("Conflict: " ++ i.message)
      recover m level

/-- The whole demonstration.  Returns whether it came to its end. -/
def script : Action Bool := do
  match ← model with
  | .error _ => return false
  | .ok m =>
    match ← Engine.propagate with
    | .error _ => return false
    | .ok () =>
      remark "Root fixpoint:"
      remarkDomains m.all
      let level ← Engine.checkpoint
      decide m level

end Demonstration

end FiniteDomain
