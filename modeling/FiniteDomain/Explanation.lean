import FiniteDomain.Literal

/-!
Explanations of updates.

An explanation is a disjunction of literals that justifies one update.  Its
pivot is the literal on the updated variable: of the values that variable had
before, the pivot allows at most those that it kept.  Every other literal is
false just before the update.

* `Explanation.add`, `Explanation.addPivot`: building one up;
* `Explanation.clause`: all its literals, the pivot last;
* `Explanation.Holds`: what it says of an assignment.
-/

namespace FiniteDomain

/-- The literals that justify an update. -/
structure Explanation where
  literals : List Literal := []
  pivot : Option Literal := none
  deriving DecidableEq

namespace Explanation

/-- The explanation with one more literal at the end. -/
def add (e : Explanation) (v : VarId) (allowed : IntervalSet) : Explanation :=
  { e with literals := e.literals ++ [⟨v, allowed⟩] }

/-- The explanation with one more literal at the end, if any value satisfies it. -/
def addNonempty (e : Explanation) (v : VarId) (allowed : IntervalSet) : Explanation :=
  if allowed.isEmpty then e else e.add v allowed

/-- The explanation with a pivot.  A second pivot on the same variable allows
more values, one on another variable takes the place of the first. -/
def addPivot (e : Explanation) (v : VarId) (allowed : IntervalSet) : Explanation :=
  match e.pivot with
  | some p =>
    if p.var = v then { e with pivot := some ⟨v, p.allowed ∪ allowed⟩ }
    else { e with pivot := some ⟨v, allowed⟩ }
  | none => { e with pivot := some ⟨v, allowed⟩ }

/-- Whether nothing has been added. -/
def isEmpty (e : Explanation) : Bool := e.literals.isEmpty && e.pivot.isNone

/-- The literals and then the pivot. -/
def clause (e : Explanation) : Clause := e.literals ++ e.pivot.toList

/-- Some literal of the explanation, or its pivot, is true. -/
def Holds (values : VarId → Int) (e : Explanation) : Prop := e.clause.Holds values

/-- One step of building an explanation. -/
inductive Edit
  | add (l : Literal)
  | addPivot (l : Literal)
  | clear

/-- The explanation after one step. -/
def edit (e : Explanation) : Edit → Explanation
  | .add l => e.add l.var l.allowed
  | .addPivot l => e.addPivot l.var l.allowed
  | .clear => {}

end Explanation

end FiniteDomain
