import FiniteDomain.IntervalSet.Basic

/-!
Building sets step by step.

* `IntervalSet.Edit`: the operations that change a set;
* `IntervalSet.edit`: one operation carried out.
-/

namespace FiniteDomain

namespace IntervalSet

/-- An operation that changes a set. -/
inductive Edit
  | insert (v : Int)
  | insertRange (lo hi : Int)
  | union (t : IntervalSet)
  | erase (v : Int)
  | eraseRange (lo hi : Int)
  | diff (t : IntervalSet)
  | between (lo hi : Int)
  | inter (t : IntervalSet)
  | clear
  deriving DecidableEq

/-- The set after an operation. -/
def edit (s : IntervalSet) : Edit → IntervalSet
  | .insert v => s.insert v
  | .insertRange lo hi => s.insertRange lo hi
  | .union t => s ∪ t
  | .erase v => s.erase v
  | .eraseRange lo hi => s.eraseRange lo hi
  | .diff t => s \ t
  | .between lo hi => s.between lo hi
  | .inter t => s ∩ t
  | .clear => ∅

end IntervalSet

end FiniteDomain
