import FiniteDomain.Identifier
import FiniteDomain.SparseSet
import FiniteDomain.Trail

/-!
What propagators remember, and forget again on backtracking.

Each propagator has an activity, and some own sets of numbers.  Every change is
logged, and going back to a checkpoint undoes the logged changes one by one,
the latest first.

* `Memory.activity`, `Memory.setActivity`: the activities;
* `Memory.addSet`, `Memory.insert`, `Memory.remove`, `Memory.clear`: the sets;
* `Memory.mark`, `Memory.restore`: checkpoints.
-/

namespace FiniteDomain

/-- What a propagator does when the domains of its scope change. -/
inductive Activity
  /-- It waits for its first propagation, which is from scratch. -/
  | inactive
  /-- It reacts to events. -/
  | active
  /-- It cannot narrow any domain until the engine backtracks. -/
  | passive
  deriving DecidableEq, Repr, Inhabited

/-- The number of a remembered set. -/
structure SetId where
  index : Nat
  deriving DecidableEq, Repr

/-- A change of the memory. -/
inductive Memory.Change
  /-- The activity of a propagator changed from the given one. -/
  | activity (propagator : PropId) (old : Activity)
  /-- The number was inserted into the set. -/
  | inserted (set : SetId) (element : Nat)
  /-- The number was removed from the set. -/
  | removed (set : SetId) (element : Nat)
  deriving DecidableEq, Repr

/-- The activities of the propagators and their sets, with the log of changes. -/
structure Memory where
  activities : Array Activity := #[]
  sets : Array SparseSet := #[]
  trail : Trail Memory.Change := {}

namespace Memory

/-- The activity of a propagator. -/
def activity (m : Memory) (p : PropId) : Activity := m.activities[p.index]?.getD .inactive

/-- The memory with room for one more propagator, which is inactive. -/
def addActivity (m : Memory) : Memory := { m with activities := m.activities.push .inactive }

/-- The memory with a new activity of a propagator.  Nothing is logged if that
is no change. -/
def setActivity (m : Memory) (p : PropId) (a : Activity) : Memory :=
  if m.activity p = a then m
  else
    { m with
      activities := m.activities.setIfInBounds p.index a
      trail := m.trail.push (.activity p (m.activity p)) }

/-- The set of a number; one that was never added has no room for members. -/
def set (m : Memory) (i : SetId) : SparseSet := m.sets[i.index]?.getD (.empty 0)

/-- The number of a new empty set, and the memory with it. -/
def addSet (m : Memory) (capacity : Nat) : SetId × Memory :=
  (⟨m.sets.size⟩, { m with sets := m.sets.push (.empty capacity) })

/-- The memory with a number in a set; logged if it was not there. -/
def insert (m : Memory) (i : SetId) (e : Nat) : Memory :=
  match (m.set i).insert e with
  | (true, s) =>
    { m with sets := m.sets.setIfInBounds i.index s, trail := m.trail.push (.inserted i e) }
  | (false, _) => m

/-- The memory without a number in a set; logged if it was there. -/
def remove (m : Memory) (i : SetId) (e : Nat) : Memory :=
  match (m.set i).remove e with
  | (true, s) =>
    { m with sets := m.sets.setIfInBounds i.index s, trail := m.trail.push (.removed i e) }
  | (false, _) => m

/-- The memory with a set emptied, from its last member to its first. -/
def clear (m : Memory) (i : SetId) : Memory :=
  (m.set i).elements.reverse.foldl (fun m e => m.remove i e) m

/-- The memory with one more checkpoint. -/
def mark (m : Memory) : Memory := { m with trail := m.trail.mark }

/-- The memory with one change taken back; the log stays as it is. -/
def undo (m : Memory) : Change → Memory
  | .activity p old => { m with activities := m.activities.setIfInBounds p.index old }
  | .inserted i e => { m with sets := m.sets.setIfInBounds i.index ((m.set i).remove e).2 }
  | .removed i e => { m with sets := m.sets.setIfInBounds i.index ((m.set i).insert e).2 }

/-- The memory back at a level: all changes since are taken back, the latest
first. -/
def restore (m : Memory) (level : Nat) : Memory :=
  { (m.trail.undone level).foldl undo m with trail := m.trail.cut level }

end Memory

end FiniteDomain
