import FiniteDomain.Memory
import FiniteDomain.Store.Graph
import FiniteDomain.Store.Update

/-!
What propagators work on.

A propagator reads and narrows domains, uses its memory, and may record that it
was called.  A run of a propagator is a `Filter`: it ends with a changed space,
and either a result or the reason why it stopped.  A loop inside a propagator is
given a number of rounds that it never needs (`Space.rounds`); running out of
them is a reason of its own.

* `Space`: the store, the memory and the recorded calls;
* `Filter`, `Stop`: a run of a propagator and the reasons for it to stop;
* `Filter.apply`, `Filter.updateBounds`, `Filter.restrictTo`: updates of the
  store in the name of a propagator;
* `Filter.insert`, `Filter.remove`, `Filter.clear`, `Filter.setPassive`: changes
  of its memory.
-/

namespace FiniteDomain

/-- A recorded call: of a propagation from scratch, or for the events of one
variable of the scope. -/
structure Call where
  propagator : PropId
  events : Option (Nat × EventSet)
  deriving DecidableEq, Repr

/-- The domains, what propagators remember, and the calls they recorded. -/
structure Space where
  store : Store := {}
  memory : Memory := {}
  calls : Array Call := #[]

/-- The reason why a propagator stopped. -/
inductive Stop
  /-- A variable was about to lose its last value. -/
  | inconsistent (i : Inconsistency)
  /-- A loop used up its rounds. -/
  | exhausted
  deriving DecidableEq, Repr

/-- The number of rounds that a loop is given in which every round but the last
removes a value. -/
def Space.rounds (s : Space) : Nat := s.store.volume + 1

/-- A run of a propagator. -/
abbrev Filter := EStateM Stop Space

namespace Filter

/-- A change of the store as a run on the space. -/
def onStore {α : Type} (change : EStateM Inconsistency Store α) : Filter α := fun s =>
  match change s.store with
  | .ok a store => .ok a { s with store := store }
  | .error i store => .error (.inconsistent i) { s with store := store }

/-- The domains as they are now. -/
def store : Filter Store := return (← get).store

/-- The memory as it is now. -/
def memory : Filter Memory := return (← get).memory

/-- Applies an operation to a variable for a propagator. -/
def apply (p : PropId) (v : VarId) (op : Operation) : Filter Bool :=
  onStore (Store.apply (some p) v op)

/-- Tightens both bounds of a variable for a propagator. -/
def updateBounds (p : PropId) (v : VarId) (lo hi : Int) : Filter Bool :=
  onStore (Store.updateBounds (some p) v lo hi)

/-- Restricts a variable to a set for a propagator. -/
def restrictTo (p : PropId) (v : VarId) (allowed : IntervalSet) : Filter Bool :=
  onStore (Store.restrictTo (some p) v allowed)

/-- Changes the memory. -/
def onMemory (f : Memory → Memory) : Filter Unit :=
  modify fun s => { s with memory := f s.memory }

/-- Inserts a number into a remembered set. -/
def insert (i : SetId) (e : Nat) : Filter Unit := onMemory fun m => m.insert i e

/-- Removes a number from a remembered set. -/
def remove (i : SetId) (e : Nat) : Filter Unit := onMemory fun m => m.remove i e

/-- Empties a remembered set. -/
def clear (i : SetId) : Filter Unit := onMemory fun m => m.clear i

/-- The propagator has nothing left to do until the engine backtracks. -/
def setPassive (p : PropId) : Filter Unit := onMemory fun m => m.setActivity p .passive

end Filter

end FiniteDomain
