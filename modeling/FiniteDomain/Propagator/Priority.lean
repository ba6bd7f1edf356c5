/-!
Priorities of propagators.

Propagators of a higher priority are called first; they are the cheaper ones.

* `Priority`: the levels, and `Priority.level`, their ranks;
* `Priority.all`: the levels in order of rank.
-/

namespace FiniteDomain

/-- When a waiting propagator is called. -/
inductive Priority
  | high
  | medium
  | low
  | veryLow
  deriving DecidableEq, Repr

namespace Priority

/-- The rank of the priority; rank 0 is called first. -/
def level : Priority → Nat
  | high => 0
  | medium => 1
  | low => 2
  | veryLow => 3

/-- The priorities in order of rank. -/
def all : List Priority := [high, medium, low, veryLow]

/-- The name of the priority. -/
def name : Priority → String
  | high => "High"
  | medium => "Medium"
  | low => "Low"
  | veryLow => "VeryLow"

/-- The priority of a name. -/
def ofName? (s : String) : Option Priority := all.find? fun p => p.name == s

theorem level_injective {p q : Priority} (h : p.level = q.level) : p = q := by
  cases p <;> cases q <;> first | rfl | cases h

end Priority

end FiniteDomain
