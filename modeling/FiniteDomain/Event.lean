/-!
Events on domains.

An event says in what way a domain became smaller; a propagator names the
events it wants to hear of.

* `Event`: the kinds of change;
* `EventSet`: sets of events, listed in the order of `Event.all`;
* `EventSet.any`, `EventSet.bounds`, `EventSet.boundsAndAssign`,
  `EventSet.assign`: the sets that propagators ask for;
* `EventSet.ofBounds`: the events that a change of bounds amounts to.
-/

namespace FiniteDomain

/-- A way in which a domain can become smaller. -/
inductive Event
  /-- The domain became a single value. -/
  | assign
  /-- The least value went up. -/
  | lowerBound
  /-- The greatest value went down. -/
  | upperBound
  /-- A value was removed, at an end or between. -/
  | removal
  deriving DecidableEq, Repr

namespace Event

/-- All events, in the order in which they are listed. -/
def all : List Event := [assign, lowerBound, upperBound, removal]

/-- The name of the event. -/
def name : Event → String
  | assign => "Assign"
  | lowerBound => "LowerBound"
  | upperBound => "UpperBound"
  | removal => "Removal"

/-- The event of a name. -/
def ofName? (s : String) : Option Event := all.find? fun e => e.name == s

end Event

/-- A set of events. -/
structure EventSet where
  assigned : Bool := false
  lowerRaised : Bool := false
  upperLowered : Bool := false
  removed : Bool := false
  deriving DecidableEq, Repr

namespace EventSet

instance : EmptyCollection EventSet := ⟨{}⟩

/-- Whether the event is in the set. -/
def contains (s : EventSet) : Event → Bool
  | .assign => s.assigned
  | .lowerBound => s.lowerRaised
  | .upperBound => s.upperLowered
  | .removal => s.removed

instance : Membership Event EventSet := ⟨fun s e => s.contains e = true⟩

instance (s : EventSet) (e : Event) : Decidable (e ∈ s) :=
  inferInstanceAs (Decidable (_ = true))

/-- The set with one event added. -/
def insert (s : EventSet) : Event → EventSet
  | .assign => { s with assigned := true }
  | .lowerBound => { s with lowerRaised := true }
  | .upperBound => { s with upperLowered := true }
  | .removal => { s with removed := true }

/-- The events of a list. -/
def ofList (es : List Event) : EventSet := es.foldl insert ∅

/-- The events of either set. -/
def union (s t : EventSet) : EventSet where
  assigned := s.assigned || t.assigned
  lowerRaised := s.lowerRaised || t.lowerRaised
  upperLowered := s.upperLowered || t.upperLowered
  removed := s.removed || t.removed

instance : Union EventSet := ⟨union⟩

/-- Whether the set has no event. -/
def isEmpty (s : EventSet) : Bool :=
  !(s.assigned || s.lowerRaised || s.upperLowered || s.removed)

/-- Whether the sets have an event in common. -/
def meets (s t : EventSet) : Bool :=
  s.assigned && t.assigned || s.lowerRaised && t.lowerRaised ||
    s.upperLowered && t.upperLowered || s.removed && t.removed

/-- The events of the set, in order. -/
def toList (s : EventSet) : List Event := Event.all.filter s.contains

/-- The set in full: its events in order, a bar between them. -/
protected def toString (s : EventSet) : String :=
  "EnumSet(" ++ " | ".intercalate (s.toList.map Event.name) ++ ")"

instance : ToString EventSet := ⟨EventSet.toString⟩

/-- Every change. -/
def any : EventSet := ⟨true, true, true, true⟩

/-- Changes of the bounds. -/
def bounds : EventSet := ⟨false, true, true, false⟩

/-- Changes of the bounds, and the loss of all values but one. -/
def boundsAndAssign : EventSet := ⟨true, true, true, false⟩

/-- The loss of all values but one. -/
def assign : EventSet := ⟨true, false, false, false⟩

/-- The events of a change from one pair of bounds to another.  A bound moves
only when a value is removed. -/
def ofBounds (old new : Int × Int) : EventSet where
  assigned := new.1 == new.2 && old.1 != old.2
  lowerRaised := new.1 != old.1
  upperLowered := new.2 != old.2
  removed := new.1 != old.1 || new.2 != old.2

theorem mem_union {s t : EventSet} {e : Event} : e ∈ s ∪ t ↔ e ∈ s ∨ e ∈ t := by
  cases e <;> exact Bool.or_eq_true_iff

theorem meets_iff {s t : EventSet} : s.meets t = true ↔ ∃ e, e ∈ s ∧ e ∈ t := by
  constructor
  · intro h
    simp only [meets, Bool.or_eq_true, Bool.and_eq_true] at h
    rcases h with ((h | h) | h) | h
    · exact ⟨.assign, h⟩
    · exact ⟨.lowerBound, h⟩
    · exact ⟨.upperBound, h⟩
    · exact ⟨.removal, h⟩
  · rintro ⟨e, hs, ht⟩
    cases e <;> simp_all [meets, Membership.mem, contains]

end EventSet

end FiniteDomain
