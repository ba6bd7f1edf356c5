import FiniteDomain.Identifier
import FiniteDomain.Propagator.Priority

/-!
The agenda of waiting propagators.

Waiting propagators stand in one lane per priority, first come first served,
and each waits at most once.  The agenda also keeps the set of those who wait,
and the list of the priorities whose lanes are not empty, in order of rank, so
that the next propagator is the first one in the lane of the first priority.

* `Agenda.enqueue`: a propagator is added, unless it waits already;
* `Agenda.pop`: the next propagator, and the agenda without it;
* `Agenda.clear`: the agenda after all were sent away;
* `Agenda.waiting`: all waiting propagators in the order in which they will be
  popped;
* `Agenda.WellFormed`: what the three parts of the agenda say of each other;
* `Agenda.enqueue_of_contains`, `Agenda.lane_enqueue`: one that waits keeps its
  place, another goes to the end of its lane.
-/

namespace FiniteDomain

/-- The waiting propagators. -/
structure Agenda where
  highLane : List PropId := []
  mediumLane : List PropId := []
  lowLane : List PropId := []
  veryLowLane : List PropId := []
  /-- The propagators that wait, in any lane. -/
  present : List PropId := []
  /-- The priorities whose lanes are not empty, in order of rank. -/
  levels : List Priority := []
  deriving DecidableEq, Repr

namespace Agenda

/-- The propagators that wait at a priority, longest waiting first. -/
def lane (a : Agenda) : Priority → List PropId
  | .high => a.highLane
  | .medium => a.mediumLane
  | .low => a.lowLane
  | .veryLow => a.veryLowLane

/-- The agenda with another lane at a priority. -/
def withLane (a : Agenda) (l : List PropId) : Priority → Agenda
  | .high => { a with highLane := l }
  | .medium => { a with mediumLane := l }
  | .low => { a with lowLane := l }
  | .veryLow => { a with veryLowLane := l }

/-- All waiting propagators, those of higher priority first. -/
def waiting (a : Agenda) : List PropId := Priority.all.flatMap a.lane

/-- Whether the propagator waits. -/
def contains (a : Agenda) (p : PropId) : Bool := a.present.contains p

/-- Whether no propagator waits. -/
def isEmpty (a : Agenda) : Bool := a.present.isEmpty

/-- The priorities in order of rank, with one more. -/
def insertLevel (q : Priority) : List Priority → List Priority
  | [] => [q]
  | r :: rs => if q.level ≤ r.level then q :: r :: rs else r :: insertLevel q rs

/-- The agenda after a propagator asked to be called. -/
def enqueue (a : Agenda) (p : PropId) (q : Priority) : Agenda :=
  if a.contains p then a
  else
    let levels := if (a.lane q).isEmpty then insertLevel q a.levels else a.levels
    { a.withLane (a.lane q ++ [p]) q with present := p :: a.present, levels := levels }

/-- The next propagator, and the agenda without it. -/
def pop (a : Agenda) : Option (PropId × Agenda) :=
  match a.levels with
  | [] => none
  | q :: qs =>
    match a.lane q with
    | [] => none
    | p :: ps =>
      some (p, { a.withLane ps q with
        present := a.present.filter (· ≠ p)
        levels := if ps.isEmpty then qs else q :: qs })

/-- The agenda after all were sent away: the lanes of the listed priorities are
emptied. -/
def clear (a : Agenda) : Agenda :=
  { a.levels.foldl (fun a q => a.withLane [] q) a with present := [], levels := [] }

/-- Each priority is listed once, in order of rank, if its lane is not empty, no
propagator waits twice, and those who wait are known. -/
structure WellFormed (a : Agenda) : Prop where
  ascending : a.levels.Pairwise fun q r => q.level < r.level
  mem_levels : ∀ q, q ∈ a.levels ↔ a.lane q ≠ []
  nodup : a.waiting.Nodup
  mem_present : ∀ p, p ∈ a.present ↔ p ∈ a.waiting

@[simp] theorem lane_withLane (a : Agenda) (l : List PropId) (q r : Priority) :
    (a.withLane l q).lane r = if r = q then l else a.lane r := by
  cases q <;> cases r <;> rfl

theorem wellFormed_empty : WellFormed {} :=
  ⟨.nil, fun q => by cases q <;> simp [lane], by simp [waiting, Priority.all, lane],
    fun p => by simp [waiting, Priority.all, lane]⟩

theorem mem_waiting {a : Agenda} {p : PropId} : p ∈ a.waiting ↔ ∃ q, p ∈ a.lane q := by
  simp only [waiting, List.mem_flatMap]
  constructor
  · rintro ⟨q, -, h⟩
    exact ⟨q, h⟩
  · rintro ⟨q, h⟩
    exact ⟨q, by cases q <;> simp [Priority.all], h⟩

theorem isEmpty_iff {a : Agenda} : a.isEmpty = true ↔ ∀ p, a.contains p = false := by
  simp [isEmpty, contains, List.isEmpty_iff, List.eq_nil_iff_forall_not_mem]

/-- A propagator that waits keeps its place. -/
theorem enqueue_of_contains {a : Agenda} {p : PropId} {q : Priority}
    (h : a.contains p = true) : a.enqueue p q = a := by
  rw [enqueue, if_pos h]

/-- A propagator that does not wait goes to the end of its lane. -/
theorem lane_enqueue {a : Agenda} {p : PropId} {q r : Priority} (h : a.contains p = false) :
    (a.enqueue p q).lane r = if r = q then a.lane q ++ [p] else a.lane r := by
  rw [enqueue, if_neg (by simp [h]), ← lane_withLane a (a.lane q ++ [p])]
  cases r <;> rfl

end Agenda

end FiniteDomain
