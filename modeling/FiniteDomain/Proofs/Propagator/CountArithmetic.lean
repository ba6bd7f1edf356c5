import Mathlib.Tactic
import FiniteDomain.Proofs.Arithmetic
import FiniteDomain.Proofs.Propagator.CountCalls

/-!
Counting in the words of a machine.

A count compares its cardinality with the number of the certain places, and with that of all places
in its sets.  Both have to fit into words of 32 bits.  They do as long as there are fewer than
`2 ^ 30` places, for each set has room for one number for each place.

* `Count.bounds?`: the two numbers, with `Count.Owns.bounds?_eq`;
* `Count.filterBy`: how a count filters with given bounds, and `Count.filter?`: with the two
  numbers;
* `Count.propagate?`, `Count.react?`: the calls of the engine, from where they filter on
  (`Count.sorted`, `Count.moved?`);
* `Count.Computes`: all calls of the count come to a result, which is the right one, with
  `Count.Owns.computes`.
-/

namespace FiniteDomain

namespace Count

open Word

variable {c : Count} {sets : Sets} {p : PropId} {m : Memory} {s : Space}

/-- The bounds of the cardinality, if both fit. -/
def bounds? (sets : Sets) (m : Memory) : Option (Int × Int) := do
  let certain ← int32.hold? (m.set sets.certain).size
  let possible ← int32.hold? (m.set sets.possible).size
  return (certain, ← int32.add? certain possible)

/-- Filters with given bounds of the cardinality. -/
def filterBy (c : Count) (p : PropId) (sets : Sets) (least most : Int) : Filter Unit := do
  let undecided := ((← Filter.memory).set sets.possible).elements
  discard (Filter.apply p c.card (.atLeast least))
  discard (Filter.apply p c.card (.atMost most))
  let store ← Filter.store
  if store.isFixed c.card then
    if most = store.lower c.card then
      takeAll c p sets undecided
      Filter.clear sets.possible
    else if least = store.lower c.card then
      takeNone c p undecided
      Filter.clear sets.possible

/-- What filtering comes to, if the bounds fit. -/
def filter? (c : Count) (p : PropId) (sets : Sets) (s : Space) :
    Option (EStateM.Result Stop Space Unit) :=
  (bounds? sets s.memory).map fun b => c.filterBy p sets b.1 b.2 s

/-- What a call from scratch comes to. -/
def propagate? (c : Count) (p : PropId) (sets : Sets) (s : Space) :
    Option (EStateM.Result Stop Space Unit) :=
  c.filter? p sets (c.sorted sets s)

/-- What a call for one index comes to. -/
def react? (c : Count) (p : PropId) (sets : Sets) (index : Nat) (s : Space) :
    Option (EStateM.Result Stop Space Unit) :=
  match c.moved? sets index s with
  | none => some (.ok () s)
  | some t => c.filter? p sets t

lemma filter_eq : c.filter p sets s = c.filterBy p sets (s.memory.set sets.certain).size
    ((s.memory.set sets.certain).size + (s.memory.set sets.possible).size) s := by
  simp only [filter, filterBy, Filter.memory_bind]

/-! ### Sets with room for all places -/

/-- Neither set has more numbers than there are places. -/
lemma Owns.bounds?_eq (hown : c.Owns sets m) (w : m.WellFormed) (hlt : c.vars.length < 2 ^ 30) :
    bounds? sets m = some (((m.set sets.certain).size : Int),
      ((m.set sets.certain).size : Int) + (m.set sets.possible).size) := by
  have hsize : ∀ i, (m.set i).size ≤ (m.set i).capacity := fun i =>
    (w.set i).size_le
  have hcertain := hown.certain ▸ hsize sets.certain
  have hpossible := hown.possible ▸ hsize sets.possible
  have hfits : ∀ n : Nat, n < 2 ^ 31 → int32.hold? n = some (n : Int) := fun n hn =>
    hold?_int32 (by simp only [Value.InRange, Value.least, Value.greatest]; omega)
  have hadd : int32.add? (m.set sets.certain).size (m.set sets.possible).size =
      some (((m.set sets.certain).size : Int) + (m.set sets.possible).size) :=
    hfits ((m.set sets.certain).size + (m.set sets.possible).size) (by omega)
  simp only [bounds?, hfits _ (show (m.set sets.certain).size < 2 ^ 31 by omega),
    hfits _ (show (m.set sets.possible).size < 2 ^ 31 by omega), hadd, Option.bind_eq_bind,
    Option.bind_some]
  rfl

lemma Owns.filter?_eq (hown : c.Owns sets s.memory) (w : s.memory.WellFormed)
    (hlt : c.vars.length < 2 ^ 30) : c.filter? p sets s = some (c.filter p sets s) := by
  rw [filter?, hown.bounds?_eq w hlt, filter_eq]
  rfl

/-- All calls of the count come to a result in words, and the result is the right one. -/
structure Computes (c : Count) (p : PropId) (sets : Sets) (s : Space) : Prop where
  propagate : c.propagate? p sets s = some (c.propagate p sets s)
  react : ∀ index, c.react? p sets index s = some (c.react p sets index s)

lemma Owns.computes (hown : c.Owns sets s.memory) (w : s.memory.WellFormed)
    (hlt : c.vars.length < 2 ^ 30) : c.Computes p sets s := by
  have hfilter : ∀ t : Space, Memory.Kept p sets.own s.memory t.memory →
      c.filter? p sets t = some (c.filter p sets t) := fun t hkept =>
    (hown.kept hkept).filter?_eq hkept.wellFormed hlt
  refine ⟨?_, fun index => ?_⟩
  · rw [propagate?, propagate_eq]
    exact hfilter _ (kept_sorted w)
  · rw [react?, react_eq]
    cases ht : c.moved? sets index s with
    | none => rfl
    | some t => exact hfilter t (kept_moved w ht)

end Count

end FiniteDomain
