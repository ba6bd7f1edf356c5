import FiniteDomain.Propagator.Entailment
import FiniteDomain.Space

/-!
Counting how often a value is taken.

The constraint says that exactly `card` of the variables take the value.  The
propagator remembers the indices of the variables that certainly take it and of
those that may.  Their numbers bound `card`; once `card` is fixed to one of the
two bounds, the variables that may take the value all have to, or none of them.

* `Count`: the constraint, and `Count.Holds`, what it says;
* `Count.filter`: the bounds of `card` and the decision on the open variables;
* `Count.propagate`, `Count.react`: sorting all variables anew, and moving one;
* `Count.entailment`, `Count.explain`: the answers to the other questions.
-/

namespace FiniteDomain

/-- Exactly `card` of the variables take the value. -/
structure Count where
  vars : List VarId
  value : Int
  card : VarId
  deriving DecidableEq

namespace Count

/-- What the constraint says of an assignment. -/
def Holds (values : VarId → Int) (c : Count) : Prop :=
  ((c.vars.filter fun v => decide (values v = c.value)).length : Int) = values c.card

/-- The variables and the cardinality. -/
def scope (c : Count) : List VarId := c.vars ++ [c.card]

/-- Where the remembered indices are kept. -/
structure Sets where
  /-- The indices of the variables that may take the value and are not fixed. -/
  possible : SetId
  /-- The indices of the variables that are fixed to the value. -/
  certain : SetId
  deriving DecidableEq

/-- Makes every open variable take the value. -/
def takeAll (c : Count) (p : PropId) (sets : Sets) : List Nat → Filter Unit
  | [] => pure ()
  | i :: is => do
    Filter.insert sets.certain i
    match c.vars[i]? with
    | some v => discard (Filter.apply p v (.equals c.value))
    | none => pure ()
    takeAll c p sets is

/-- Takes the value from every open variable. -/
def takeNone (c : Count) (p : PropId) : List Nat → Filter Unit
  | [] => pure ()
  | i :: is => do
    match c.vars[i]? with
    | some v => discard (Filter.apply p v (.differs c.value))
    | none => pure ()
    takeNone c p is

/-- Bounds the cardinality by the remembered indices, and decides on the open
variables when it is fixed to a bound.  The sizes and their sum are integers here;
for fewer than `2 ^ 30` variables, signed 32-bit words hold them, and come to the
same result (`Count.Owns.computes`). -/
def filter (c : Count) (p : PropId) (sets : Sets) : Filter Unit := do
  let memory ← Filter.memory
  let certain : Int := (memory.set sets.certain).size
  let possible : Int := (memory.set sets.possible).size
  discard (Filter.apply p c.card (.atLeast certain))
  discard (Filter.apply p c.card (.atMost (certain + possible)))
  let store ← Filter.store
  if store.isFixed c.card then
    let card := store.lower c.card
    let undecided := (memory.set sets.possible).elements
    if certain + possible = card then
      takeAll c p sets undecided
      Filter.clear sets.possible
    else if certain = card then
      takeNone c p undecided
      Filter.clear sets.possible

/-- The memory with an index in the set that the domain of its variable asks for. -/
def sort (c : Count) (store : Store) (sets : Sets) (m : Memory) (v : VarId) (i : Nat) :
    Memory :=
  if store.isFixed v then
    if store.lower v = c.value then m.insert sets.certain i else m
  else if store.contains v c.value then m.insert sets.possible i
  else m

/-- Sorts all indices anew and filters. -/
def propagate (c : Count) (p : PropId) (sets : Sets) : Filter Unit := do
  Filter.clear sets.certain
  Filter.clear sets.possible
  let store ← Filter.store
  Filter.onMemory fun m => c.vars.zipIdx.foldl (fun m v => c.sort store sets m v.1 v.2) m
  c.filter p sets

/-- Filters after the variable at an index changed: after a change of the
cardinality, and after a variable was decided that may have taken the value. -/
def react (c : Count) (p : PropId) (sets : Sets) (index : Nat) : Filter Unit := do
  match c.vars[index]? with
  | none => c.filter p sets
  | some v =>
    if ((← Filter.memory).set sets.possible).contains index then
      let store ← Filter.store
      if !store.contains v c.value then
        Filter.remove sets.possible index
        c.filter p sets
      else if store.isFixed v then
        Filter.remove sets.possible index
        Filter.insert sets.certain index
        c.filter p sets

/-! ### Entailment -/

/-- Whether the variable is fixed to the value. -/
def takes (c : Count) (store : Store) (v : VarId) : Bool :=
  store.isFixed v && store.lower v == c.value

/-- Whether the constraint holds for all, some or no values of the domains.  The two
numbers are integers here; neither exceeds the number of the variables, so that
signed 32-bit words hold them if there are fewer than `2 ^ 30`. -/
def entailment (c : Count) (store : Store) : Entailment :=
  let least : Int := (c.vars.filter (c.takes store)).length
  let most : Int :=
    (c.vars.filter fun v => c.takes store v || store.contains v c.value).length
  if most < store.lower c.card ∨ store.upper c.card < least then .violated
  else if store.isFixed c.card ∧ least = most then .holds
  else .undetermined

/-! ### Explanations -/

/-- The initial values of the variable other than the counted one. -/
def others (c : Count) (store : Store) (v : VarId) : IntervalSet :=
  (store.initial v).erase c.value

/-- The counted value, if the variable had it initially. -/
def only (c : Count) (store : Store) (v : VarId) : IntervalSet :=
  (store.initial v).between c.value c.value

/-- Adds that some variable fixed to the value is not; `except` is left out. -/
def explainByFixed (c : Count) (store : Store) (position : Nat) (except : Option VarId)
    (e : Explanation) : Explanation :=
  c.vars.foldl (fun e v =>
    if some v ≠ except ∧ store.lowerAt v position = c.value
        ∧ store.upperAt v position = c.value then
      e.add v (c.others store v)
    else e) e

/-- Adds that some variable that lost the value takes it; `except` is left out. -/
def explainByExcluded (c : Count) (store : Store) (position : Nat) (except : Option VarId)
    (e : Explanation) : Explanation :=
  c.vars.foldl (fun e v =>
    if some v ≠ except ∧ c.value ∉ store.domainAt v position then
      e.addNonempty v (c.only store v)
    else e) e

/-- Explains a request at a position.  A bound of the cardinality follows from
the variables that are fixed to the value or have lost it; what is asked of a
variable follows from the cardinality and the other variables. -/
def explain (c : Count) (store : Store) (position : Nat) (r : Request) : Explanation :=
  match r.operation with
  | .atLeast k =>
    if r.var = c.card then
      c.explainByFixed store position none
        (({} : Explanation).addPivot c.card ((store.initial c.card).atLeast k))
    else store.explainByScope position r c.scope
  | .atMost k =>
    if r.var = c.card then
      c.explainByExcluded store position none
        (({} : Explanation).addPivot c.card ((store.initial c.card).atMost k))
    else store.explainByScope position r c.scope
  | .equals k =>
    if r.var ≠ c.card ∧ k = c.value then
      let card := Value.below (store.lowerAt c.card position)
      (c.explainByExcluded store position (some r.var)
        (({} : Explanation).add c.card ((store.initial c.card).atMost card))).addPivot
          r.var (c.only store r.var)
    else store.explainByScope position r c.scope
  | .differs k =>
    if r.var ≠ c.card ∧ k = c.value then
      let card := Value.above (store.upperAt c.card position)
      (c.explainByFixed store position (some r.var)
        (({} : Explanation).add c.card ((store.initial c.card).atLeast card))).addPivot
          r.var (c.others store r.var)
    else store.explainByScope position r c.scope

end Count

end FiniteDomain
