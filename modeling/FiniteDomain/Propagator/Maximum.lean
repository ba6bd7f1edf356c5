import FiniteDomain.Propagator.Entailment
import FiniteDomain.Space

/-!
The maximum of an array.

The constraint says that `rhs` is the greatest of the elements.  Bounds go both
ways until nothing changes.  When only one element can still reach the lower
bound of `rhs`, that element is the maximum, and its bounds and those of `rhs`
are made to agree.

* `Maximum`: the constraint, and `Maximum.Holds`, what it says;
* `Maximum.survey`: the elements capped by `rhs`, and their greatest bounds;
* `Maximum.channel`: one element and `rhs` brought to the same bounds;
* `Maximum.propagate`: rounds of the two until nothing changes;
* `Maximum.entailment`, `Maximum.explain`: the answers to the other questions.
-/

namespace FiniteDomain

/-- The greatest of the elements is `rhs`. -/
structure Maximum where
  array : List VarId
  rhs : VarId
  deriving DecidableEq

namespace Maximum

/-- What the constraint says of an assignment. -/
def Holds (values : VarId → Int) (c : Maximum) : Prop :=
  (∀ v ∈ c.array, values v ≤ values c.rhs) ∧ ∃ v ∈ c.array, values v = values c.rhs

/-- The elements and the right-hand side. -/
def scope (c : Maximum) : List VarId := c.array ++ [c.rhs]

/-- What a walk over the elements found. -/
structure Survey where
  /-- Whether a domain changed. -/
  changed : Bool := false
  /-- The greatest lower bound. -/
  lower : Int := Value.least
  /-- The greatest upper bound. -/
  upper : Int := Value.least

/-- Caps the elements one by one, and takes the bounds of each right after. -/
def survey (p : PropId) (cap : Int) : List VarId → Survey → Filter Survey
  | [], found => pure found
  | v :: vs, found => do
    let changed ← Filter.apply p v (.atMost cap)
    let store ← Filter.store
    survey p cap vs
      ⟨found.changed || changed, max found.lower (store.lower v), max found.upper (store.upper v)⟩

/-- Lets `rhs` and an element take over each other's bounds until they agree. -/
def agree (c : Maximum) (p : PropId) (v : VarId) : Nat → Filter Unit
  | 0 => throw .exhausted
  | rounds + 1 => do
    let store ← Filter.store
    if store.lower c.rhs = store.lower v ∧ store.upper c.rhs = store.upper v then
      pure ()
    else
      discard (Filter.updateBounds p c.rhs (store.lower v) (store.upper v))
      let store ← Filter.store
      discard (Filter.updateBounds p v (store.lower c.rhs) (store.upper c.rhs))
      agree c p v rounds

/-- Makes an element the maximum.  If `rhs` is fixed, that settles the
constraint. -/
def channel (c : Maximum) (p : PropId) (v : VarId) : Filter Unit := do
  let store ← Filter.store
  discard (Filter.updateBounds p v (store.lower c.rhs) (store.upper c.rhs))
  let space ← get
  if space.store.isFixed c.rhs then Filter.setPassive p
  else c.agree p v space.rounds

/-- The elements that can reach a bound. -/
def reaching (c : Maximum) (store : Store) (bound : Int) : List VarId :=
  c.array.filter fun v => decide (bound ≤ store.upper v)

/-- Rounds of bound propagation, until one changes nothing or finds a single
element that can be the maximum. -/
def rounds (c : Maximum) (p : PropId) : Nat → Filter Unit
  | 0 => throw .exhausted
  | left + 1 => do
    let found ← survey p ((← Filter.store).upper c.rhs) c.array {}
    let raised ← Filter.apply p c.rhs (.atLeast found.lower)
    let lowered ← Filter.apply p c.rhs (.atMost found.upper)
    let store ← Filter.store
    match c.reaching store (max found.lower (store.lower c.rhs)) with
    | [v] => c.channel p v
    | _ => if found.changed || raised || lowered then rounds c p left else pure ()

/-- Propagates the bounds from scratch. -/
def propagate (c : Maximum) (p : PropId) : Filter Unit := do
  c.rounds p (← get).rounds

/-- Whether the constraint holds for all, some or no values of the domains. -/
def entailment (c : Maximum) (store : Store) : Entailment :=
  let cap := store.upper c.rhs
  if c.array.any fun v => decide (cap < store.lower v) then .violated
  else if (c.array.map store.upper).foldl max Value.least < store.lower c.rhs then .violated
  else if c.array.any fun v => decide (cap < store.upper v) then .undetermined
  else if store.isFixed c.rhs
      && c.array.any fun v => store.isFixed v && store.lower v == cap then .holds
  else .undetermined

/-- The initial values of a variable from a bound on. -/
def atLeast (store : Store) (v : VarId) (k : Int) : IntervalSet := (store.initial v).atLeast k

/-- The initial values of a variable up to a bound. -/
def atMost (store : Store) (v : VarId) (k : Int) : IntervalSet := (store.initial v).atMost k

/-- Explains a request at a position.  A lower bound of `rhs` follows from the
elements that reach it, an upper bound from all elements; the lower bound of an
element follows from `rhs` and from the other elements staying below, the upper
bound from `rhs`. -/
def explain (c : Maximum) (store : Store) (position : Nat) (r : Request) : Explanation :=
  match r.operation with
  | .atLeast k =>
    if r.var = c.rhs then
      c.array.foldl (fun e v =>
          if k ≤ store.lowerAt v position then e.add v (atMost store v (Value.below k)) else e)
        (({} : Explanation).addPivot c.rhs (atLeast store c.rhs k))
    else
      (c.array.foldl (fun e v =>
          if v ≠ r.var then e.addNonempty v (atLeast store v k) else e)
        (({} : Explanation).add c.rhs (atMost store c.rhs (Value.below k)))).addPivot
          r.var (atLeast store r.var k)
  | .atMost k =>
    if r.var = c.rhs then
      c.array.foldl (fun e v => e.addNonempty v (atLeast store v (Value.above k)))
        (({} : Explanation).addPivot c.rhs (atMost store c.rhs k))
    else
      (({} : Explanation).add c.rhs (atLeast store c.rhs (Value.above k))).addPivot
        r.var (atMost store r.var k)
  | .differs _ | .equals _ => store.explainByScope position r c.scope

end Maximum

end FiniteDomain
