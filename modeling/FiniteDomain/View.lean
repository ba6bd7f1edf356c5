import FiniteDomain.Operation
import FiniteDomain.Reading

/-!
Views: boolean variables that follow another variable.

A view has no values of its own.  It is 1 where a condition on its base holds
and 0 elsewhere, so its domain is the image of the domain of the base, and a
request on it turns into a request on the base.  The base may be a view again;
a chain of views lists them from the outermost down to the one on the root.

* `View.value`: the value of the view at a value of its base;
* `View.flags`, `View.image`, `View.preimage`: the domain of the view, as flags
  and as a set, and the values of the base for which the view lies in a set;
* `View.request`: the request on the base that gives the view a value;
* `Chain.value`, `Chain.reading`, `Chain.image`, `Chain.preimage`, `Chain.effect`:
  the same along a whole chain;
* `View.mem_image`, `View.mem_preimage`: both in terms of `View.value`.
-/

namespace FiniteDomain

/-- The condition a view stands for. -/
inductive View.Condition
  /-- The base has the given value. -/
  | equals (k : Int)
  /-- The base is at most the given value. -/
  | atMost (k : Int)
  /-- The base, which is boolean, is 0. -/
  | negation
  deriving DecidableEq, Repr

/-- A boolean variable that follows its base. -/
structure View where
  condition : View.Condition
  base : VarId
  deriving DecidableEq, Repr

namespace View

/-- The value of the view when its base has the value `x`. -/
def value (w : View) (x : Int) : Int :=
  match w.condition with
  | .equals k => if x = k then 1 else 0
  | .atMost k => if x ≤ k then 1 else 0
  | .negation => 1 - x

/-- The values of the view when the domain of its base answers as given. -/
def flags (w : View) (q : Reading) : Booleans :=
  match w.condition with
  | .equals k => ⟨!q.isFixedTo k, q.contains k⟩
  | .atMost k => ⟨decide (k < q.upper), decide (q.lower ≤ k)⟩
  | .negation => ⟨q.contains 1, q.contains 0⟩

/-- The values of the view when its base has the domain `d`. -/
def image (w : View) (d : IntervalSet) : IntervalSet := (w.flags d.reading).toSet

/-- The values in `d` for which the view is 1. -/
def ones (w : View) (d : IntervalSet) : IntervalSet :=
  match w.condition with
  | .equals k => d.between k k
  | .atMost k => d.atMost k
  | .negation => d.between 0 0

/-- The values in `d` for which the view is 0.  Above the greatest value there
is none, so a bound there stays on it. -/
def zeros (w : View) (d : IntervalSet) : IntervalSet :=
  match w.condition with
  | .equals k => d.erase k
  | .atMost k => d.atLeast (Value.above k)
  | .negation => d.between 1 1

/-- The values in `d` for which the view lies in `values`. -/
def preimage (w : View) (values d : IntervalSet) : IntervalSet :=
  (if 0 ∈ values then w.zeros d else ∅) ∪ (if 1 ∈ values then w.ones d else ∅)

/-- The request on the base that gives the view the value `target`. -/
def request (w : View) (target : Int) : Operation :=
  match w.condition with
  | .equals k => if target = 1 then .equals k else .differs k
  | .atMost k => if target = 1 then .atMost k else .atLeast (Value.above k)
  | .negation => .equals (1 - target)

/-- The condition of the view on its base. -/
protected def toString (w : View) : String :=
  match w.condition with
  | .equals k => "[" ++ toString w.base ++ " = " ++ toString k ++ "]"
  | .atMost k => "[" ++ toString w.base ++ " <= " ++ toString k ++ "]"
  | .negation => "!" ++ toString w.base

instance : ToString View := ⟨View.toString⟩

/-- The domain of a view consists of its values at the values of its base.  A
negation needs a boolean base. -/
theorem mem_image {w : View} {d : IntervalSet} (hd : ∃ x, x ∈ d)
    (hb : w.condition = .negation → ∀ x, x ∈ d → x = 0 ∨ x = 1) {y : Int} :
    y ∈ w.image d ↔ ∃ x, x ∈ d ∧ w.value x = y := by
  rw [image, Booleans.mem_toSet]
  cases hc : w.condition with
  | equals k =>
    have hsingle : d = {k} ↔ ∀ x, x ∈ d → x = k := by
      constructor
      · rintro rfl x hx
        exact IntervalSet.mem_singleton.1 hx
      · intro h
        obtain ⟨x, hx⟩ := hd
        ext v
        rw [IntervalSet.mem_singleton]
        exact ⟨h v, fun e => by rw [e, ← h x hx]; exact hx⟩
    have hfix : d.reading.isFixedTo k = true ↔ d = {k} := IntervalSet.isFixedTo_iff hd
    have hin : d.reading.contains k = true ↔ k ∈ d := IntervalSet.contains_iff
    simp only [flags, value, hc, Bool.not_eq_true', ← Bool.not_eq_true, hfix, hsingle, hin]
    grind
  | atMost k =>
    have hupper : d.reading.upper = d.upper := rfl
    have hlower : d.reading.lower = d.lower := rfl
    simp only [flags, value, hc, decide_eq_true_eq, hupper, hlower]
    constructor
    · rintro (⟨rfl, h⟩ | ⟨rfl, h⟩)
      · exact ⟨d.upper, IntervalSet.upper_mem hd, if_neg (by omega)⟩
      · exact ⟨d.lower, IntervalSet.lower_mem hd, if_pos h⟩
    · rintro ⟨x, hx, rfl⟩
      have hlo := IntervalSet.lower_le hx
      have hhi := IntervalSet.le_upper hx
      split <;> omega
  | negation =>
    have hin : ∀ k, d.reading.contains k = true ↔ k ∈ d := fun k => IntervalSet.contains_iff
    simp only [flags, value, hc, hin]
    constructor
    · rintro (⟨rfl, h⟩ | ⟨rfl, h⟩)
      · exact ⟨1, h, rfl⟩
      · exact ⟨0, h, rfl⟩
    · rintro ⟨x, hx, rfl⟩
      rcases hb hc x hx with rfl | rfl
      · exact .inr ⟨rfl, hx⟩
      · exact .inl ⟨rfl, hx⟩

theorem mem_ones {w : View} {d : IntervalSet} {x : Int} :
    x ∈ w.ones d ↔ x ∈ d ∧ w.value x = 1 := by
  cases hc : w.condition <;> simp only [ones, value, hc]
  · rw [IntervalSet.mem_between]
    grind
  · rw [IntervalSet.mem_atMost]
    grind
  · rw [IntervalSet.mem_between]
    grind

/-- The bound of an order view has to have a value above. -/
theorem mem_zeros {w : View} {d : IntervalSet}
    (hk : ∀ k, w.condition = .atMost k → k < Value.greatest) {x : Int} :
    x ∈ w.zeros d ↔ x ∈ d ∧ w.value x = 0 := by
  cases hc : w.condition with
  | equals k =>
    simp only [zeros, value, hc, IntervalSet.mem_erase]
    grind
  | atMost k =>
    simp only [zeros, value, hc, IntervalSet.mem_atLeast, Value.above_of_lt (hk k hc)]
    grind
  | negation =>
    simp only [zeros, value, hc, IntervalSet.mem_between]
    grind

theorem value_boolean {w : View} {x : Int}
    (hb : w.condition = .negation → x = 0 ∨ x = 1) : w.value x = 0 ∨ w.value x = 1 := by
  cases hc : w.condition <;> simp only [value, hc]
  · grind
  · grind
  · have := hb hc
    omega

/-- The preimage consists of the values of the base at which the view lies in the
set. -/
theorem mem_preimage {w : View} {values d : IntervalSet}
    (hk : ∀ k, w.condition = .atMost k → k < Value.greatest)
    (hb : w.condition = .negation → ∀ x, x ∈ d → x = 0 ∨ x = 1) {x : Int} :
    x ∈ w.preimage values d ↔ x ∈ d ∧ w.value x ∈ values := by
  have hx : x ∈ d → w.value x = 0 ∨ w.value x = 1 := fun h => value_boolean fun hc => hb hc x h
  have hzeros := @mem_zeros w d hk x
  have hones := @mem_ones w d x
  rw [preimage, IntervalSet.mem_union]
  split <;> split <;> grind [IntervalSet.not_mem_empty]

end View

/-! ### Chains of views -/

/-- Views from the outermost down to the one on a root; a root has no views. -/
abbrev Chain := List View

/-- What a request on the outermost view does to the domain of the root. -/
inductive RootEffect
  /-- The request already holds. -/
  | unchanged
  /-- No value is left that satisfies the request. -/
  | fails (kind : Inconsistency.Kind)
  /-- An operation narrows the domain of the root. -/
  | narrowed (op : Operation) (domain : IntervalSet)
  deriving DecidableEq

namespace Chain

/-- The value at the head of the chain when the root has the value `x`. -/
def value : Chain → Int → Int
  | [], x => x
  | w :: ws, x => w.value (value ws x)

/-- The answers of the head of the chain when the domain of the root answers as given. -/
def reading : Chain → Reading → Reading
  | [], q => q
  | w :: ws, q => (w.flags (reading ws q)).reading

/-- The domain at the head of the chain when the root has the domain `d`. -/
def image : Chain → IntervalSet → IntervalSet
  | [], d => d
  | w :: ws, d => w.image (image ws d)

/-- The values of the root, among those of `d`, for which the head of the chain
lies in `values`. -/
def preimage : Chain → IntervalSet → IntervalSet → IntervalSet
  | [], values, d => values ∩ d
  | w :: ws, values, d => preimage ws (w.preimage values (image ws d)) d

/-- What an operation on the head of the chain does to the domain `d` of the
root.  Since views are boolean, an operation that narrows one gives it a value,
and turns into a request on its base. -/
def effect : Chain → IntervalSet → Operation → RootEffect
  | [], d, op =>
    match op.effect d with
    | .unchanged => .unchanged
    | .fails kind => .fails kind
    | .narrowed left => .narrowed op left
  | w :: ws, d, op =>
    match op.effect (image (w :: ws) d) with
    | .unchanged => .unchanged
    | .fails kind => .fails kind
    | .narrowed left => effect ws d (w.request left.lower)

end Chain

end FiniteDomain
