import FiniteDomain.Event
import FiniteDomain.Identifier
import FiniteDomain.IntervalSet.Lemmas

/-!
Operations on a domain.

An operation asks a variable to satisfy a comparison with a constant.

* `Operation`: the four comparisons;
* `Operation.Holds`: the values that satisfy one;
* `Operation.effect`: what becomes of a domain, which is unchanged, narrowed,
  or left as it is because no value would remain;
* `Operation.holds_of_unchanged`, `Operation.mem_of_narrowed`,
  `Operation.not_holds_of_fails`: which values of a domain hold in each case;
* `Inconsistency`: the way in which a variable was about to lose its last value.
-/

namespace FiniteDomain

/-- A comparison of a variable with a constant. -/
inductive Operation
  | atLeast (k : Int)
  | atMost (k : Int)
  | differs (k : Int)
  | equals (k : Int)
  deriving DecidableEq, Repr

/-- How a domain was about to lose its last value. -/
inductive Inconsistency.Kind
  /-- No value was left between the bounds. -/
  | emptied
  /-- The lower bound was about to pass the upper one. -/
  | crossed
  deriving DecidableEq, Repr

/-- A variable that was about to lose its last value. -/
structure Inconsistency where
  kind : Inconsistency.Kind
  var : VarId
  deriving DecidableEq, Repr

/-- The wording of an inconsistency. -/
def Inconsistency.message (i : Inconsistency) : String :=
  match i.kind with
  | .emptied => "the domain of " ++ toString i.var ++ " became empty"
  | .crossed => "the bounds of " ++ toString i.var ++ " crossed"

/-- What an operation does to a domain. -/
inductive Effect
  | unchanged
  | narrowed (domain : IntervalSet)
  | fails (kind : Inconsistency.Kind)
  deriving DecidableEq

namespace Operation

/-- The constant of the comparison. -/
def constant : Operation → Int
  | atLeast k | atMost k | differs k | equals k => k

/-- The event that the operation asks for. -/
def event : Operation → Event
  | atLeast _ => .lowerBound
  | atMost _ => .upperBound
  | differs _ => .removal
  | equals _ => .assign

/-- The value satisfies the comparison. -/
def Holds (v : Int) : Operation → Prop
  | atLeast k => k ≤ v
  | atMost k => v ≤ k
  | differs k => v ≠ k
  | equals k => v = k

instance (v : Int) (op : Operation) : Decidable (op.Holds v) := by
  cases op <;> simp only [Holds] <;> infer_instance

/-- The comparison as a sign and a constant. -/
protected def toString : Operation → String
  | atLeast k => ">= " ++ toString k
  | atMost k => "<= " ++ toString k
  | differs k => "!= " ++ toString k
  | equals k => "== " ++ toString k

instance : ToString Operation := ⟨Operation.toString⟩

/-- What the operation does to a domain.  A domain that would become empty is
not touched: the bounds cross if the constant lies outside them, and otherwise
the domain would be emptied. -/
def effect (d : IntervalSet) : Operation → Effect
  | atLeast k =>
    if k ≤ d.lower then .unchanged
    else if d.upper < k then .fails .crossed
    else .narrowed (d.atLeast k)
  | atMost k =>
    if d.upper ≤ k then .unchanged
    else if k < d.lower then .fails .crossed
    else .narrowed (d.atMost k)
  | differs k =>
    if k ∉ d then .unchanged
    else if d.isFixed then .fails .emptied
    else .narrowed (d.erase k)
  | equals k =>
    if k < d.lower ∨ d.upper < k then .fails .crossed
    else if k ∉ d then .fails .emptied
    else if d.isFixed then .unchanged
    else .narrowed {k}

/-- If the domain stays as it is, all its values hold. -/
theorem holds_of_unchanged {d : IntervalSet} {op : Operation} (h : op.effect d = .unchanged)
    {v : Int} (hv : v ∈ d) : op.Holds v := by
  have hlo := IntervalSet.lower_le hv
  have hhi := IntervalSet.le_upper hv
  cases op with
  | atLeast k => grind [effect, Holds]
  | atMost k => grind [effect, Holds]
  | differs k => grind [effect, Holds]
  | equals k =>
    have hfix : d.isFixed = true → ∀ w, w ∈ d → w = d.lower :=
      (IntervalSet.isFixed_iff ⟨v, hv⟩).1
    grind [effect, Holds]

/-- If the domain is narrowed, the values that hold are left. -/
theorem mem_of_narrowed {d left : IntervalSet} {op : Operation}
    (h : op.effect d = .narrowed left) (v : Int) : v ∈ left ↔ v ∈ d ∧ op.Holds v := by
  cases op with
  | atLeast k =>
    have : left = d.atLeast k := by grind [effect]
    rw [this, IntervalSet.mem_atLeast, Holds]
  | atMost k =>
    have : left = d.atMost k := by grind [effect]
    rw [this, IntervalSet.mem_atMost, Holds]
  | differs k =>
    have : left = d.erase k := by grind [effect]
    rw [this, IntervalSet.mem_erase, Holds]
  | equals k =>
    have hk : k ∈ d ∧ left = {k} := by grind [effect]
    rw [hk.2, IntervalSet.mem_singleton, Holds]
    exact ⟨fun e => ⟨e ▸ hk.1, e⟩, And.right⟩

/-- If the operation fails, no value of the domain holds. -/
theorem not_holds_of_fails {d : IntervalSet} {op : Operation} {kind : Inconsistency.Kind}
    (h : op.effect d = .fails kind) {v : Int} (hv : v ∈ d) : ¬ op.Holds v := by
  have hlo := IntervalSet.lower_le hv
  have hhi := IntervalSet.le_upper hv
  cases op with
  | atLeast k => grind [effect, Holds]
  | atMost k => grind [effect, Holds]
  | differs k =>
    have hfix : d.isFixed = true → ∀ w, w ∈ d → w = d.lower :=
      (IntervalSet.isFixed_iff ⟨v, hv⟩).1
    grind [effect, Holds]
  | equals k => grind [effect, Holds]

end Operation

end FiniteDomain
