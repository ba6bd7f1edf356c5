import Mathlib.Tactic
import FiniteDomain.Engine.Propagation
import FiniteDomain.Proofs.Store.Effects

/-!
What decisions say.

A decision asks a variable for some of its values.  It is carried out by requests that all
these values satisfy, and leaves them and no others, or is refused when there are none.

* `Decision.Holds`: the values that a decision asks for;
* `Decision.Grounds`: the requests that it may make;
* `Decision.Leaves`: what is left when it was granted;
* `Decision.ends_change`: the change of the store that a decision makes.
-/

namespace FiniteDomain

namespace Decision

variable {s t : Store} {v : VarId} {d : Decision}

/-- The decision asks for the value. -/
def Holds (x : Int) : Decision → Prop
  | apply op => op.Holds x
  | bounds lo hi => lo ≤ x ∧ x ≤ hi
  | restrict allowed => x ∈ allowed

/-- A request for the variable that all values satisfy which the decision asks for. -/
def Grounds (d : Decision) (v : VarId) : FiniteDomain.Grounds := fun dom u op =>
  u = v ∧ ∀ x, x ∈ dom v → d.Holds x → op.Holds x

/-- The values are left that the decision asks for.  A restriction to none of the values does
not take the greatest of all values away. -/
def Leaves (d : Decision) (v : VarId) (s t : Store) : Prop :=
  (∀ x, x ∈ t.domain v ↔ x ∈ s.domain v ∧ d.Holds x) ∨
    (∀ x, x ∈ s.domain v → ¬ d.Holds x) ∧ ∀ x, x ∈ t.domain v → x = Value.greatest

/-- A decision is granted and leaves the values that it asks for, or there are none. -/
lemma ends_change (w : s.WellFormed) (hv : s.has v = true) (d : Decision) :
    Ends (d.change v) s
      (fun _ t => Store.Narrowing (d.Grounds v) none s t ∧ d.Leaves v s t)
      fun _ t => Store.Refused (d.Grounds v) none s t ∧ ∀ x, x ∈ s.domain v → ¬ d.Holds x := by
  cases d with
  | apply op =>
    have h : Store.Yields ((apply op).Grounds v) none s (Store.apply none v op) _ :=
      Store.yields_apply w hv fun _ => ⟨rfl, fun _ _ => id⟩
    exact (Ends.and h (Store.ends_apply w hv)).mono (fun _ _ h => ⟨h.1.1, .inl h.2.2⟩)
      fun _ _ h => h
  | bounds lo hi =>
    have h : Store.Yields ((bounds lo hi).Grounds v) none s (Store.updateBounds none v lo hi) _ :=
      Store.yields_updateBounds w hv nofun (fun _ _ _ => ⟨rfl, fun _ _ => And.left⟩)
        (fun _ _ _ => ⟨rfl, fun _ _ => And.right⟩) fun _ => ⟨rfl, fun _ _ => And.left⟩
    exact (Ends.and h (Store.ends_updateBounds w hv lo hi)).mono
      (fun _ _ h => ⟨h.1.1, .inl h.2.2⟩) fun _ _ h => h
  | restrict allowed =>
    have h : Store.Yields ((restrict allowed).Grounds v) none s
        (Store.restrictTo none v allowed) _ :=
      Store.yields_restrictTo w hv fun t op _ hop => ⟨rfl, hop⟩
    exact (Ends.and h (Store.ends_restrictTo w hv allowed)).mono
      (fun _ _ h => ⟨h.1.1, h.2.2⟩) fun _ _ h => h

end Decision

end FiniteDomain
