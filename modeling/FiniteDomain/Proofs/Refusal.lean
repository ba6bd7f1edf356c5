import Mathlib.Tactic
import FiniteDomain.Proofs.Decision
import FiniteDomain.Proofs.Restriction

/-!
What a refused change of the store leaves.

A single comparison that no value satisfies is refused before anything is changed.  A change made
of several comparisons stops at the first that is refused, and those before it have been carried
out.  A restriction knows the values that are left before it asks for any comparison, so that none
is refused behind one that was granted.  Bounds are not compared with the domain first: when they
lie in a gap of it, the lower one is granted, and the upper one is refused then.

* `Store.Declined`: nothing was changed but the failure;
* `IntervalSet.Straddles`: the bounds lie in a gap of the domain;
* `Store.ends_apply_declined`, `Store.ends_updateBounds_declined`,
  `Store.ends_restrictTo_declined`: the refusal of each change;
* `Decision.ends_change_declined`: the refusals of decisions.
-/

namespace FiniteDomain

/-- No value of the domain lies between the bounds, but some lie below them and some above. -/
structure IntervalSet.Straddles (d : IntervalSet) (lo hi : Int) : Prop where
  ordered : lo ≤ hi
  below : ∃ x, x ∈ d ∧ x < lo
  above : ∃ x, x ∈ d ∧ hi < x
  gap : ∀ x, x ∈ d → ¬ (lo ≤ x ∧ x ≤ hi)

namespace Store

variable {cause : Option PropId} {s t u : Store} {v : VarId} {op : Operation} {i : Inconsistency}

/-- A request for the variable was refused, which is kept as the failure; that is all that the
refusal left. -/
def Declined (cause : Option PropId) (v : VarId) (s : Store) (i : Inconsistency) (t : Store) :
    Prop :=
  i.var = v ∧ ∃ op, t = { s with failure := some ⟨v, op, cause⟩ }

lemma ends_apply_declined :
    Ends (apply cause v op) s (fun _ _ => True) (Declined cause v s) := by
  simp only [Ends, apply, request]
  cases (s.chain v).effect (s.history v).current op with
  | unchanged => trivial
  | narrowed rop d => trivial
  | fails kind => exact ⟨rfl, op, rfl⟩

variable (w : s.WellFormed) (hv : s.has v = true)

include w hv

/-- When the upper bound is refused behind the lower one, and that one had values to remove, then
the bounds lie in a gap. -/
lemma ends_atMost_declined {lo hi : Int} (hle : lo ≤ hi) {b : Bool}
    (hrun : apply cause v (.atLeast lo) s = .ok b u) :
    Ends (apply cause v (.atMost hi)) u (fun _ _ => True) fun i t =>
      Declined cause v u i t ∧
        (u = s ∧ ¬ (s.domain v).Straddles lo hi ∨ b = true ∧ (s.domain v).Straddles lo hi) := by
  have hfirst := intersects_of_ok w hv hrun
  have htouched := (Ends.of_ok hrun (ends_apply w hv)).1
  have hsh := htouched.narrowing.shrinks w
  have hv' : u.has v = true := (hsh.has v).trans hv
  refine (Ends.and ends_apply_declined (ends_apply hsh.wellFormed hv')).mono
    (fun _ _ _ => trivial) fun i t ⟨hdeclined, hnone⟩ => ⟨hdeclined, ?_⟩
  cases b with
  | false =>
    obtain rfl := htouched.unchanged rfl
    refine .inl ⟨rfl, fun hgap => ?_⟩
    obtain ⟨x, hx, hlt⟩ := hgap.below
    exact absurd (hfirst.changed.2 ⟨x, hx, Int.not_le.2 hlt⟩) Bool.false_ne_true
  | true =>
    obtain ⟨x, hx, hno⟩ := hfirst.changed.1 rfl
    obtain ⟨y, hy⟩ := hsh.wellFormed.domain_nonempty hv'
    exact .inr ⟨rfl, hle, ⟨x, hx, Int.not_le.1 hno⟩,
      ⟨y, ((hfirst.domain y).1 hy).1, Int.not_le.1 (hnone y hy)⟩,
      fun z hz hbetween => hnone z ((hfirst.domain z).2 ⟨hz, hbetween.1⟩) hbetween.2⟩

/-- When bounds are refused, nothing was changed, or the lower one was carried out alone. -/
lemma ends_updateBounds_declined (lo hi : Int) :
    Ends (updateBounds cause v lo hi) s (fun _ _ => True) fun i t =>
      ¬ (s.domain v).Straddles lo hi ∧ Declined cause v s i t ∨
        (s.domain v).Straddles lo hi ∧
          ∃ u, apply cause v (.atLeast lo) s = .ok true u ∧ Declined cause v u i t := by
  rw [updateBounds]
  split
  case isTrue hcrossed =>
    exact .inl ⟨fun h => absurd h.ordered (Int.not_le.2 hcrossed), rfl, _, rfl⟩
  rename_i hordered
  rw [applyAll, applyAll, applyAll]
  refine Ends.bind (Q := fun b u => apply cause v (.atLeast lo) s = .ok b u) ?_ fun b u hrun => ?_
  · refine (Ends.and (ends_self _ s) (Ends.and ends_apply_declined (ends_apply w hv))).mono
      (fun _ _ h => h.1) ?_
    rintro i t ⟨-, hdeclined, hnone⟩
    refine .inl ⟨fun hgap => ?_, hdeclined⟩
    obtain ⟨x, hx, hlt⟩ := hgap.above
    exact hnone x hx (hgap.ordered.trans hlt.le)
  · refine Ends.bind (Q := fun _ _ => True) (Ends.bind
      ((ends_atMost_declined w hv (Int.not_lt.1 hordered) hrun).mono (fun _ _ => id) ?_)
      fun _ _ _ => ?_) fun _ _ _ => ends_pure trivial
    · rintro i t ⟨hdeclined, ⟨rfl, hno⟩ | ⟨rfl, hgap⟩⟩
      · exact .inl ⟨hno, hdeclined⟩
      · exact .inr ⟨hgap, u, hrun, hdeclined⟩
    · exact Ends.bind (Q := fun _ _ => True) (ends_pure trivial) fun _ _ _ => ends_pure trivial

/-- When a restriction is refused, nothing was changed. -/
lemma ends_restrictTo_declined (allowed : IntervalSet) :
    Ends (restrictTo cause v allowed) s (fun _ _ => True) (Declined cause v s) := by
  by_cases hmeets : ∃ x, x ∈ s.domain v ∧ x ∈ allowed
  · have hgranted : ∃ b t, restrictTo cause v allowed s = .ok b t ∧ Intersected v allowed s t b :=
      restrictTo_of_meets w hv hmeets
    obtain ⟨b, t, hrun, -⟩ := hgranted
    rw [Ends, hrun]
    trivial
  · rw [Ends, restrictTo_eq_apply fun x hx hmem => hmeets ⟨x, hx, hmem⟩]
    exact ends_apply_declined

end Store

namespace Decision

variable {s : Store} {v : VarId}

/-- The decision asks for bounds in a gap of the domain. -/
def Straddles (d : IntervalSet) : Decision → Prop
  | bounds lo hi => d.Straddles lo hi
  | apply _ | restrict _ => False

/-- When a decision is refused, nothing was changed, unless it asks for bounds in a gap of the
domain; then the lower one was carried out. -/
lemma ends_change_declined (w : s.WellFormed) (hv : s.has v = true) (d : Decision) :
    Ends (d.change v) s (fun _ _ => True) fun i t =>
      ¬ d.Straddles (s.domain v) ∧ Store.Declined none v s i t ∨
        d.Straddles (s.domain v) ∧ ∃ lo hi u, d = .bounds lo hi ∧
          Store.apply none v (.atLeast lo) s = .ok true u ∧ Store.Declined none v u i t := by
  cases d with
  | apply op => exact Store.ends_apply_declined.mono (fun _ _ => id) fun _ _ h => .inl ⟨id, h⟩
  | bounds lo hi =>
    refine (Store.ends_updateBounds_declined w hv lo hi).mono (fun _ _ => id) ?_
    rintro i t (hdeclined | ⟨hgap, u, hrun, hdeclined⟩)
    · exact .inl hdeclined
    · exact .inr ⟨hgap, lo, hi, u, rfl, hrun, hdeclined⟩
  | restrict allowed =>
    exact (Store.ends_restrictTo_declined w hv allowed).mono (fun _ _ => id)
      fun _ _ h => .inl ⟨id, h⟩

end Decision

end FiniteDomain
