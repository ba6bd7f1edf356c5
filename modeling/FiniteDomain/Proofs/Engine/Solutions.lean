import Mathlib.Tactic
import FiniteDomain.Proofs.Engine.Learning

/-!
Solutions of the constraints.

An assignment that satisfies the constraints of all propagators, and the updates that
nobody but the caller asked for, is within all domains.

* `Constraint.Known`: the constraint is about variables that exist, so that new variables
  do not change what it says;
* `Engine.Invariant.within`: solutions lie in the domains at every position;
* `Engine.Invariant.refused_by_caller`: a solution shows that no propagator failed.
-/

namespace FiniteDomain

variable {values values' : VarId → Int}

/-! ### Variables of constraints -/

/-- A constraint is about the variables of its scope. -/
lemma Propagator.holds_congr {q : Propagator} (h : ∀ v ∈ q.scope, values v = values' v) :
    q.constraint.Holds values ↔ q.constraint.Holds values' := by
  cases q with
  | count c sets =>
    have hvars : (c.vars.filter fun v => decide (values v = c.value))
        = c.vars.filter fun v => decide (values' v = c.value) :=
      List.filter_congr fun v hv => by rw [h v (List.mem_append_left _ hv)]
    change _ = values c.card ↔ _ = values' c.card
    rw [hvars, h c.card (List.mem_append_right _ (List.mem_singleton_self _))]
  | maximum c =>
    have hrhs := h c.rhs (List.mem_append_right _ (List.mem_singleton_self _))
    have harray : ∀ v ∈ c.array, values v = values' v :=
      fun v hv => h v (List.mem_append_left _ hv)
    change (∀ v ∈ c.array, values v ≤ values c.rhs) ∧ (∃ v ∈ c.array, values v = values c.rhs) ↔
      (∀ v ∈ c.array, values' v ≤ values' c.rhs) ∧ ∃ v ∈ c.array, values' v = values' c.rhs
    rw [hrhs]
    refine and_congr (forall₂_congr fun v hv => ?_)
      (exists_congr fun v => and_congr_right fun hv => ?_)
    · rw [harray v hv]
    · rw [harray v hv]
  | member c =>
    change values c.var ∈ c.allowed ↔ values' c.var ∈ c.allowed
    rw [h c.var (List.mem_singleton_self _)]
  | disjunction c => exact Clause.holds_congr fun l hl => h l.var (List.mem_map_of_mem hl)
  | observer o => exact Iff.rfl

instance (values : VarId → Int) (c : Clause) : Decidable (c.Holds values) :=
  inferInstanceAs (Decidable (∃ l ∈ c, values l.var ∈ l.allowed))

instance (values : VarId → Int) (c : Constraint) : Decidable (c.Holds values) :=
  match c with
  | .count c =>
    inferInstanceAs (Decidable
      (((c.vars.filter fun v => decide (values v = c.value)).length : Int) = values c.card))
  | .maximum c =>
    inferInstanceAs (Decidable ((∀ v ∈ c.array, values v ≤ values c.rhs) ∧
      ∃ v ∈ c.array, values v = values c.rhs))
  | .member c => inferInstanceAs (Decidable (values c.var ∈ c.allowed))
  | .disjunction ls => inferInstanceAs (Decidable (Clause.Holds values ls))
  | .observer _ => .isTrue trivial

namespace Constraint

variable {s t : Store} {c c' : Constraint}

/-- Whatever becomes of the store, the constraint says the same of an assignment. -/
def Known (s : Store) (c : Constraint) : Prop :=
  ∀ t, s.Continues t → ∀ ρ, c.Holds (t.value ρ) ↔ c.Holds (s.value ρ)

lemma Known.continues (h : c.Known s) (hst : s.Continues t) : c.Known t :=
  fun u htu ρ => (h u (hst.trans htu) ρ).trans (h t hst ρ).symm

lemma Known.congr (h : c.Known s) (hc : ∀ values, c'.Holds values ↔ c.Holds values) :
    c'.Known s :=
  fun t hst ρ => (hc _).trans ((h t hst ρ).trans (hc _).symm)

lemma known_of_fits {q : Propagator} {m : Memory} (h : q.Fits s m) : q.constraint.Known s := by
  intro t hst ρ
  by_cases hq : q.IsObserver
  · obtain ⟨o, rfl⟩ := hq
    exact Iff.rfl
  · exact Propagator.holds_congr fun v hv => hst.value (h.has hq v hv)

lemma known_disjunction {c : Clause} (h : ∀ l ∈ c, s.has l.var = true) :
    (Constraint.disjunction c).Known s :=
  fun _ hst _ => Clause.holds_congr fun l hl => hst.value (h l hl)

end Constraint

namespace Engine

variable {e : Engine} {ρ : VarId → Int} {p : Nat}

/-- The request of a propagator holds for a solution that is within the domains. -/
lemma Invariant.holds_of_grounded (inv : e.Invariant) {r : Request} {i : PropId}
    (hgrounded : r.Grounded e.propagators fun v => e.store.domainAt v p) (hi : r.cause = some i)
    (hholds : ∀ q ∈ e.propagators, q.constraint.Holds (e.store.value ρ))
    (hρ : e.store.Within p ρ) : r.operation.Holds (e.store.value ρ r.var) := by
  obtain ⟨q, hq, hJ⟩ := hgrounded i hi
  have hmem := List.mem_of_getElem? hq
  refine hJ.holds (fun v hv => ?_) (hholds q hmem)
  exact inv.consistent.store.value_mem hρ ((inv.consistent.fits q hmem).has hJ.not_isObserver v hv)

/-- A solution that satisfies the updates without a cause is within the domains behind
them. -/
lemma Invariant.within (inv : e.Invariant) (hρ : e.store.Initial ρ)
    (hholds : ∀ q ∈ e.propagators, q.constraint.Holds (e.store.value ρ))
    (hp : p ≤ e.store.length)
    (hfree : ∀ i u, i < p → e.store.trail.entries[i]? = some u → u.request.cause = none →
      u.operation.Holds (ρ u.root)) : e.store.Within p ρ := by
  refine inv.consistent.store.within_of_holds hρ hp fun i u hi hu hwithin => ?_
  cases hcause : u.request.cause with
  | none => exact (inv.consistent.store.holds_operation_iff hu hwithin).1 (hfree i u hi hu hcause)
  | some j =>
    exact inv.holds_of_grounded (inv.consistent.entry i u hu) hcause hholds hwithin

/-- If there is a solution within the domains, then only the caller can have asked for too
much. -/
lemma Invariant.refused_by_caller (inv : e.Invariant)
    (hholds : ∀ q ∈ e.propagators, q.constraint.Holds (e.store.value ρ))
    (hρ : e.store.Within e.store.length ρ) {r : Request} (hr : e.store.failure = some r) :
    r.cause = none := by
  have w := inv.consistent.store
  obtain ⟨hv, hgrounded, hno⟩ := inv.consistent.failure r hr
  rw [w.domain_eq] at hgrounded
  cases hcause : r.cause with
  | none => rfl
  | some i =>
    have hholds := inv.holds_of_grounded hgrounded hcause hholds hρ
    refine absurd hholds (hno (by rw [hcause]; rfl) _ ?_)
    rw [w.domain_eq]
    exact w.value_mem hρ hv

end Engine

end FiniteDomain
