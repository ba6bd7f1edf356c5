import Mathlib.Tactic
import FiniteDomain.Proofs.Propagator.Entailment
import FiniteDomain.Proofs.Session.Moves

/-!
Propagation in the sessions that runs lead to.

* `Session.propagation_settles`: after propagation, another call of any propagator changes
  nothing;
* `Session.fixed_scope_satisfies`: after propagation, the values of a scope that is fixed
  satisfy the constraint;
* `Session.not_violated_after_propagate`: after propagation, no constraint is reported to be
  violated, unless a run went back to the level it was at (`Session.violated_stranded`).
-/

namespace FiniteDomain

namespace Session

variable {s : Session} {e : Engine} {p : PropId} {q : Propagator}

/-- The engine after propagation, when the result is known. -/
lemma propagate_after {r : Except Inconsistency Unit}
    (h : result? Engine.propagate s.engine = some r) :
    Engine.propagate s.engine = .ok r (s.after .propagate).engine :=
  engine_after rfl h

/-- Propagation that ends without an inconsistency leaves the engine at rest. -/
lemma Reachable.atRest (h : s.Reachable) (hrun : Engine.propagate s.engine = .ok (.ok ()) e) :
    e.AtRest := by
  have hsettles := Ends.of_ok hrun (Engine.scheduled_propagate h.invariant h.scheduled)
  obtain ⟨-, hnone, hempty⟩ := hsettles.quiet rfl
  exact hsettles.scheduled.atRest (Ends.of_ok hrun (Engine.keeps_propagate h.invariant)).1 hnone
    hempty

/-- After propagation has ended without an inconsistency, a call of any propagator, whether it
is passive or not, succeeds and leaves the store as it is, if the variables of its scope are on
different roots and it is not an observer that is told to fail. -/
theorem propagation_settles (h : s.Reachable)
    (hrun : Engine.propagate s.engine = .ok (.ok ()) e) (hq : e.propagator? p = some q)
    (hindep : q.Independent e.store) (hnever : ∀ o, q = .observer o → o.failAt = none) :
    ∃ t, q.propagate p e.space = .ok () t ∧ t.store = e.store := by
  have hrest := h.atRest hrun
  have hc := hrest.invariant.consistent
  rw [Engine.propagator?_eq] at hq
  have hmem := List.mem_of_getElem? hq
  by_cases hobs : q.IsObserver
  · obtain ⟨o, rfl⟩ := hobs
    exact Propagator.quiet_record (hnever o rfl) _
  · exact (hrest.calm p.index q hq).quiet (hrest.called p.index q hq) (fun _ => id) hc.wellFormed
      (hc.fits q hmem) ((hrest.invariant.ready hrest.idle).tracked p.index q hq)
      (hrest.proper q hmem) hindep (Engine.lt_size_of_propagator hc hq) hobs

/-- Two of three variables are counted to be one, after a checkpoint and a decision. -/
def tallied : Session := (new .allDecision).run
  [.newVariable 0 1 none, .newVariable 0 3 none, .newVariable 1 1 none, .newVariable 0 3 none,
    .add (.count ⟨[⟨0⟩, ⟨1⟩, ⟨2⟩], 1, ⟨3⟩⟩), .propagate, .checkpoint,
    .decide ⟨0⟩ (.apply (.atMost 0)), .decide ⟨1⟩ (.apply (.equals 1))]

lemma reachable_tallied : tallied.Reachable := ⟨.allDecision, _, by decide +kernel, rfl⟩

/-- Propagation ends without an inconsistency, with all variables of the count fixed. -/
lemma propagated_tallied :
    (∀ v, tallied.engine.store.has v = true → Value.greatest ∉ tallied.engine.store.initial v) ∧
    result? Engine.propagate tallied.engine = some (.ok ()) ∧
    (tallied.after .propagate).engine.propagator? ⟨0⟩ =
      some (.count ⟨[⟨0⟩, ⟨1⟩, ⟨2⟩], 1, ⟨3⟩⟩ ⟨⟨0⟩, ⟨1⟩⟩) ∧
    (Propagator.count ⟨[⟨0⟩, ⟨1⟩, ⟨2⟩], 1, ⟨3⟩⟩ ⟨⟨0⟩, ⟨1⟩⟩).Independent
      (tallied.after .propagate).engine.store ∧
    ∀ v ∈ (Propagator.count ⟨[⟨0⟩, ⟨1⟩, ⟨2⟩], 1, ⟨3⟩⟩ ⟨⟨0⟩, ⟨1⟩⟩).scope,
      (tallied.after .propagate).engine.store.isFixed v = true := by
  decide +kernel

/-- The count of the ones is not called in vain. -/
theorem propagation_settles_tallied : ∃ t,
    Propagator.propagate ⟨0⟩ (.count ⟨[⟨0⟩, ⟨1⟩, ⟨2⟩], 1, ⟨3⟩⟩ ⟨⟨0⟩, ⟨1⟩⟩)
        (tallied.after .propagate).engine.space = .ok () t ∧
      t.store = (tallied.after .propagate).engine.store :=
  have ⟨_, hrun, hcount, hindep, _⟩ := propagated_tallied
  propagation_settles reachable_tallied (propagate_after hrun) hcount hindep (by rintro o ⟨⟩)

/-- After propagation has ended without an inconsistency, the values of a propagator whose scope
is fixed satisfy its constraint, if no initial domain has the greatest of all values and the
cardinality or the maximum is on another root than the variables that are counted or compared. -/
theorem fixed_scope_satisfies (h : s.Reachable)
    (hbelow : ∀ v, s.engine.store.has v = true → Value.greatest ∉ s.engine.store.initial v)
    (hrun : Engine.propagate s.engine = .ok (.ok ()) e) (hq : e.propagator? p = some q)
    (hapart : q.Apart e.store) (hfixed : ∀ v ∈ q.scope, e.store.isFixed v = true) :
    q.constraint.Holds e.store.lower := by
  have hrest := h.atRest hrun
  have hc := hrest.invariant.consistent
  rw [Engine.propagator?_eq] at hq
  have hmem := List.mem_of_getElem? hq
  by_cases hobs : q.IsObserver
  · obtain ⟨o, rfl⟩ := hobs
    trivial
  have hhas := (hc.fits q hmem).has hobs
  have hdrives := (Ends.of_ok hrun (Engine.scheduled_propagate h.invariant h.scheduled)).drives
  have hvalues : ∀ v ∈ q.scope, ∀ x, x ∈ e.store.domain v ↔ x = e.store.lower v := by
    intro v hv x
    refine ⟨(hc.store.isFixed_iff (hhas v hv)).1 (hfixed v hv) x, ?_⟩
    rintro rfl
    exact hc.store.lower_mem (hhas v hv)
  refine (hrest.calm p.index q hq).holds (hrest.called p.index q hq) (fun _ => id) hc.wellFormed
    (hc.fits q hmem) ((hrest.invariant.ready hrest.idle).tracked p.index q hq)
    (hrest.proper q hmem) hapart hvalues fun v hv => ?_
  have hv' : s.engine.store.has v = true := (hdrives.store.shrinks.has v).symm.trans (hhas v hv)
  have hx := hdrives.store.shrinks.domain v _ ((hvalues v hv _).2 rfl)
  have w : s.engine.store.WellFormed := h.invariant.consistent.store
  rw [w.domain_eq_domainAt hv' (Nat.le_refl _)] at hx
  exact w.lt_greatest hv' (hbelow v hv') hx

/-- The count of the ones is two when the variables are fixed. -/
theorem fixed_scope_satisfies_tallied :
    (Constraint.count ⟨[⟨0⟩, ⟨1⟩, ⟨2⟩], 1, ⟨3⟩⟩).Holds
      (tallied.after .propagate).engine.store.lower := by
  obtain ⟨hbelow, hrun, hcount, hindep, hfixed⟩ := propagated_tallied
  exact fixed_scope_satisfies reachable_tallied hbelow (propagate_after hrun) hcount hindep.apart
    hfixed

/-- A count of views whose cardinality is the root of all of them. -/
def entangled : Session := (new .allDecision).run
  [.newSparseVariable [1, 5] none, .newView ⟨.atMost 1, ⟨0⟩⟩, .newView ⟨.atMost 2, ⟨0⟩⟩,
    .newView ⟨.atMost 3, ⟨0⟩⟩, .add (.count ⟨[⟨1⟩, ⟨2⟩, ⟨3⟩], 1, ⟨0⟩⟩)]

/-- The values of a scope with the cardinality on the root of the variables that are counted
need not satisfy the constraint: propagation ends without an inconsistency, all variables are
fixed, and three are counted where there should be one. -/
theorem not_satisfied_entangled : entangled.Reachable ∧
    (∀ i < 4, Value.greatest ∉ entangled.engine.store.initial ⟨i⟩) ∧
    Engine.propagate entangled.engine = .ok (.ok ()) (entangled.after .propagate).engine ∧
    (entangled.after .propagate).engine.propagator? ⟨0⟩ =
      some (.count ⟨[⟨1⟩, ⟨2⟩, ⟨3⟩], 1, ⟨0⟩⟩ ⟨⟨0⟩, ⟨1⟩⟩) ∧
    (∀ i < 4, (entangled.after .propagate).engine.store.isFixed ⟨i⟩ = true) ∧
    ¬ (Constraint.count ⟨[⟨1⟩, ⟨2⟩, ⟨3⟩], 1, ⟨0⟩⟩).Holds
      (entangled.after .propagate).engine.store.lower := by
  have ⟨hrun, hinitial, hcount, hfixed⟩ :
      result? Engine.propagate entangled.engine = some (.ok ()) ∧
      (∀ i < 4, Value.greatest ∉ entangled.engine.store.initial ⟨i⟩) ∧
      (entangled.after .propagate).engine.propagator? ⟨0⟩ =
        some (.count ⟨[⟨1⟩, ⟨2⟩, ⟨3⟩], 1, ⟨0⟩⟩ ⟨⟨0⟩, ⟨1⟩⟩) ∧
      ∀ i < 4, (entangled.after .propagate).engine.store.isFixed ⟨i⟩ = true := by
    decide +kernel
  refine ⟨⟨.allDecision, _, by decide +kernel, rfl⟩, hinitial, propagate_after hrun, hcount, hfixed,
    ?_⟩
  rw [Constraint.Holds, Count.Holds]
  decide +kernel

/-- After propagation has ended without an inconsistency, no propagator reports that its
constraint is violated, if the variables of its scope are on different roots and no initial
domain has the greatest of all values.  Whatever the run went back to, as long as it was below
the level it was at, no propagator that has something to narrow was forgotten. -/
theorem not_violated_after_propagate (h : s.Reachable)
    (hbelow : ∀ v, s.engine.store.has v = true → Value.greatest ∉ s.engine.store.initial v)
    (hrun : Engine.propagate s.engine = .ok (.ok ()) e) (hq : e.propagator? p = some q)
    (hindep : q.Independent e.store) : q.entailment e.store ≠ .violated := by
  have hrest := h.atRest hrun
  have hc := hrest.invariant.consistent
  rw [Engine.propagator?_eq] at hq
  have hmem := List.mem_of_getElem? hq
  have hdrives := (Ends.of_ok hrun (Engine.scheduled_propagate h.invariant h.scheduled)).drives
  have hlt : ∀ v, e.store.has v = true → ∀ x, x ∈ e.store.domain v → x < Value.greatest := by
    intro v hv x hx
    have hv' : s.engine.store.has v = true := (hdrives.store.shrinks.has v).symm.trans hv
    have hx := hdrives.store.shrinks.domain v x hx
    have w : s.engine.store.WellFormed := h.invariant.consistent.store
    rw [w.domain_eq_domainAt hv' (Nat.le_refl _)] at hx
    exact w.lt_greatest hv' (hbelow v hv') hx
  exact Propagator.not_violated_of_closed hc.store (hc.fits q hmem) (hrest.proper q hmem)
    (hrest.closed hq hindep hlt)

/-- The count of the ones is not violated. -/
theorem not_violated_after_propagate_tallied :
    (Propagator.count ⟨[⟨0⟩, ⟨1⟩, ⟨2⟩], 1, ⟨3⟩⟩ ⟨⟨0⟩, ⟨1⟩⟩).entailment
      (tallied.after .propagate).engine.store ≠ .violated := by
  obtain ⟨hbelow, hrun, hcount, hindep, -⟩ := propagated_tallied
  exact not_violated_after_propagate reachable_tallied hbelow (propagate_after hrun) hcount hindep

/-- A membership that fails before any checkpoint is taken. -/
def failedAtRoot : Session := (new .allDecision).run
  [.newVariable 0 5 none, .add (.member ⟨⟨0⟩, .ofRange 7 9⟩), .propagate]

/-- The session went back to the level it was at, where nothing is taken back. -/
def stranded : Session := failedAtRoot.after (.restore (.level 0))

/-- Going back to the current level gives up a failure and everything that is scheduled, and the
propagator that failed is not scheduled again: propagation ends without an inconsistency although
its constraint is violated. -/
theorem violated_stranded :
    Value.greatest ∉ stranded.engine.store.initial ⟨0⟩ ∧
    result? (Engine.restore 0) failedAtRoot.engine = some () ∧
    Engine.propagate stranded.engine = .ok (.ok ()) (stranded.after .propagate).engine ∧
    (stranded.after .propagate).engine.propagator? ⟨0⟩ = some (.member ⟨⟨0⟩, .ofRange 7 9⟩) ∧
    (Propagator.member ⟨⟨0⟩, .ofRange 7 9⟩).Independent (stranded.after .propagate).engine.store ∧
    (Propagator.member ⟨⟨0⟩, .ofRange 7 9⟩).entailment (stranded.after .propagate).engine.store =
      .violated := by
  have ⟨hrun, hinitial, hrestore, hrest⟩ :
      result? Engine.propagate stranded.engine = some (.ok ()) ∧
      Value.greatest ∉ stranded.engine.store.initial ⟨0⟩ ∧
      result? (Engine.restore 0) failedAtRoot.engine = some () ∧
      (stranded.after .propagate).engine.propagator? ⟨0⟩ = some (.member ⟨⟨0⟩, .ofRange 7 9⟩) ∧
      (Propagator.member ⟨⟨0⟩, .ofRange 7 9⟩).Independent (stranded.after .propagate).engine.store ∧
      (Propagator.member ⟨⟨0⟩, .ofRange 7 9⟩).entailment
        (stranded.after .propagate).engine.store = .violated := by
    decide +kernel
  exact ⟨hinitial, hrestore, propagate_after hrun, hrest⟩

end Session

end FiniteDomain
