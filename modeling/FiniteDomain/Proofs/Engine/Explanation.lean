import Mathlib.Tactic
import FiniteDomain.Engine.Analysis
import FiniteDomain.Proofs.Engine.Invariant

/-!
Explanations of the requests on the trail.

* `Engine.Invariant.explains`: the request of a propagator has an explanation, which is
  valid for the constraint of that propagator.
-/

namespace FiniteDomain

namespace Engine

variable {e : Engine} {p : Nat} {r : Request} {i : PropId}

/-- The request of a propagator had its grounds, and is a site. -/
lemma Invariant.site (inv : e.Invariant) (hr : e.store.request? p = some r)
    (hi : r.cause = some i) :
    e.store.Site p r ∧ r.Grounded e.propagators fun v => e.store.domainAt v p := by
  have hc := inv.consistent
  rw [Store.request?] at hr
  split at hr
  · rename_i hp
    subst hp
    obtain ⟨hv, hgrounded, hno⟩ := hc.failure r hr
    refine ⟨hc.store.site_length hv (hno (by rw [hi]; rfl)), ?_⟩
    rwa [hc.store.domain_eq] at hgrounded
  · obtain ⟨u, hu, rfl⟩ := Option.map_eq_some_iff.1 hr
    exact ⟨hc.store.site hu, hc.entry p u hu⟩

/-- The request of a propagator has a valid explanation. -/
lemma Invariant.explains (inv : e.Invariant) (hr : e.store.request? p = some r)
    (hi : r.cause = some i) :
    ∃ q, e.propagator? i = some q ∧ ¬ q.IsObserver ∧
      e.explanationOf p r = some (q.explain e.store p r) ∧
      e.store.Explains q.constraint p r (q.explain e.store p r) := by
  obtain ⟨hsite, hgrounded⟩ := inv.site hr hi
  obtain ⟨q, hq, hJ⟩ := hgrounded i hi
  have hq' : e.propagator? i = some q := propagator?_eq.trans hq
  refine ⟨q, hq', hJ.not_isObserver, ?_, ?_⟩
  · rw [explanationOf, hi]
    exact congrArg (Option.map _) hq'
  · exact Propagator.explains_explain inv.consistent.store
      (inv.consistent.fits q (List.mem_of_getElem? hq)) hsite hJ

end Engine

end FiniteDomain
