import Mathlib.Tactic
import FiniteDomain.Proofs.Session.Ledger

/-!
No solution is lost.

* `Ledger.Records`: the ledger of a run that leads to a session;
* `Session.solution_remains`: a solution of what the caller has posted, which satisfies the
  updates that no propagator asked for, lies in all domains, and neither a propagator nor a
  learned clause rules it out.
-/

namespace FiniteDomain

/-- The ledger of some run from a new session to this one. -/
def Ledger.Records (l : Ledger) (s : Session) : Prop :=
  ∃ (strategy : Strategy) (cs : List Command), (Session.new strategy).Admissible cs ∧
    s = (Session.new strategy).run cs ∧ l = ({} : Ledger).run (Session.new strategy) cs

namespace Ledger

variable {l : Ledger} {s : Session} {ρ : VarId → Int}

lemma Records.invariant (h : l.Records s) : s.Invariant := by
  obtain ⟨strategy, cs, hadmissible, rfl, -⟩ := h
  exact (Session.invariant_new strategy).run hadmissible

lemma Records.sound (h : l.Records s) : l.Sound s := by
  obtain ⟨strategy, cs, hadmissible, rfl, rfl⟩ := h
  exact (sound_new strategy).run (Session.invariant_new strategy) hadmissible

end Ledger

namespace Session

variable {s : Session} {l : Ledger} {ρ : VarId → Int}

/-- In every session that a run leads to, an assignment from the initial domains that
satisfies all constraints which the caller has posted, and all updates on the trail that no
propagator asked for, lies in the domains of all variables.  No propagator made the engine
fail, and no conflict showed that the problem has no solution. -/
theorem solution_remains (h : l.Records s) (hinitial : s.engine.store.Initial ρ)
    (hposted : ∀ c ∈ l.posted, c.Holds (s.engine.store.value ρ))
    (htrail : ∀ u ∈ s.engine.store.trail.entries, u.request.cause = none →
      u.operation.Holds (ρ u.root)) :
    (∀ v, s.engine.store.has v = true → s.engine.store.value ρ v ∈ s.engine.store.domain v) ∧
      (∀ r, s.engine.store.failure = some r → r.cause = none) ∧
      (s.engine.isFailed = true → (∀ q ∈ s.engine.propagators, ¬ q.IsObserver) →
        s.engine.store.failure.isSome = true) ∧
      l.condemned = false := by
  have inv : s.engine.Invariant := h.invariant.engine
  have w : s.engine.store.WellFormed := inv.consistent.store
  have hfree : ∀ (p : Nat) (u : Update), s.engine.store.trail.entries[p]? = some u →
      u.request.cause = none → u.operation.Holds (ρ u.root) :=
    fun _ u hu => htrail u (Array.mem_of_getElem? hu)
  have hsatisfied : l.Satisfied s ρ := ⟨hinitial, hposted, fun p u hu _ => hfree p u hu⟩
  obtain ⟨hcondemned, hholds⟩ := h.sound.solves ρ hsatisfied
  have hwithin : s.engine.store.Within s.engine.store.length ρ :=
    inv.within hinitial hholds (Nat.le_refl _) fun p u _ => hfree p u
  refine ⟨fun v hv => ?_, fun r => inv.refused_by_caller hholds hwithin, inv.failed, hcondemned⟩
  rw [w.domain_eq_domainAt hv (Nat.le_refl _)]
  exact w.value_mem hwithin hv

/-- A run that learns a clause from a conflict and posts it: the solution is still there. -/
theorem solution_remains_learned :
    let cs : List Command := [.newVariable 0 1 none, .newVariable 0 1 none,
      .add (.disjunction [⟨⟨0⟩, .single 1⟩, ⟨⟨1⟩, .single 1⟩]),
      .add (.disjunction [⟨⟨0⟩, .single 1⟩, ⟨⟨1⟩, .single 0⟩]), .propagate, .checkpoint,
      .decide ⟨0⟩ (.apply (.atMost 0)), .propagate, .handleConflict (.level 0), .propagate,
      .checkpoint, .decide ⟨1⟩ (.apply (.atMost 0))]
    let s := (new .allDecision).run cs
    s.engine.slots.size = 3 ∧ ∀ v, s.engine.store.has v = true →
      s.engine.store.value (fun v => if v.index = 0 then 1 else 0) v ∈ s.engine.store.domain v := by
  intro cs s
  refine ⟨by decide +kernel, ?_⟩
  exact (solution_remains (l := ({} : Ledger).run (new .allDecision) cs)
    (ρ := fun v => if v.index = 0 then 1 else 0) ⟨.allDecision, cs, by decide +kernel, rfl, rfl⟩
    (by decide +kernel) (by decide +kernel) (by decide +kernel)).1

end Session

end FiniteDomain
