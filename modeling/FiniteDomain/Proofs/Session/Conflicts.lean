import Mathlib.Tactic
import FiniteDomain.Proofs.Engine.Termination
import FiniteDomain.Proofs.Session.Invariant

/-!
Explanations and learned clauses in the sessions that runs lead to.

* `Session.explanation_valid`: the explanation of every request of a propagator is valid;
* `Session.learned_clause_holds`: the clause that a conflict leads to holds for all
  solutions;
* `Session.analysis_ends_on_decisions`: the analysis of a conflict ends, and its clause is
  on decisions.
-/

namespace FiniteDomain

namespace Session

variable {s : Session}

/-- In every session that a run leads to, a request on the trail, or the refused one behind
it, that was made for a propagator has an explanation, and that is valid for the constraint
of the propagator. -/
theorem explanation_valid (h : s.Reachable) {p : Nat} {r : Request} {i : PropId}
    (hr : s.engine.store.request? p = some r) (hi : r.cause = some i) :
    ∃ q x, s.engine.propagator? i = some q ∧ s.engine.explain p = .ok (some x) ∧
      s.engine.store.Explains q.constraint p r x := by
  obtain ⟨q, hq, -, hx, hexplains⟩ := h.invariant.explains hr hi
  refine ⟨q, _, hq, ?_, hexplains⟩
  rw [Engine.explain, hr]
  exact congrArg Except.ok hx

/-- A member constraint narrows its variable, and explains the first step. -/
theorem explanation_valid_member :
    ∃ q x, ((new .allDecision).run [.newVariable 0 3 none,
        .add (.member ⟨⟨0⟩, .ofRange 1 2⟩), .propagate]).engine.propagator? ⟨0⟩ = some q ∧
      ((new .allDecision).run [.newVariable 0 3 none,
        .add (.member ⟨⟨0⟩, .ofRange 1 2⟩), .propagate]).engine.explain 0 = .ok (some x) ∧
      ((new .allDecision).run [.newVariable 0 3 none,
        .add (.member ⟨⟨0⟩, .ofRange 1 2⟩), .propagate]).engine.store.Explains q.constraint 0
          ⟨⟨0⟩, .atLeast 1, some ⟨0⟩⟩ x :=
  explanation_valid ⟨.allDecision, _, by decide +kernel, rfl⟩ (by decide +kernel) rfl

/-- A run into a conflict: of two variables the second has to be one and has to be zero if
the first is zero, which is decided. -/
def blocked : Session := (new .allDecision).run
  [.newVariable 0 1 none, .newVariable 0 1 none,
    .add (.disjunction [⟨⟨0⟩, .single 1⟩, ⟨⟨1⟩, .single 1⟩]),
    .add (.disjunction [⟨⟨0⟩, .single 1⟩, ⟨⟨1⟩, .single 0⟩]), .propagate, .checkpoint,
    .decide ⟨0⟩ (.apply (.atMost 0)), .propagate]

lemma reachable_blocked : blocked.Reachable := ⟨.allDecision, _, by decide +kernel, rfl⟩

/-- In every session that a run leads to, the clause that the analysis of the conflict
returns holds for every assignment that lies in the domains before the first checkpoint, or
in the current ones if there is no checkpoint, and satisfies the constraints of all
propagators.  So no such assignment exists if the clause is empty. -/
theorem learned_clause_holds (h : s.Reachable) {c : Clause} {e : Engine}
    (hrun : Engine.analyse s.engine = .ok (some c) e) :
    (∀ ρ, s.engine.store.Within (s.engine.store.trail.extent 0) ρ →
      (∀ q ∈ s.engine.propagators, q.constraint.Holds (s.engine.store.value ρ)) →
      c.Holds (s.engine.store.value ρ)) ∧
    (c = [] → ¬ ∃ ρ, s.engine.store.Within (s.engine.store.trail.extent 0) ρ ∧
      ∀ q ∈ s.engine.propagators, q.constraint.Holds (s.engine.store.value ρ)) := by
  have hresolve : Engine.resolveConflict s.engine = .ok (some c) e := by
    rw [← Engine.analyse_of_isFailed (Engine.isFailed_of_analyse hrun)]
    exact hrun
  have hholds := fun ρ => Engine.holds_of_resolveConflict (ρ := ρ) h.invariant hresolve
  refine ⟨hholds, ?_⟩
  rintro rfl ⟨ρ, hρ, hc⟩
  exact Clause.not_holds_nil (hholds ρ hρ hc)

/-- The clause learned from the blocked run says that the first variable is one. -/
theorem learned_clause_holds_blocked : ∃ e,
    Engine.analyse blocked.engine = .ok (some [⟨⟨0⟩, .single 1⟩]) e ∧
      ∀ ρ, blocked.engine.store.Within (blocked.engine.store.trail.extent 0) ρ →
        (∀ q ∈ blocked.engine.propagators, q.constraint.Holds (blocked.engine.store.value ρ)) →
        Clause.Holds (blocked.engine.store.value ρ) [⟨⟨0⟩, .single 1⟩] := by
  have hresult : result? Engine.analyse blocked.engine = some (some [⟨⟨0⟩, .single 1⟩]) := by
    decide +kernel
  obtain ⟨e, he⟩ := exists_of_result? hresult
  exact ⟨e, he, (learned_clause_holds reachable_blocked he).1⟩

/-- In every session that a run leads to, when no initial domain has the greatest value and
a propagator made the failure: the positions that are resolved get smaller from round to
round, so that the rounds end with the same clause, however many more there could be; and every
literal of the clause that is returned is on a root, each on a different one, allows initial
values that are lost by now, and became false with a decision after the first checkpoint. -/
theorem analysis_ends_on_decisions (h : s.Reachable)
    (hbelow : ∀ v, s.engine.store.has v = true → Value.greatest ∉ s.engine.store.initial v)
    {r : Request} (hr : s.engine.store.failure = some r) (hcause : r.cause.isSome = true) :
    ∃ x c, s.engine.explain s.engine.store.length = .ok (some x) ∧
      (∀ n, ((Resolution.positions s.engine n (Resolution.merge s.engine.store x [])).Pairwise
          fun p q => q < p) ∧
        ∀ p ∈ Resolution.positions s.engine n (Resolution.merge s.engine.store x []),
          p < s.engine.store.length) ∧
      (∃ d, ∀ n, s.engine.store.length < n →
        Resolution.loop s.engine n (Resolution.merge s.engine.store x []) = .ok (some d)) ∧
      Engine.analyse s.engine = .ok (some c) (s.engine.note (.learned c)) ∧
      c.Distinct ∧ ∀ l ∈ c, Engine.Decided s.engine.store l := by
  have inv := h.invariant
  have w : s.engine.store.WellFormed := inv.consistent.store
  have hlt : ∀ v, s.engine.store.has v = true → ∀ k, k ∈ s.engine.store.initial v →
      k < Value.greatest := by
    intro v hv k hk
    have hne : k ≠ Value.greatest := fun e => hbelow v hv (e ▸ hk)
    rw [Store.initial_eq_domainAt] at hk
    have := (w.domainAt_inRange hv k hk).2
    omega
  obtain ⟨x, c, hx, hpositions, hloop, hrun, hdistinct, hlits⟩ :=
    Engine.resolveConflict_spec inv hlt hr hcause
  have hfailed : s.engine.isFailed = true := by
    rw [Engine.isFailed, ← Option.not_isNone, Bool.not_eq_true']
    refine Bool.eq_false_iff.2 fun hnone => ?_
    have := (inv.ready (Option.isNone_iff_eq_none.1 hnone)).failure
    rw [show s.engine.space.store.failure = some r from hr] at this
    cases this
  refine ⟨x, c, ?_, hpositions, hloop, ?_, hdistinct, hlits⟩
  · rw [Engine.explain_length, hr]
    exact congrArg Except.ok hx
  · rw [Engine.analyse_of_isFailed hfailed]
    exact hrun

/-- The analysis of the blocked run returns a clause on decisions. -/
theorem analysis_ends_on_decisions_blocked : ∃ c,
    Engine.analyse blocked.engine = .ok (some c) (blocked.engine.note (.learned c)) ∧
      c.Distinct ∧ ∀ l ∈ c, Engine.Decided blocked.engine.store l := by
  have hbelow : ∀ v, blocked.engine.store.has v = true →
      Value.greatest ∉ blocked.engine.store.initial v := by decide +kernel
  have hfailure : blocked.engine.store.failure = some ⟨⟨1⟩, .atLeast 2, some ⟨1⟩⟩ := by
    decide +kernel
  obtain ⟨-, c, -, -, -, hrun, hdecided⟩ :=
    analysis_ends_on_decisions reachable_blocked hbelow hfailure rfl
  exact ⟨c, hrun, hdecided⟩

end Session

end FiniteDomain
