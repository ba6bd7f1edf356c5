import Mathlib.Tactic
import FiniteDomain.Proofs.Propagator.Entailment
import FiniteDomain.Proofs.Session.Ending

/-!
What the answers and the activity of a propagator say of its constraint.

Both can be asked for in every session that a run leads to, at a fixpoint or not.  The answers are
read off the domains each time, so they are right wherever the run went back to.  The activity is
kept, and skips the propagator: a propagator that is passive has to be one whose constraint no
choice from the domains violates.

* `Session.entailment_decides`: the answers are right, and given when all variables are fixed;
* `Session.passive_entails`: what a passive propagator stands for holds, unless the maximum is on
  the root of a variable that it is compared with (`Session.passive_masked`).
-/

namespace FiniteDomain

namespace Session

variable {s : Session} {p : PropId} {q : Propagator}

/-- In every session that a run leads to, the answer of a propagator is right about all choices of
values from the domains of its scope, and it is not undetermined when these are fixed. -/
theorem entailment_decides (h : s.Arises) (hq : s.engine.propagator? p = some q)
    (hobs : ¬ q.IsObserver) :
    (q.entailment s.engine.store).Decides s.engine.store q.scope
      fun values => q.constraint.Holds values := by
  rw [Engine.propagator?_eq] at hq
  have hmem := List.mem_of_getElem? hq
  exact Propagator.decides h.intact.store (h.intact.scope q hmem hobs) (h.tidy.proper q hmem) hobs

/-- A maximum, and a count of three views of its first element, after decisions that no propagator
was called for yet. -/
def unsettled : Session := (new .allDecision).run
  [.newSparseVariable [0, 2, 7] none, .newVariable 0 9 none, .newVariable 0 9 none,
    .newView ⟨.equals 7, ⟨0⟩⟩, .newView ⟨.atMost 6, ⟨0⟩⟩, .newView ⟨.negation, ⟨3⟩⟩,
    .add (.maximum ⟨[⟨0⟩, ⟨1⟩], ⟨2⟩⟩), .add (.count ⟨[⟨3⟩, ⟨4⟩, ⟨5⟩], 1, ⟨1⟩⟩),
    .decide ⟨2⟩ (.apply (.equals 7)), .decide ⟨0⟩ (.apply (.atLeast 3)),
    .decide ⟨1⟩ (.bounds 2 7)]

/-- The maximum is certain although one element is still open, and the count cannot be reached. -/
theorem entailment_decides_unsettled :
    (∀ values : VarId → Int, values ⟨0⟩ = 7 → values ⟨1⟩ ∈ IntervalSet.ofRange 2 7 →
        values ⟨2⟩ = 7 → (Constraint.maximum ⟨[⟨0⟩, ⟨1⟩], ⟨2⟩⟩).Holds values) ∧
      ∀ values, (∀ v ∈ [⟨3⟩, ⟨4⟩, ⟨5⟩, ⟨1⟩], values v ∈ unsettled.engine.store.domain v) →
        ¬ (Constraint.count ⟨[⟨3⟩, ⟨4⟩, ⟨5⟩], 1, ⟨1⟩⟩).Holds values := by
  have harises : unsettled.Arises := ⟨.allDecision, _, by decide, rfl⟩
  let maximum : Propagator := .maximum ⟨[⟨0⟩, ⟨1⟩], ⟨2⟩⟩
  let count : Propagator := .count ⟨[⟨3⟩, ⟨4⟩, ⟨5⟩], 1, ⟨1⟩⟩ ⟨⟨0⟩, ⟨1⟩⟩
  obtain ⟨hdomains, hmaximum, hcount, hentailed, hviolated⟩ :
      (unsettled.engine.store.domain ⟨0⟩ = .single 7 ∧
        unsettled.engine.store.domain ⟨1⟩ = .ofRange 2 7 ∧
        unsettled.engine.store.domain ⟨2⟩ = .single 7) ∧
      unsettled.engine.propagator? ⟨0⟩ = some maximum ∧
      unsettled.engine.propagator? ⟨1⟩ = some count ∧
      maximum.entailment unsettled.engine.store = .holds ∧
      count.entailment unsettled.engine.store = .violated := by
    decide +kernel
  refine ⟨fun values h₀ h₁ h₂ => ?_, ?_⟩
  · have hdecides := entailment_decides harises hmaximum (by decide)
    refine hdecides.holds hentailed values ?_
    simp [maximum, Propagator.scope, Maximum.scope, hdomains, h₀, h₁, h₂]
  · exact (entailment_decides harises hcount (by decide)).violated hviolated

/-- In every session that a run leads to and that is not failed, no initial domain having the
greatest of all values: if a propagator is passive, then all values of the roots from their domains
satisfy its constraint, whatever the views in its scope are on, if the maximum is on another root
than the variables that it is compared with. -/
theorem passive_entails (h : s.Reachable) (hfailed : s.engine.isFailed = false)
    (hbelow : ∀ v, s.engine.store.has v = true → Value.greatest ∉ s.engine.store.initial v)
    (hq : s.engine.propagator? p = some q) (hpassive : s.engine.isPassive p = true)
    (hapart : q.Apart s.engine.store) {ρ : VarId → Int}
    (hρ : ∀ r, s.engine.store.IsRoot r → ρ r ∈ s.engine.store.domain r) :
    q.constraint.Holds (s.engine.store.value ρ) := by
  have hc := h.invariant.consistent
  have w : s.engine.store.WellFormed := hc.store
  rw [Engine.propagator?_eq] at hq
  have hmem := List.mem_of_getElem? hq
  by_cases hobs : q.IsObserver
  · obtain ⟨o, rfl⟩ := hobs
    trivial
  have hhas := (hc.fits q hmem).has hobs
  have hnone : s.engine.conflict = none := by simpa [Engine.isFailed] using hfailed
  obtain ⟨slot, hslot, rfl⟩ := Engine.slot_of_propagator hq
  have hstands := (h.scheduled.alert hnone p.index slot hslot).stands
  have hmet := hstands.met (beq_iff_eq.1 hpassive) hapart
  have hwithin : s.engine.store.Within s.engine.store.length ρ := fun r hr =>
    w.domain_eq_domainAt hr.has (Nat.le_refl _) ▸ hρ r hr
  have hvalue : ∀ v ∈ slot.propagator.scope,
      s.engine.store.value ρ v ∈ s.engine.store.domainAt v s.engine.store.length :=
    fun v hv => w.value_mem hwithin (hhas v hv)
  refine hmet.holds (h.scheduled.orderly.proper _ hmem) (fun v hv => ?_) fun v hv => ?_
  · exact w.domain_eq_domainAt (hhas v hv) (Nat.le_refl _) ▸ hvalue v hv
  · exact w.lt_greatest (hhas v hv) (hbelow v (hhas v hv)) (hvalue v hv)

/-- A maximum of two variables that only the first can reach, and a clause on a variable and a view
of it, after propagation and a decision that no propagator was told of yet. -/
def crowned : Session := (new .allDecision).run
  [.newVariable 0 9 none, .newVariable 0 4 none, .newVariable 5 7 none, .newView ⟨.atMost 2, ⟨1⟩⟩,
    .add (.maximum ⟨[⟨0⟩, ⟨1⟩], ⟨2⟩⟩),
    .add (.disjunction [⟨⟨3⟩, .single 1⟩, ⟨⟨1⟩, .ofRange 1 4⟩]), .propagate, .checkpoint,
    .decide ⟨2⟩ (.apply (.equals 6)), .decide ⟨1⟩ (.apply (.atLeast 1)), .propagate,
    .decide ⟨1⟩ (.apply (.atMost 3))]

/-- The maximum is reached and the clause is satisfied, whatever becomes of the second variable. -/
theorem passive_entails_crowned : crowned.engine.store.isFixed ⟨1⟩ = false ∧
    ∀ x : Int, 1 ≤ x → x ≤ 3 →
      let values := crowned.engine.store.value fun r => if r.index = 1 then x else 6
      (Constraint.maximum ⟨[⟨0⟩, ⟨1⟩], ⟨2⟩⟩).Holds values ∧
        (Constraint.disjunction [⟨⟨3⟩, .single 1⟩, ⟨⟨1⟩, .ofRange 1 4⟩]).Holds values := by
  have hreachable : crowned.Reachable := ⟨.allDecision, _, by decide +kernel, rfl⟩
  let maximum : Propagator := .maximum ⟨[⟨0⟩, ⟨1⟩], ⟨2⟩⟩
  let disjunction : Propagator :=
    .disjunction (.ofLiterals [⟨⟨3⟩, .single 1⟩, ⟨⟨1⟩, .ofRange 1 4⟩])
  obtain ⟨hopen, hfailed, hbelow, hdomain, hmaximum, hdisjunction⟩ :
      crowned.engine.store.isFixed ⟨1⟩ = false ∧ crowned.engine.isFailed = false ∧
      (∀ v, crowned.engine.store.has v = true →
        Value.greatest ∉ crowned.engine.store.initial v) ∧
      (∀ v, crowned.engine.store.has v = true → crowned.engine.store.IsRoot v →
        crowned.engine.store.domain v = if v.index = 1 then .ofRange 1 3 else .single 6) ∧
      (crowned.engine.propagator? ⟨0⟩ = some maximum ∧ crowned.engine.isPassive ⟨0⟩ = true ∧
        maximum.Apart crowned.engine.store) ∧
      crowned.engine.propagator? ⟨1⟩ = some disjunction ∧
        crowned.engine.isPassive ⟨1⟩ = true ∧ disjunction.Apart crowned.engine.store := by
    decide +kernel
  refine ⟨hopen, fun x hlo hhi => ?_⟩
  have hwithin : ∀ r, crowned.engine.store.IsRoot r →
      (if r.index = 1 then x else 6) ∈ crowned.engine.store.domain r := by
    intro r hr
    rw [hdomain r hr.has hr]
    split
    · exact IntervalSet.mem_ofRange.2 ⟨hlo, hhi⟩
    · exact IntervalSet.mem_single.2 rfl
  exact ⟨passive_entails hreachable hfailed hbelow hmaximum.1 hmaximum.2.1 hmaximum.2.2 hwithin,
    passive_entails hreachable hfailed hbelow hdisjunction.1 hdisjunction.2.1 hdisjunction.2.2
      hwithin⟩

/-- The maximum of one variable, which is to be a view of it: 0 exactly for the least value. -/
def masked : Session := (new .allDecision).run
  [.newVariable (-1) 1 none, .newView ⟨.atMost (-1), ⟨0⟩⟩, .newView ⟨.negation, ⟨1⟩⟩,
    .add (.maximum ⟨[⟨0⟩], ⟨2⟩⟩), .propagate]

/-- A maximum that is on the root of the only variable that it is compared with may be passive
although it does not hold: to cap that variable by the bounds of the maximum decides the maximum,
which is tested right after. -/
theorem passive_masked : masked.Reachable ∧ masked.engine.isFailed = false ∧
    (∀ i < 3, Value.greatest ∉ masked.engine.store.initial ⟨i⟩) ∧
    masked.engine.propagator? ⟨0⟩ = some (.maximum ⟨[⟨0⟩], ⟨2⟩⟩) ∧
    masked.engine.isPassive ⟨0⟩ = true ∧
    ∃ ρ : VarId → Int, (∀ r, masked.engine.store.IsRoot r → ρ r ∈ masked.engine.store.domain r) ∧
      ¬ (Constraint.maximum ⟨[⟨0⟩], ⟨2⟩⟩).Holds (masked.engine.store.value ρ) := by
  obtain ⟨hfailed, hinitial, hmaximum, hpassive, hroots⟩ : masked.engine.isFailed = false ∧
      (∀ i < 3, Value.greatest ∉ masked.engine.store.initial ⟨i⟩) ∧
      masked.engine.propagator? ⟨0⟩ = some (.maximum ⟨[⟨0⟩], ⟨2⟩⟩) ∧
      masked.engine.isPassive ⟨0⟩ = true ∧
      ∀ v, masked.engine.store.has v = true → masked.engine.store.IsRoot v →
        0 ∈ masked.engine.store.domain v := by
    decide +kernel
  refine ⟨⟨.allDecision, _, by decide +kernel, rfl⟩, hfailed, hinitial, hmaximum, hpassive,
    fun _ => 0, fun r hr => hroots r hr.has hr, ?_⟩
  rw [Constraint.Holds, Maximum.Holds]
  decide +kernel

end Session

end FiniteDomain
