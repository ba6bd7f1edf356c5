import Mathlib.Tactic
import FiniteDomain.Proofs.Engine.Choices
import FiniteDomain.Proofs.Store.Kept

/-!
Fixpoints do not depend on the way to them.

The domains of an engine at rest are closed under all constraints and obey all choices.  Such
domains are kept by every run that is about the same constraints and the same choices: no
request takes a value of theirs away, whatever else was done and undone in between.  So two
runs about the same end with the same domains, or both fail.

* `Engine.Chosen.box_le`: a run that is about such domains keeps them, and
  `Engine.Chosen.not_failed`: and does not fail;
* `Engine.Regular`: constraints on different roots, and no domain with the greatest value;
* `Engine.SameProblem`: two engines that are about the same, with
  `Engine.SameProblem.agree`: they come to rest at the same domains.
-/

namespace FiniteDomain

namespace Propagator

variable {q q' : Propagator}

/-- Propagators that stand for the same constraint differ at most in what they remember. -/
lemma eq_or_count_of_constraint_eq (h : q.constraint = q'.constraint) :
    q = q' ∨ ∃ c sets sets', q = count c sets ∧ q' = count c sets' := by
  cases q with
  | count c sets =>
    cases q' <;> cases h
    exact .inr ⟨c, sets, _, rfl, rfl⟩
  | maximum c =>
    cases q' <;> cases h
    exact .inl rfl
  | member c =>
    cases q' <;> cases h
    exact .inl rfl
  | disjunction c =>
    obtain ⟨clause⟩ := c
    cases q' with
    | disjunction c' =>
      obtain ⟨clause'⟩ := c'
      cases h
      exact .inl rfl
    | _ => cases h
  | observer o =>
    cases q' <;> cases h
    exact .inl rfl

lemma justified_congr (h : q.constraint = q'.constraint) : q.Justified = q'.Justified := by
  obtain rfl | ⟨c, sets, sets', rfl, rfl⟩ := eq_or_count_of_constraint_eq h
  · rfl
  · rfl

lemma scope_congr (h : q.constraint = q'.constraint) : q.scope = q'.scope := by
  obtain rfl | ⟨c, sets, sets', rfl, rfl⟩ := eq_or_count_of_constraint_eq h
  · rfl
  · rfl

lemma isObserver_congr (h : q.constraint = q'.constraint) (hq' : q'.IsObserver) :
    q.IsObserver := by
  obtain rfl | ⟨c, sets, sets', rfl, rfl⟩ := eq_or_count_of_constraint_eq h
  · exact hq'
  · obtain ⟨o, ho⟩ := hq'
    cases ho

end Propagator

namespace Engine

variable {e e' e₁ e₁' : Engine} {ks ks' : List Choice} {B : VarId → IntervalSet}

section Box

variable (inv : e.Invariant) (h : e.Chosen ks) (hB : e.store.Box B)
  (hclosed : ∀ q ∈ e.propagators, Grounds.Closed q.Justified B)
  (hks : ∀ k ∈ ks, ∀ x, x ∈ B k.var → k.decision.Holds x)

include inv hclosed in
/-- A request of a propagator takes nothing from domains that are closed. -/
lemma holds_of_grounded {r : Request} {dom : VarId → IntervalSet}
    (hgrounded : r.Grounded e.propagators dom) (hcause : r.cause.isSome = true)
    (hle : ∀ v, e.store.has v = true → ∀ x, x ∈ B v → x ∈ dom v) :
    ∀ x, x ∈ B r.var → r.operation.Holds x := by
  obtain ⟨i, hi⟩ := Option.isSome_iff_exists.1 hcause
  obtain ⟨q, hq, hJ⟩ := hgrounded i hi
  have hmem := List.mem_of_getElem? hq
  have hhas := (inv.consistent.fits q hmem).has hJ.not_isObserver
  exact hclosed q hmem _ _ (hJ.mono fun v hv => hle v (hhas v hv))

include inv h hclosed hks in
/-- An update that found more than such domains asks for nothing that takes values from them. -/
lemma Chosen.holds_of_entry {p : Nat} {u : Update} (hu : e.store.trail.entries[p]? = some u)
    (hle : ∀ v, e.store.has v = true → ∀ x, x ∈ B v → x ∈ e.store.domainAt v p) :
    ∀ x, x ∈ B u.request.var → u.request.operation.Holds x := by
  intro x hx
  cases hcause : u.request.cause with
  | none =>
    obtain ⟨k, hk, ⟨hvar, hmakes⟩, -⟩ := h.entry p u hu hcause
    rw [hvar] at hx
    exact hmakes x (hle _ (h.has k hk) x hx) (hks k hk x hx)
  | some i =>
    exact holds_of_grounded inv hclosed (inv.consistent.entry p u hu) (by rw [hcause]; rfl) hle
      x hx

include inv h hB hclosed hks

/-- No update takes values away from domains that are closed and obey the choices. -/
lemma Chosen.box_le (p : Nat) : ∀ v, e.store.has v = true → ∀ x, x ∈ B v →
    x ∈ e.store.domainAt v p := by
  have w : e.store.WellFormed := inv.consistent.store
  induction p with
  | zero =>
    intro v hv x hx
    rw [← Store.initial_eq_domainAt]
    exact hB.initial v hv x hx
  | succ p ih =>
    intro v hv x hx
    obtain ⟨y, hy, rfl⟩ := (hB.view v hv x).1 hx
    have hroot := w.isRoot_root v hv
    have hbefore : y ∈ (e.store.history v).domainAt p := by
      rw [← w.history_root hv, ← hroot.domainAt_eq]
      exact ih _ hroot.has y hy
    refine w.value_mem_domainAt hv ?_
    cases hu : e.store.trail.entries[p]? with
    | none =>
      -- past the last update, the domain stays as it is
      have hp : e.store.length ≤ p := Array.getElem?_eq_none_iff.1 hu
      have hnow := ih _ hroot.has y hy
      rw [← w.domain_eq_domainAt hroot.has hp,
        w.domain_eq_domainAt hroot.has (hp.trans (Nat.le_succ p)),
        hroot.domainAt_eq, w.history_root hv] at hnow
      exact hnow
    | some u =>
      by_cases hne : u.root = e.store.root v
      · -- the request may be about another view of the same root, so it is read on the root
        have hnarrows := w.update p u hu
        have hr := hnarrows.has
        have hroots : e.store.root u.request.var = e.store.root v := hnarrows.root.symm.trans hne
        have hhistory : e.store.history u.request.var = e.store.history v := by
          rw [← w.history_root hr, hroots, w.history_root hv]
        have hvalue : (e.store.chain u.request.var).value y ∈ B u.request.var :=
          (hB.view _ hr _).2 ⟨y, hroots ▸ hy, rfl⟩
        rw [← hhistory] at hbefore ⊢
        exact (hnarrows.kept y).2 ⟨hbefore, h.holds_of_entry inv hclosed hks hu ih _ hvalue⟩
      · rw [w.domainAt_succ_of_root_ne hv hu hne]
        exact hbefore

/-- The domains now are not smaller than domains that are closed and obey the choices. -/
lemma Chosen.box_le_domain {v : VarId} (hv : e.store.has v = true) {x : Int} (hx : x ∈ B v) :
    x ∈ e.store.domain v := by
  have w : e.store.WellFormed := inv.consistent.store
  rw [w.domain_eq_domainAt hv (Nat.le_refl _)]
  exact h.box_le inv hB hclosed hks _ v hv x hx

/-- The engine has not failed, since the failure would have taken values away. -/
lemma Chosen.not_failed (hobs : ∀ q ∈ e.propagators, ¬ q.IsObserver) : e.conflict = none := by
  have hle := fun v hv x hx => h.box_le_domain inv hB hclosed hks (v := v) hv (x := x) hx
  by_contra hsome
  obtain ⟨r, hr⟩ := Option.isSome_iff_exists.1
    (inv.failed (Option.isSome_iff_ne_none.2 hsome) hobs)
  obtain ⟨hv, hgrounded, hno⟩ := inv.consistent.failure r hr
  cases hcause : r.cause with
  | none =>
    obtain ⟨k, hk, hno⟩ := h.failure r hr hcause
    obtain ⟨x, hx⟩ := hB.nonempty k.var (h.has k hk)
    exact hno x (hle _ (h.has k hk) x hx) (hks k hk x hx)
  | some i =>
    have hsome : r.cause.isSome = true := by rw [hcause]; rfl
    obtain ⟨x, hx⟩ := hB.nonempty r.var hv
    exact hno hsome x (hle _ hv x hx)
      (holds_of_grounded inv hclosed hgrounded hsome (fun v hv => hle v hv) x hx)

end Box

/-- All constraints are on different roots, and no variable can take the greatest of all
values. -/
structure Regular (e : Engine) : Prop where
  below : ∀ v, e.store.has v = true → Value.greatest ∉ e.store.initial v
  independent : ∀ q ∈ e.propagators, ¬ q.IsObserver ∧ q.Independent e.store

/-- The engines have the same variables and stand for the same constraints, and the same
decisions were made. -/
structure SameProblem (ks ks' : List Choice) (e e' : Engine) : Prop where
  store : e.store.SameVariables e'.store
  constraints : ∀ c, c ∈ e.propagators.map Propagator.constraint ↔
    c ∈ e'.propagators.map Propagator.constraint
  choices : ∀ a, a ∈ ks.map Choice.asked ↔ a ∈ ks'.map Choice.asked

lemma SameProblem.symm (h : SameProblem ks ks' e e') : SameProblem ks' ks e' e :=
  ⟨h.store.symm, fun c => (h.constraints c).symm, fun a => (h.choices a).symm⟩

/-- What the one engine has to enforce, the other one has. -/
lemma SameProblem.exists_propagator (h : SameProblem ks ks' e e') {q : Propagator}
    (hq : q ∈ e'.propagators) : ∃ q' ∈ e.propagators, q'.constraint = q.constraint := by
  have hmem := (h.constraints q.constraint).2 (List.mem_map_of_mem hq)
  obtain ⟨q', hq', heq⟩ := List.mem_map.1 hmem
  exact ⟨q', hq', heq⟩

lemma SameProblem.exists_choice (h : SameProblem ks ks' e e') {k : Choice} (hk : k ∈ ks') :
    ∃ k' ∈ ks, k'.var = k.var ∧ k'.decision = k.decision := by
  have hmem := (h.choices k.asked).2 (List.mem_map_of_mem hk)
  obtain ⟨k', hk', heq⟩ := List.mem_map.1 hmem
  exact ⟨k', hk', congrArg Prod.fst heq, congrArg Prod.snd heq⟩

/-- Propagation does not change what the engines are about. -/
lemma SameProblem.drives (h : SameProblem ks ks' e e') (hd : Drives e e₁) (hd' : Drives e' e₁')
    (hq : e₁.propagators = e.propagators) (hq' : e₁'.propagators = e'.propagators) :
    SameProblem ks ks' e₁ e₁' := by
  refine ⟨hd.store.sameVariables.symm.trans (h.store.trans hd'.store.sameVariables), ?_,
    h.choices⟩
  rw [hq, hq']
  exact h.constraints

lemma Regular.drives (h : e.Regular) (hd : Drives e e') (hq : e'.propagators = e.propagators) :
    e'.Regular := by
  have hsame := hd.store.sameVariables
  refine ⟨fun v hv => ?_, fun q hq' => ?_⟩
  · have hv := (hsame.has v).symm.trans hv
    rw [hsame.initial v hv]
    exact h.below v hv
  · obtain ⟨hobs, hindep⟩ := h.independent q (hq ▸ hq')
    exact ⟨hobs, hindep.congr fun v _ => hd.store.shrinks.root v⟩

lemma Regular.sameProblem (h : e.Regular) (hsame : SameProblem ks ks' e e')
    (inv : e.Invariant) : e'.Regular := by
  refine ⟨fun v hv => ?_, fun q hq => ?_⟩
  · have hv := (hsame.store.has v).symm.trans hv
    rw [hsame.store.initial v hv]
    exact h.below v hv
  · obtain ⟨q', hq', heq⟩ := hsame.exists_propagator hq
    obtain ⟨hobs, hindep⟩ := h.independent q' hq'
    have hhas := (inv.consistent.fits q' hq').has hobs
    refine ⟨fun hq => hobs (Propagator.isObserver_congr heq hq), ?_⟩
    have hscope := Propagator.scope_congr heq
    have hindep' : q'.Independent e'.store :=
      hindep.congr fun v hv => hsame.store.root v (hhas v hv)
    rw [Propagator.Independent, ← hscope]
    exact hindep'

/-- At rest, no variable can take the greatest of all values. -/
lemma Regular.lt_greatest (h : e.Regular) (inv : e.Invariant) (v : VarId)
    (hv : e.store.has v = true) : ∀ x, x ∈ e.store.domain v → x < Value.greatest := by
  have w : e.store.WellFormed := inv.consistent.store
  intro x hx
  rw [w.domain_eq_domainAt hv (Nat.le_refl _)] at hx
  exact w.lt_greatest hv (h.below v hv) hx

/-- The domains of an engine at rest are closed under what another one has to enforce, and
obey what was decided there. -/
lemma AtRest.keeps (h : e.AtRest) (hr : e.Regular) (hk : e.Chosen ks)
    (hsame : SameProblem ks ks' e e') :
    e'.store.Box e.store.domain ∧
      (∀ q ∈ e'.propagators, Grounds.Closed q.Justified e.store.domain) ∧
      ∀ k ∈ ks', ∀ x, x ∈ e.store.domain k.var → k.decision.Holds x := by
  have hbelow := hr.lt_greatest h.invariant
  have w : e.store.WellFormed := h.invariant.consistent.store
  refine ⟨w.box hsame.store, fun q hq => ?_, fun k hk' x hx => ?_⟩
  · obtain ⟨q', hq', heq⟩ := hsame.exists_propagator hq
    obtain ⟨i, hi⟩ := List.mem_iff_getElem?.1 hq'
    rw [← Propagator.justified_congr heq]
    exact h.closed (p := ⟨i⟩) hi (hr.independent q' hq').2 hbelow
  · obtain ⟨k', hk'', hvar, hdecision⟩ := hsame.exists_choice hk'
    rw [← hvar] at hx
    rw [← hdecision]
    refine (hk.kept h.idle k' hk'' x hx).resolve_right ?_
    rintro rfl
    exact absurd (hbelow _ (hk.has k' hk'') _ hx) (lt_irrefl _)

/-- If one of two engines that are about the same has come to rest, the other one has not
failed, and its domains are not smaller. -/
lemma AtRest.le (h : e.AtRest) (hr : e.Regular) (hk : e.Chosen ks)
    (hsame : SameProblem ks ks' e e') (inv' : e'.Invariant) (hk' : e'.Chosen ks') :
    e'.conflict = none ∧ ∀ v, e'.store.has v = true → ∀ x, x ∈ e.store.domain v →
      x ∈ e'.store.domain v := by
  obtain ⟨hB, hclosed, hobey⟩ := h.keeps hr hk hsame
  have hr' := hr.sameProblem hsame h.invariant
  exact ⟨hk'.not_failed inv' hB hclosed hobey fun q hq => (hr'.independent q hq).1,
    fun v hv x hx => hk'.box_le_domain inv' hB hclosed hobey hv hx⟩

/-- Propagation comes to an end, and keeps what is known of the engine. -/
lemma exists_propagate (inv : e.Invariant) (hs : e.Scheduled) (hk : e.Chosen ks) :
    ∃ r e₁, propagate e = .ok r e₁ ∧ e.Settles r e₁ ∧ e₁.Invariant ∧ e₁.Chosen ks := by
  obtain ⟨r, e₁, hrun, hsettles⟩ := (scheduled_propagate inv hs).exists_ok
  exact ⟨r, e₁, hrun, hsettles, (Ends.of_ok hrun (keeps_propagate inv)).1,
    Move.chosen (.propagate (.inl ⟨r, hrun⟩)) inv hs hk⟩

/-- Propagation of two engines that are about the same fails in both, or ends with the same
domains. -/
lemma SameProblem.agree (hsame : SameProblem ks ks' e e') (hr : e.Regular) (inv : e.Invariant)
    (inv' : e'.Invariant) (hs : e.Scheduled) (hs' : e'.Scheduled) (hk : e.Chosen ks)
    (hk' : e'.Chosen ks') :
    ∃ r e₁ r' e₁', propagate e = .ok r e₁ ∧ propagate e' = .ok r' e₁' ∧
      ((∃ i i', r = .error i ∧ r' = .error i') ∨
        r = .ok () ∧ r' = .ok () ∧
          ∀ v, e.store.has v = true → e₁.store.domain v = e₁'.store.domain v) := by
  obtain ⟨r, e₁, hrun, hsettles, inv₁, hk₁⟩ := exists_propagate inv hs hk
  obtain ⟨r', e₁', hrun', hsettles', inv₁', hk₁'⟩ := exists_propagate inv' hs' hk'
  have hsame₁ := hsame.drives hsettles.drives hsettles'.drives hsettles.propagators
    hsettles'.propagators
  have hr₁ := hr.drives hsettles.drives hsettles.propagators
  have hr₁' := hr₁.sameProblem hsame₁ inv₁
  have hrest : r = .ok () → e₁.AtRest := fun h =>
    hsettles.scheduled.atRest inv₁ (hsettles.quiet h).2.1 (hsettles.quiet h).2.2
  have hrest' : r' = .ok () → e₁'.AtRest := fun h =>
    hsettles'.scheduled.atRest inv₁' (hsettles'.quiet h).2.1 (hsettles'.quiet h).2.2
  refine ⟨r, e₁, r', e₁', hrun, hrun', ?_⟩
  cases r with
  | error i =>
    cases r' with
    | error i' => exact .inl ⟨i, i', rfl, rfl⟩
    | ok a =>
      have hnone := ((hrest' rfl).le hr₁' hk₁' hsame₁.symm inv₁ hk₁).1
      rw [hsettles.failed i rfl] at hnone
      cases hnone
  | ok a =>
    obtain ⟨hnone, hle⟩ := (hrest rfl).le hr₁ hk₁ hsame₁ inv₁' hk₁'
    cases r' with
    | error i' =>
      rw [hsettles'.failed i' rfl] at hnone
      cases hnone
    | ok a' =>
      obtain ⟨-, hle'⟩ := (hrest' rfl).le hr₁' hk₁' hsame₁.symm inv₁ hk₁
      refine .inr ⟨rfl, rfl, fun v hv => ?_⟩
      have hv₁ : e₁.store.has v = true := (hsettles.drives.store.shrinks.has v).trans hv
      have hv₁' : e₁'.store.has v = true := (hsame₁.store.has v).trans hv₁
      exact IntervalSet.ext fun x => ⟨hle v hv₁' x, hle' v hv₁ x⟩

end Engine

end FiniteDomain
