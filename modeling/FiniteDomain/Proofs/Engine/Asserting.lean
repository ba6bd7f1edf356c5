import Mathlib.Tactic
import FiniteDomain.Proofs.Engine.Confluence
import FiniteDomain.Proofs.Engine.Termination
import FiniteDomain.Proofs.Propagator.Forcing

/-!
Learned clauses are not false at a fixpoint.

Take domains that an earlier fixpoint had.  A propagator that could have narrowed them already
would have done so, so the explanation of a failure has a literal that is possible on them, and
so has every clause that is resolved from it.

* `Clause.Possible`: some literal of a clause is possible on some domains;
* `Resolution.Fixpoint`: domains that no propagator can narrow, with
  `Resolution.Fixpoint.reason`: on them, a reason has a possible literal, or its pivot keeps
  everything;
* `Resolution.possible_merge`, `Resolution.possible_standing`, `Resolution.possible_resolve`:
  the clause stays possible from round to round;
* `Engine.possible_resolveConflict`: the clause in the end is.
-/

namespace FiniteDomain

/-- Some literal of the clause is possible on the domains. -/
def Clause.Possible (B : VarId → IntervalSet) (c : Clause) : Prop :=
  ∃ v k, c.Allows v k ∧ k ∈ B v

namespace Resolution

variable {e : Engine} {c c' : Clause} {root : VarId} {p bound n : Nat} {u : Update}
  {q : Propagator} {x : Explanation} {r : Request} {B : VarId → IntervalSet}

/-- Domains as they could be before the first checkpoint or later, which no propagator can
narrow. -/
structure Fixpoint (e : Engine) (B : VarId → IntervalSet) : Prop where
  box : e.store.Box B
  below : ∀ v, e.store.has v = true → ∀ k, k ∈ B v →
    k ∈ e.store.domainAt v (e.store.trail.extent 0)
  independent : ∀ q ∈ e.propagators, ¬ q.IsObserver → q.Independent e.store
  closed : ∀ q ∈ e.propagators, Grounds.Closed q.Justified B

/-- On such domains, some literal of a reason is possible away from the pivot, or the pivot
allows everything. -/
lemma Fixpoint.reason (h : Fixpoint e B) (inv : e.Invariant) (hr : e.store.request? p = some r)
    (hx : e.explanationOf p r = some x) :
    (∃ v k, v ≠ e.store.root r.var ∧ (reason e.store x).Allows v k ∧ k ∈ B v) ∨
      ∀ k, k ∈ B (e.store.root r.var) → (reason e.store x).Allows (e.store.root r.var) k := by
  have w : e.store.WellFormed := inv.consistent.store
  obtain ⟨i, hi⟩ : ∃ i, r.cause = some i := by
    cases hcause : r.cause with
    | none =>
      rw [Engine.explanationOf, hcause] at hx
      cases hx
    | some i => exact ⟨i, rfl⟩
  obtain ⟨hsite, hgrounded⟩ := inv.site hr hi
  obtain ⟨q, hq, hJ⟩ := hgrounded i hi
  obtain ⟨q', hq', hobs, hx', hexplains⟩ := inv.explains hr hi
  obtain rfl : q = q' := Option.some.inj ((Engine.propagator?_eq.trans hq).symm.trans hq')
  obtain rfl : x = q.explain e.store p r := Option.some.inj (hx.symm.trans hx')
  have hmem := List.mem_of_getElem? hq
  have hfits := inv.consistent.fits q hmem
  have hindep := h.independent q hmem hobs
  have hbinds := Propagator.binds_explain w hfits hindep hsite hJ
    (fun v hv => h.box.initial v (hfits.has hobs v hv)) (h.closed q hmem)
  by_cases hfalse : ∀ l ∈ (q.explain e.store p r).literals, ∀ k, k ∈ B l.var → k ∉ l.allowed
  · right
    intro k hk
    obtain ⟨l, hl, hvar, -⟩ := hexplains.pivot
    have hhas : e.store.has l.var = true := hvar ▸ hsite.has
    have hroot := w.has_root hsite.has
    refine allows_reason.2 ⟨l, Explanation.mem_clause.2 (.inr hl), congrArg e.store.root hvar, ?_⟩
    rw [← hvar] at hk hroot
    refine w.mem_onRoot_of_mem hhas (h.box.initial _ hroot k hk) ?_
    exact hbinds.kept hfalse l hl _ ((h.box.view _ hhas _).2 ⟨k, hk, rfl⟩)
  · left
    push Not at hfalse
    obtain ⟨l, hl, k, hk, hallowed⟩ := hfalse
    obtain ⟨hscope, hne⟩ := hbinds.scope l hl
    have hhas := hfits.has hobs l.var hscope
    obtain ⟨y, hy, rfl⟩ := (h.box.view _ hhas k).1 hk
    refine ⟨e.store.root l.var, y, hindep.root_ne hscope hJ.mem_scope hne, ?_, hy⟩
    refine allows_reason.2 ⟨l, Explanation.mem_clause.2 (.inl hl), rfl, ?_⟩
    exact w.mem_onRoot_of_mem hhas (h.box.initial _ (w.has_root hhas) y hy) hallowed

/-- The explanation of the failure has a possible literal. -/
lemma possible_merge (h : Fixpoint e B) (inv : e.Invariant)
    (hr : e.store.request? e.store.length = some r)
    (hx : e.explanationOf e.store.length r = some x) (hv : e.store.has r.var = true) :
    (merge e.store x []).Possible B := by
  have hallows : ∀ {v k}, (reason e.store x).Allows v k → (merge e.store x []).Allows v k := by
    intro v k hk
    rw [merge, Clause.allows_addAll, Clause.allows_nonempty]
    exact .inl hk
  rcases h.reason inv hr hx with ⟨v, k, -, hk, hin⟩ | hall
  · exact ⟨v, k, hallows hk, hin⟩
  · have w : e.store.WellFormed := inv.consistent.store
    obtain ⟨k, hk⟩ := h.box.nonempty _ (w.has_root hv)
    exact ⟨_, k, hallows (hall k hk), hk⟩

/-- A possible literal was made false after the first checkpoint. -/
lemma possible_standing (h : Fixpoint e B) (w : e.store.WellFormed)
    (hpending : Pending e.store c bound) (hc : c.Possible B) :
    (standing e.store c).Possible B := by
  obtain ⟨v, k, ⟨l, hl, rfl, hk⟩, hin⟩ := hc
  have hroot := hpending.onRoots.isRoot hl
  have hlost := hpending.lost l.var k ⟨l, hl, rfl, hk⟩
  exact ⟨l.var, k, ⟨l, mem_standing w hroot hl hk (h.below _ hroot.has k hin) hlost, rfl, hk⟩, hin⟩

/-- If the literal that is resolved is the possible one, it stays possible or the reason has
another one. -/
lemma possible_resolve (h : Fixpoint e B) (inv : e.Invariant) (hround : Round e c root p u q x)
    (hc : c.Possible B) : (resolve e.store x root c).Possible B := by
  have hroot := hround.root_request inv.consistent.store
  have hlt : p < e.store.length := (Array.getElem?_eq_some_iff.1 hround.entry).1
  have hr : e.store.request? p = some u.request := by
    rw [Store.request?, if_neg (Nat.ne_of_lt hlt), hround.entry]
    rfl
  have hreason := h.reason inv hr hround.explained
  rw [hroot] at hreason
  rcases hreason with ⟨v, k, hne, hk, hin⟩ | hall
  · refine ⟨v, k, allows_resolve.2 ?_, hin⟩
    rw [if_neg hne]
    exact .inl hk
  · obtain ⟨v, k, hk, hin⟩ := hc
    refine ⟨v, k, allows_resolve.2 ?_, hin⟩
    by_cases hv : v = root
    · rw [if_pos hv]
      rw [hv] at hk hin ⊢
      exact ⟨hk, hall k hin⟩
    · rw [if_neg hv]
      exact .inr hk

variable (hbelow : ∀ v, e.store.has v = true → ∀ k, k ∈ e.store.initial v → k < Value.greatest)

include hbelow

lemma possible_loop (h : Fixpoint e B) (inv : e.Invariant) (hpending : Pending e.store c bound)
    (hc : c.Possible B) (hloop : loop e n c = .ok (some c')) : c'.Possible B := by
  have w : e.store.WellFormed := inv.consistent.store
  have hend := loop_keeps (P := fun c => (∃ bound, Pending e.store c bound) ∧ c.Possible B) inv
    (fun c _ ⟨⟨bound, hpending⟩, hc⟩ =>
      ⟨⟨bound, hpending.filter _⟩, possible_standing h w hpending hc⟩)
    (fun c root p u q x _ hround ⟨⟨_, hpending⟩, hc⟩ =>
      ⟨⟨p, pending_resolve inv hbelow hpending hround⟩, possible_resolve h inv hround hc⟩)
    hpending.onRoots ⟨⟨bound, hpending⟩, hc⟩ hloop
  exact hend.2.2

end Resolution

namespace Engine

variable {e e' : Engine} {c : Clause} {B : VarId → IntervalSet}

/-- The clause that a failure leads to has a literal that is possible on the domains of a
fixpoint. -/
lemma possible_resolveConflict (h : Resolution.Fixpoint e B) (inv : e.Invariant)
    (hbelow : ∀ v, e.store.has v = true → ∀ k, k ∈ e.store.initial v → k < Value.greatest)
    (hrun : resolveConflict e = .ok (some c) e') : c.Possible B := by
  obtain ⟨r, x, c', hr, hx, hloop, rfl, -⟩ := resolveConflict_eq_ok hrun
  have w : e.store.WellFormed := inv.consistent.store
  have hreq : e.store.request? e.store.length = some r := by rw [Store.request?, if_pos rfl, hr]
  obtain ⟨q, -, hexplains⟩ := inv.explains_failure hr hx
  have hpending := Resolution.pending_merge w hbelow hexplains
  have hmerge := Resolution.possible_merge h inv hreq hx (inv.consistent.failure r hr).1
  obtain ⟨v, k, hk, hin⟩ := Resolution.possible_loop hbelow h inv hpending hmerge hloop
  have hroots := Resolution.onRoots_loop inv hpending.onRoots hloop
  have hhas : e.store.has v = true := by
    obtain ⟨l, hl, rfl, -⟩ := hk
    exact (hroots.isRoot hl).has
  exact ⟨v, k, Resolution.allows_finish.2 ⟨hk, h.box.initial v hhas k hin⟩, hin⟩

end Engine

end FiniteDomain
