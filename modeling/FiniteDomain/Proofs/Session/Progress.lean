import Mathlib.Tactic
import FiniteDomain.Proofs.Engine.Progress
import FiniteDomain.Proofs.Session.Conflicts
import FiniteDomain.Proofs.Session.Confluence

/-!
Searching below a checkpoint.

A caller takes a checkpoint and then decides on one root only, until a propagator fails.  When
the conflict is handled by going back to the checkpoint, the search does not come to the same
point again.

* `Session.Pursues`: what the caller does since the checkpoint, with `Session.Pursues.since`:
  what the engine then knows;
* `Session.learning_progresses`: a clause is learned that keeps the search away from the last
  decision.
-/

namespace FiniteDomain

namespace Session

variable {s s₀ : Session} {c : Command} {r : VarId} {o : Option Store} {base last : Store}
  {level : Nat}

/-- A checkpoint was taken in the session `s₀` and not left since, no constraint was added, and
all decisions were on the root `r`.  The store is the one right after the last decision, if there
was one. -/
inductive Pursues (s₀ : Session) (r : VarId) : Option Store → Session → Prop
  | checkpoint (haccepts : s₀.accepts .checkpoint = true) :
    Pursues s₀ r none (s₀.after .checkpoint)
  | decide {o : Option Store} {s : Session} {v : VarId} {d : Decision} (h : Pursues s₀ r o s)
    (haccepts : s.accepts (.decide v d) = true) (hroot : s.engine.store.root v = r) :
    Pursues s₀ r (some (s.after (.decide v d)).engine.store) (s.after (.decide v d))
  | other {o : Option Store} {s : Session} {c : Command} (h : Pursues s₀ r o s) (hfits : c.Fits s)
    (hdecision : ∀ v d, c = .decide v d → s.accepts c = false)
    (habove : s₀.engine.level < (s.after c).engine.level)
    (hadded : (s.after c).engine.propagators.length = s.engine.propagators.length) :
    Pursues s₀ r o (s.after c)

lemma Pursues.reachable (h₀ : s₀.Reachable) (h : s₀.Pursues r o s) : s.Reachable := by
  induction h with
  | checkpoint => exact h₀.after trivial
  | decide _ _ _ ih => exact ih.after trivial
  | other _ hfits _ _ _ ih => exact ih.after hfits

/-- A command that is no decision, adds no constraint and does not leave the checkpoint. -/
lemma since_after (inv : s.engine.Invariant) (hs : s.engine.Scheduled)
    (h : s.engine.Since base level r last) (hfits : c.Fits s)
    (hdecision : ∀ v d, c = .decide v d → s.accepts c = false)
    (habove : level < (s.after c).engine.level)
    (hadded : (s.after c).engine.propagators.length = s.engine.propagators.length) :
    (s.after c).engine.Since base level r last := by
  have hback : ∀ {t : Target} {e' : Engine}, t.resolve s.engine < s.engine.level →
      level < e'.level → e'.propagators.length = s.engine.propagators.length →
      (Engine.Accounts s.engine e' ∨ ∃ e₁, Engine.Accounts s.engine e₁ ∧
        Engine.Moves (e₁.goBack (t.resolve s.engine)) e') → e'.Since base level r last := by
    rintro t e' hl habove hadded (haccounts | ⟨e₁, haccounts, hmoves⟩)
    · exact haccounts.moves.since inv hs hadded h
    · have hmove := Engine.Move.account haccounts
      have inv₁ := hmove.invariant inv
      have hs₁ := hmove.scheduled inv hs
      have hl₁ : t.resolve s.engine < e₁.level := hmove.level inv hs ▸ hl
      have inv₂ := (Engine.invariant_goBack inv₁ hl₁).1
      have hs₂ := hs₁.goBack inv₁ hl₁
      have hpropagators : (e₁.goBack (t.resolve s.engine)).propagators = s.engine.propagators :=
        ((Engine.alike_goBack e₁ _).propagators.trans (Engine.propagators_rewound e₁ _)).trans
          haccounts.propagators
      rw [hmoves.level inv₂ hs₂, Engine.level_goBack hl₁] at habove
      refine hmoves.since inv₂ hs₂ (hpropagators ▸ hadded) ?_
      exact (hmove.since inv hs (congrArg List.length haccounts.propagators) h).goBack inv₁ habove
        hl₁
  have hleads := leads_after inv.consistent.store hfits.isTyped
  cases c with
  | decide v d =>
    rcases decide_cases inv v d with ⟨haccepts, -⟩ | ⟨-, hsame⟩
    · rw [hdecision v d rfl] at haccepts
      cases haccepts
    · rwa [hsame]
  | checkpoint =>
    rcases checkpoint_cases s with ⟨-, hnone, hempty, hmarked⟩ | ⟨-, hsame⟩
    · rw [hmarked]
      exact h.marked inv hs hnone hempty
    · rwa [hsame]
  | restore t => exact hback hfits habove hadded hleads
  | handleConflict t => exact hback hfits habove hadded hleads
  | _ => exact Engine.Moves.since hleads inv hs hadded h

/-- What the engine knows of the checkpoint. -/
lemma Pursues.since (h₀ : s₀.Reachable) (h : s₀.Pursues r o s) (last : Store) :
    s.engine.Since s₀.engine.store s₀.engine.level r (o.getD last) := by
  induction h with
  | checkpoint haccepts =>
    rcases checkpoint_cases s₀ with ⟨-, hnone, hempty, hmarked⟩ | ⟨hrefused, -⟩
    case inr =>
      rw [haccepts] at hrefused
      cases hrefused
    rw [hmarked]
    exact Engine.since_marked h₀.invariant h₀.scheduled hnone hempty
  | @decide o s v d h haccepts hroot ih =>
    have hs := h.reachable h₀
    rcases decide_cases hs.invariant v d with ⟨-, res, hrun⟩ | ⟨hrefused, -⟩
    · obtain ⟨-, hv, hdecides⟩ := Ends.of_ok hrun
        (Engine.ends_decide hs.invariant.consistent.store v d)
      exact hdecides.since hs.invariant hv hroot ih
    · rw [haccepts] at hrefused
      cases hrefused
  | other h hfits hdecision habove hadded ih =>
    have hs := h.reachable h₀
    exact since_after hs.invariant hs.scheduled ih hfits hdecision habove hadded

/-- Since a checkpoint was taken and no constraint was added, all decisions were on one root, and
then a propagator failed, when learning is on, no initial domain has the greatest value, and each
constraint is on different roots.  Handling the conflict by going back to the checkpoint then
returns a clause, and only its literal on that root is not false there.  One propagator is added,
which stands for the clause, and the domains are those at the checkpoint.  The next propagation
fails or leaves the root only values that the literal allows, of which the domain right after the
last decision had none. -/
theorem learning_progresses (h₀ : s₀.Reachable) (h : s₀.Pursues r (some last) s)
    (hbelow : ∀ v, s.engine.store.has v = true → Value.greatest ∉ s.engine.store.initial v)
    (hindep : ∀ q ∈ s.engine.propagators, ¬ q.IsObserver → q.Independent s.engine.store)
    (hstrategy : s.engine.strategy = .allDecision) (hfeasible : s.engine.infeasible = false)
    {req : Request} (hreq : s.engine.store.failure = some req) (hcause : req.cause.isSome = true) :
    ∃ c A e', Engine.handleConflict s₀.engine.level s.engine = .ok (.ok (some c)) e' ∧
      Engine.Overcomes s₀.engine.store last r c A s.engine e' := by
  have hs := h.reachable h₀
  have w : s.engine.store.WellFormed := hs.invariant.consistent.store
  have hsince : s.engine.Since s₀.engine.store s₀.engine.level r last := h.since h₀ last
  refine hsince.progress hs.invariant hs.scheduled (fun v hv k hk => ?_) hindep hstrategy hfeasible
    hreq hcause
  rw [Store.initial_eq_domainAt] at hk
  exact w.lt_greatest hv (hbelow v hv) hk

/-- Two clauses, which both allow the first variable two of its values. -/
def opened : Session := (new .allDecision).run
  [.newVariable 0 3 none, .newVariable 0 1 none, .newView ⟨.atMost 1, ⟨0⟩⟩,
    .add (.disjunction [⟨⟨0⟩, .ofRange 2 3⟩, ⟨⟨1⟩, .single 1⟩]),
    .add (.disjunction [⟨⟨0⟩, .ofRange 2 3⟩, ⟨⟨1⟩, .single 0⟩]), .propagate]

lemma reachable_opened : opened.Reachable := ⟨.allDecision, _, by decide +kernel, rfl⟩

/-- Behind a checkpoint, a decision on the first variable and one on a view of it, which leaves
none of the two values. -/
def narrowed : Session := opened.run
  [.checkpoint, .decide ⟨0⟩ (.apply (.atMost 2)), .propagate, .checkpoint,
    .decide ⟨2⟩ (.apply (.atLeast 1))]

/-- The first variable does not lose the two values again. -/
theorem learning_progresses_narrowed : ∃ c A e',
    Engine.handleConflict 0 (narrowed.after .propagate).engine = .ok (.ok (some c)) e' ∧
      Engine.Overcomes opened.engine.store narrowed.engine.store ⟨0⟩ c A
        (narrowed.after .propagate).engine e' := by
  have hnarrowed : narrowed = ((((opened.after .checkpoint).after
      (.decide ⟨0⟩ (.apply (.atMost 2)))).after .propagate).after .checkpoint).after
      (.decide ⟨2⟩ (.apply (.atLeast 1))) := by
    simp only [narrowed, run, List.foldl_cons, List.foldl_nil]
  have hpursues : opened.Pursues ⟨0⟩ (some narrowed.engine.store) (narrowed.after .propagate) := by
    rw [hnarrowed]
    have hcheckpoint : opened.Pursues ⟨0⟩ none (opened.after .checkpoint) :=
      .checkpoint (by decide +kernel)
    have hfirst := hcheckpoint.decide (v := ⟨0⟩) (d := .apply (.atMost 2)) (by decide +kernel)
      (by decide +kernel)
    have hpropagate := hfirst.other (c := .propagate) trivial (fun _ _ h => Command.noConfusion h)
      (by decide +kernel) (by decide +kernel)
    have hagain := hpropagate.other (c := .checkpoint) trivial (fun _ _ h => Command.noConfusion h)
      (by decide +kernel) (by decide +kernel)
    have hsecond := hagain.decide (v := ⟨2⟩) (d := .apply (.atLeast 1)) (by decide +kernel)
      (by decide +kernel)
    exact hsecond.other (c := .propagate) trivial (fun _ _ h => Command.noConfusion h)
      (by decide +kernel) (by decide +kernel)
  have hbelow : ∀ v, (narrowed.after .propagate).engine.store.has v = true →
      Value.greatest ∉ (narrowed.after .propagate).engine.store.initial v := by decide +kernel
  have hfailure : (narrowed.after .propagate).engine.store.failure =
      some ⟨⟨1⟩, .atLeast 2, some ⟨1⟩⟩ := by decide +kernel
  have hlevel : opened.engine.level = 0 := by decide +kernel
  have hprogress := learning_progresses reachable_opened hpursues hbelow
    (by decide +kernel) (by decide +kernel) (by decide +kernel) hfailure rfl
  rwa [hlevel] at hprogress

end Session

end FiniteDomain
