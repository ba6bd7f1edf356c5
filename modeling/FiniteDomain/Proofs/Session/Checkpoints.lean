import Mathlib.Tactic
import FiniteDomain.Proofs.Engine.Retained
import FiniteDomain.Proofs.Session.Moves

/-!
Going back to a checkpoint.

A run takes checkpoints and goes back, to any of them and also to the current level, in a failed
state or not.  Whatever happened since a checkpoint was taken, going back to it brings back what
was there.

* `Session.Arises`: some run leads to the session;
* `Session.InForce`: a checkpoint that the session did not leave since it was taken, with
  `Session.Arises.exists_inForce`: there is one for each level below the current one;
* `Session.Arises.intact`, `Session.InForce.retains`: what every run keeps;
* `Session.restore_recovers`: going back brings back all of the checkpoint, and what was created
  since is as if it were new.
-/

namespace FiniteDomain

namespace Session

variable {s s₀ : Session} {c : Command} {base : Engine} {level : Nat}

/-- Some commands lead from a new session to this one, wherever they go back to. -/
def Arises (s : Session) : Prop :=
  ∃ (strategy : Strategy) (cs : List Command),
    (∀ c ∈ cs, c.IsTyped) ∧ s = (new strategy).run cs

/-- The checkpoint that was taken in the session `s₀` has not been left since. -/
inductive InForce (s₀ : Session) : Session → Prop
  | taken (haccepts : s₀.accepts .checkpoint = true) : InForce s₀ (s₀.after .checkpoint)
  | after {s : Session} {c : Command} (h : InForce s₀ s) (htyped : c.IsTyped)
    (habove : s₀.engine.level < (s.after c).engine.level) : InForce s₀ (s.after c)

/-! ### One command -/

/-- A command is carried out above all checkpoints, or takes one, or goes back. -/
lemma after_cases (w : s.engine.Intact) (hc : c.IsTyped) :
    Engine.Stays s.engine (s.after c).engine ∨
    (c = .checkpoint ∧ s.accepts c = true ∧ (s.after c).engine = s.engine.marked) ∨
    ∃ (e : Engine) (n : Nat), Engine.Stays s.engine e ∧
      Engine.Stays (e.goBack n) (s.after c).engine := by
  have hback : ∀ {n : Nat} {e' : Engine}, (Engine.Accounts s.engine e' ∨
      ∃ e₁, Engine.Accounts s.engine e₁ ∧ Engine.Moves (e₁.goBack n) e') →
      Engine.Stays s.engine e' ∨
        ∃ (e : Engine) (n : Nat), Engine.Stays s.engine e ∧ Engine.Stays (e.goBack n) e' := by
    rintro n e' (haccounts | ⟨e₁, haccounts, hmoves⟩)
    · exact .inl (haccounts.moves.stays w)
    · have hstays := haccounts.moves.stays w
      exact .inr ⟨e₁, n, hstays, hmoves.stays (hstays.intact.goBack n)⟩
  have hleads := leads_after w.store hc
  cases c with
  | decide v d =>
    rcases hleads with hsame | ⟨r, hrun⟩
    · rw [hsame]
      exact .inl (.refl w)
    · obtain ⟨-, -, hdecides⟩ := Ends.of_ok hrun (Engine.ends_decide w.store v d)
      exact .inl ((hdecides.trims w).stays w)
  | checkpoint =>
    rcases checkpoint_cases s with ⟨haccepts, -, -, hmarked⟩ | ⟨-, hsame⟩
    · exact .inr (.inl ⟨rfl, haccepts, hmarked⟩)
    · rw [hsame]
      exact .inl (.refl w)
  | restore t => exact (hback hleads).imp_right .inr
  | handleConflict t => exact (hback hleads).imp_right .inr
  | _ => exact .inl (Engine.Moves.stays hleads w)

lemma intact_after (w : s.engine.Intact) (hc : c.IsTyped) : (s.after c).engine.Intact := by
  rcases after_cases w hc with hstays | ⟨-, -, hmarked⟩ | ⟨e, n, -, hstays⟩
  · exact hstays.intact
  · rw [hmarked]
    exact w.marked
  · exact hstays.intact

/-- A command that does not leave a checkpoint does not touch what it retains. -/
lemma retains_after (w : s.engine.Intact) (hc : c.IsTyped)
    (hb : Engine.Retains base level s.engine) (habove : level < (s.after c).engine.level) :
    Engine.Retains base level (s.after c).engine := by
  rcases after_cases w hc with hstays | ⟨-, -, hmarked⟩ | ⟨e, n, hstays, hstays'⟩
  · exact hstays.retains base level hb
  · rw [hmarked]
    exact hb.marked w
  · rw [hstays'.level, Engine.level_goBack_eq_min] at habove
    have hn : level < n := (Nat.lt_min.1 habove).1
    exact hstays'.retains base level ((hstays.retains base level hb).goBack hstays.intact hn)

/-- Only a checkpoint that is taken leads to a higher level. -/
lemma level_after_le (w : s.engine.Intact) (hc : c.IsTyped) :
    (s.after c).engine.level ≤ s.engine.level ∨
      (c = .checkpoint ∧ s.accepts c = true ∧
        (s.after c).engine.level = s.engine.level + 1) := by
  rcases after_cases w hc with hstays | ⟨hcheckpoint, haccepts, hmarked⟩ | ⟨e, n, hstays, hstays'⟩
  · exact .inl hstays.level.le
  · refine .inr ⟨hcheckpoint, haccepts, ?_⟩
    rw [hmarked, Engine.level_marked]
  · left
    calc (s.after c).engine.level
      _ = min n e.level := hstays'.level.trans Engine.level_goBack_eq_min
      _ ≤ e.level := Nat.min_le_right _ _
      _ = s.engine.level := hstays.level

/-! ### Runs -/

lemma Arises.after (h : s.Arises) (hc : c.IsTyped) : (s.after c).Arises := by
  obtain ⟨strategy, cs, htyped, rfl⟩ := h
  refine ⟨strategy, cs ++ [c], fun c' hc' => ?_, ?_⟩
  · rcases List.mem_append.1 hc' with hc' | hc'
    · exact htyped c' hc'
    · exact List.mem_singleton.1 hc' ▸ hc
  · rw [run, run, List.foldl_append, List.foldl_cons, List.foldl_nil]

/-- What holds of new sessions, and is kept by the commands of a run, holds at its end. -/
lemma Arises.induct {P : Session → Prop} (h : s.Arises) (hnew : ∀ strategy, P (new strategy))
    (hafter : ∀ s c, s.Arises → c.IsTyped → P s → P (s.after c)) : P s := by
  obtain ⟨strategy, cs, htyped, rfl⟩ := h
  induction cs using List.reverseRecOn with
  | nil => exact hnew strategy
  | append_singleton cs c ih =>
    have hcs : ∀ c ∈ cs, c.IsTyped := fun c' hc' => htyped c' (List.mem_append_left _ hc')
    have hlast : c ∈ cs ++ [c] := List.mem_append_right _ (List.mem_singleton_self c)
    rw [run, List.foldl_append]
    exact hafter _ c ⟨strategy, cs, hcs, rfl⟩ (htyped c hlast) (ih hcs)

lemma Arises.intact (h : s.Arises) : s.engine.Intact :=
  h.induct (P := fun s => s.engine.Intact) Engine.intact_empty fun _ _ _ hc w => intact_after w hc

lemma InForce.arises (h₀ : s₀.Arises) (h : s₀.InForce s) : s.Arises := by
  induction h with
  | taken _ => exact h₀.after trivial
  | after _ hc _ ih => exact ih.after hc

/-- A checkpoint is taken when the engine is not failed and no propagator waits. -/
lemma InForce.settled (h : s₀.InForce s) :
    s₀.engine.conflict = none ∧ s₀.engine.agenda.isEmpty = true := by
  induction h with
  | taken haccepts =>
    rcases checkpoint_cases s₀ with ⟨-, hnone, hempty, -⟩ | ⟨hrefused, -⟩
    · exact ⟨hnone, hempty⟩
    · rw [haccepts] at hrefused
      cases hrefused
  | after _ _ _ ih => exact ih

/-- What the engine knows of the checkpoint. -/
lemma InForce.retains (h₀ : s₀.engine.Intact) (h : s₀.InForce s) :
    s.engine.Intact ∧ Engine.Retains s₀.engine s₀.engine.level s.engine := by
  induction h with
  | taken haccepts =>
    rcases checkpoint_cases s₀ with ⟨-, -, -, hmarked⟩ | ⟨hrefused, -⟩
    · rw [hmarked]
      exact ⟨h₀.marked, Engine.retains_marked h₀⟩
    · rw [haccepts] at hrefused
      cases hrefused
  | after _ hc habove ih => exact ⟨intact_after ih.1 hc, retains_after ih.1 hc ih.2 habove⟩

/-- A session has as many checkpoints as its level says. -/
lemma Arises.exists_inForce (h : s.Arises) : ∀ level, level < s.engine.level →
    ∃ s₀ : Session, s₀.Arises ∧ s₀.engine.level = level ∧ s₀.InForce s := by
  refine h.induct (P := fun s => ∀ level, level < s.engine.level →
    ∃ s₀ : Session, s₀.Arises ∧ s₀.engine.level = level ∧ s₀.InForce s)
    (fun strategy level hl => absurd hl (Nat.not_lt_zero level)) fun s c hs hc ih level hl => ?_
  have hkept : level < s.engine.level →
      ∃ s₀ : Session, s₀.Arises ∧ s₀.engine.level = level ∧ s₀.InForce (s.after c) := by
    intro hbelow
    obtain ⟨s₀, h₀, hlevel, hforce⟩ := ih level hbelow
    exact ⟨s₀, h₀, hlevel, hforce.after hc (hlevel ▸ hl)⟩
  rcases level_after_le hs.intact hc with hle | ⟨rfl, haccepts, hlevel⟩
  · exact hkept (hl.trans_le hle)
  · rcases Nat.lt_or_eq_of_le (Nat.le_of_lt_succ (hlevel ▸ hl)) with hlt | rfl
    · exact hkept hlt
    · exact ⟨s, hs, rfl, .taken haccepts⟩

/-! ### Going back -/

lemma step_restore {t : Target} (hl : t.resolve s.engine < s.engine.level) :
    step (.restore t) s = .ok .done { s with engine := s.engine.goBack (t.resolve s.engine) } := by
  have hrestore : Engine.restore (t.resolve s.engine) s.engine
      = .ok () (s.engine.goBack (t.resolve s.engine)) := by
    have hrun : ∀ k : Engine → FiniteDomain.Action Unit,
        (get >>= k) s.engine = k s.engine s.engine :=
      fun _ => rfl
    rw [Engine.restore, hrun, decide_eq_true hl.le]
    rfl
  have hcall : onEngine (Engine.restore (t.resolve s.engine)) s
      = .ok () { s with engine := s.engine.goBack (t.resolve s.engine) } := by
    rw [onEngine, hrestore]
  have hrun : ∀ k : Session → Action Reply, (get >>= k) s = k s s := fun _ => rfl
  rw [step, hrun, bind_of_ok hcall]
  rfl

/-- In every session that a run leads to, each level below the current one is that of a checkpoint
in force.  Going back to a checkpoint in force is always possible, takes no variable and no
propagator away, and brings back all that was there when it was taken: the trail, the domains of
the variables, now and before, and what the propagators remembered.  What was created since is as
new, the engine is idle and has not failed, nothing is pending, and those propagators wait that
were added since. -/
theorem restore_recovers (h : s.Arises) :
    (∀ level, level < s.engine.level →
      ∃ s₀ : Session, s₀.Arises ∧ s₀.engine.level = level ∧ s₀.InForce s) ∧
    ∀ (s₀ : Session) (t : Target), s₀.Arises → s₀.InForce s →
      t.resolve s.engine = s₀.engine.level →
      ∃ s', step (.restore t) s = .ok .done s' ∧ s.engine.Follows s'.engine ∧
        s₀.engine.Recovered s'.engine := by
  refine ⟨h.exists_inForce, fun s₀ t h₀ hforce ht => ?_⟩
  obtain ⟨w, hretains⟩ := hforce.retains h₀.intact
  have habove : t.resolve s.engine < s.engine.level := ht ▸ hretains.store.above
  obtain ⟨hnone, hempty⟩ := hforce.settled
  refine ⟨_, step_restore habove, ⟨?_, ?_⟩, ?_⟩
  · change s.engine.store.Continues (s.engine.goBack _).store
    rw [Engine.store_goBack]
    exact Store.continues_restore w.store habove
  · exact (Engine.alike_goBack _ _).propagators.trans (Engine.propagators_rewound _ _)
  · rw [ht]
    exact hretains.recovered h₀.intact w rfl hnone hempty

/-- A clause on two variables. -/
def settled : Session := (new .allDecision).run
  [.newVariable 0 3 none, .newVariable 0 1 none,
    .add (.disjunction [⟨⟨0⟩, .ofRange 2 3⟩, ⟨⟨1⟩, .single 1⟩]), .propagate]

/-- Behind a checkpoint, a decision, a checkpoint above, a new variable that counts how often the
first one is 2, a view, and decisions that contradict each other. -/
def stuck : Session := settled.run
  [.checkpoint, .decide ⟨1⟩ (.apply (.equals 0)), .propagate, .checkpoint, .newVariable 0 5 none,
    .add (.count ⟨[⟨0⟩], 2, ⟨2⟩⟩), .newView ⟨.atMost 2, ⟨0⟩⟩, .decide ⟨2⟩ (.apply (.atLeast 1)),
    .decide ⟨3⟩ (.apply (.equals 0)), .propagate]

/-- Going back from a failed state over two checkpoints. -/
theorem restore_recovers_stuck : stuck.engine.isFailed = true ∧ stuck.engine.level = 2 ∧
    ∃ s', step (.restore (.level 0)) stuck = .ok .done s' ∧ stuck.engine.Follows s'.engine ∧
      settled.engine.Recovered s'.engine := by
  have hsettled : settled.Arises := ⟨.allDecision, _, by decide +kernel, rfl⟩
  have hstuck : stuck = (((((((((settled.after .checkpoint).after
      (.decide ⟨1⟩ (.apply (.equals 0)))).after .propagate).after .checkpoint).after
      (.newVariable 0 5 none)).after (.add (.count ⟨[⟨0⟩], 2, ⟨2⟩⟩))).after
      (.newView ⟨.atMost 2, ⟨0⟩⟩)).after (.decide ⟨2⟩ (.apply (.atLeast 1)))).after
      (.decide ⟨3⟩ (.apply (.equals 0)))).after .propagate := by
    simp only [stuck, run, List.foldl_cons, List.foldl_nil]
  have hforce : settled.InForce stuck := by
    rw [hstuck]
    have htaken : settled.InForce (settled.after .checkpoint) := .taken (by decide +kernel)
    have hdecided :=
      htaken.after (c := .decide ⟨1⟩ (.apply (.equals 0))) trivial (by decide +kernel)
    have hpropagated := hdecided.after (c := .propagate) trivial (by decide +kernel)
    have hagain := hpropagated.after (c := .checkpoint) trivial (by decide +kernel)
    have hvariable := hagain.after (c := .newVariable 0 5 none) (by decide) (by decide +kernel)
    have hadded := hvariable.after (c := .add (.count ⟨[⟨0⟩], 2, ⟨2⟩⟩)) (by decide)
      (by decide +kernel)
    have hview := hadded.after (c := .newView ⟨.atMost 2, ⟨0⟩⟩) trivial (by decide +kernel)
    have hfirst := hview.after (c := .decide ⟨2⟩ (.apply (.atLeast 1))) trivial (by decide +kernel)
    have hsecond := hfirst.after (c := .decide ⟨3⟩ (.apply (.equals 0))) trivial
      (by decide +kernel)
    exact hsecond.after (c := .propagate) trivial (by decide +kernel)
  have hlevel : settled.engine.level = 0 := by decide +kernel
  refine ⟨by decide +kernel, by decide +kernel, ?_⟩
  exact (restore_recovers (hforce.arises hsettled)).2 settled (.level 0) hsettled hforce hlevel.symm

end Session

end FiniteDomain
