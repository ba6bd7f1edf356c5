import Mathlib.Tactic
import FiniteDomain.Proofs.Engine.Confluence
import FiniteDomain.Proofs.Session.Ledger
import FiniteDomain.Proofs.Session.Moves

/-!
Runs that are about the same.

The choices of a run are the decisions that it made and did not take back.  Two runs with the
same variables, constraints and choices come to rest at the same domains, in whatever order
things were said, and whatever else was tried in between.

* `Session.choicesAfter`, `Session.choicesOf`: the choices after a command, and of a run;
* `Session.Chose`: some run leads to the session with these choices, with
  `Session.Chose.chosen`;
* `Session.propagation_confluent`: two such runs.
-/

namespace FiniteDomain

namespace Session

variable {s s' : Session} {c : Command} {cs : List Command} {ks ks' : List Choice}

/-- The choices after a command: a decision that was carried out is one more, and those of the
levels that were left are taken back. -/
def choicesAfter (s : Session) (ks : List Choice) (c : Command) : List Choice :=
  Choice.upTo (s.after c).engine.level <|
    match c with
    | .decide v d => if s.accepts (.decide v d) then ⟨s.engine.level, v, d⟩ :: ks else ks
    | _ => ks

/-- The choices of a run, after those that there were. -/
def choicesOf (s : Session) (ks : List Choice) : List Command → List Choice
  | [] => ks
  | c :: cs => (s.after c).choicesOf (s.choicesAfter ks c) cs

/-- Some run leads to the session, and these are its choices. -/
def Chose (s : Session) (ks : List Choice) : Prop :=
  ∃ (strategy : Strategy) (cs : List Command), (new strategy).Admissible cs ∧
    s = (new strategy).run cs ∧ ks = (new strategy).choicesOf [] cs

lemma Chose.reachable (h : s.Chose ks) : s.Reachable := by
  obtain ⟨strategy, cs, hadmissible, hs, -⟩ := h
  exact ⟨strategy, cs, hadmissible, hs⟩

lemma chosen_after (inv : s.engine.Invariant) (hs : s.engine.Scheduled)
    (h : s.engine.Chosen ks) (hc : c.Fits s) :
    (s.after c).engine.Chosen (s.choicesAfter ks c) := by
  have w : s.engine.store.WellFormed := inv.consistent.store
  -- moves leave the level and the choices alone
  have hmoves : ∀ {e' : Engine}, Engine.Moves s.engine e' →
      e'.Chosen (Choice.upTo e'.level ks) := by
    intro e' hmoves
    obtain ⟨hk, hlevel⟩ := hmoves.chosen inv hs h
    rwa [Choice.upTo_eq_self hk.level]
  -- the choices of the levels that are left go with them
  have hback : ∀ {t : Target} {e' : Engine}, t.resolve s.engine < s.engine.level →
      (Engine.Accounts s.engine e' ∨ ∃ e₁, Engine.Accounts s.engine e₁ ∧
        Engine.Moves (e₁.goBack (t.resolve s.engine)) e') →
      e'.Chosen (Choice.upTo e'.level ks) := by
    rintro t e' hl (haccounts | ⟨e₁, haccounts, hbehind⟩)
    · exact hmoves haccounts.moves
    · have inv₁ := haccounts.invariant inv
      have hs₁ := (Engine.Move.account haccounts).scheduled inv hs
      obtain ⟨hk₁, hlevel₁⟩ := haccounts.moves.chosen inv hs h
      have hl₁ := hlevel₁.symm ▸ hl
      obtain ⟨hk, hlevel⟩ := hbehind.chosen (Engine.invariant_goBack inv₁ hl₁).1
        (hs₁.goBack inv₁ hl₁) (hk₁.goBack inv₁.consistent.store hl₁)
      rw [hlevel, Engine.level_goBack hl₁]
      exact hk
  have hleads := leads_after inv.consistent.store hc.isTyped
  cases c with
  | decide v d =>
    have hafter : s.choicesAfter ks (.decide v d) = Choice.upTo (s.after (.decide v d)).engine.level
        (if s.accepts (.decide v d) then ⟨s.engine.level, v, d⟩ :: ks else ks) := rfl
    rw [hafter]
    rcases decide_cases inv v d with ⟨haccepts, r, hrun⟩ | ⟨haccepts, hsame⟩
    · obtain ⟨hnone, hv, hdecides⟩ := Ends.of_ok hrun (Engine.ends_decide inv.consistent.store v d)
      have hk := hdecides.chosen inv h hnone hv
      rwa [haccepts, if_pos rfl, Choice.upTo_eq_self hk.level]
    · rw [haccepts, if_neg Bool.false_ne_true, hsame, Choice.upTo_eq_self h.level]
      exact h
  | checkpoint =>
    have hafter : s.choicesAfter ks .checkpoint =
        Choice.upTo (s.after .checkpoint).engine.level ks := rfl
    rw [hafter]
    rcases hleads with hsame | ⟨n, hrun⟩
    · rw [hsame, Choice.upTo_eq_self h.level]
      exact h
    · obtain ⟨-, hnone, -, hmarked⟩ := Ends.of_ok hrun Engine.ends_checkpoint
      have hk := h.marked w hnone
      rw [hmarked, Choice.upTo_eq_self hk.level]
      exact hk
  | restore t => exact hback hc hleads
  | handleConflict t => exact hback hc hleads
  | _ => exact hmoves hleads

lemma Chose.chosen (h : s.Chose ks) : s.engine.Chosen ks := by
  obtain ⟨strategy, cs, hadmissible, rfl, rfl⟩ := h
  have hrun : ∀ (cs : List Command) (s : Session) (ks : List Choice), s.Invariant →
      s.engine.Scheduled → s.engine.Chosen ks → s.Admissible cs →
      (s.run cs).engine.Chosen (s.choicesOf ks cs) := by
    intro cs
    induction cs with
    | nil => exact fun s ks _ _ hk _ => hk
    | cons c cs ih =>
      intro s ks inv hs hk hcs
      exact ih (s.after c) _ (inv.after hcs.1).1 (scheduled_after inv.engine hs hcs.1)
        (chosen_after inv.engine hs hk hcs.1) hcs.2
  exact hrun cs _ [] (invariant_new strategy) (Engine.scheduled_empty strategy)
    (Engine.chosen_empty strategy) hadmissible

/-- Take two runs with the same variables and views, whose engines stand for the same
constraints, each on different roots and none of them an observer, with no initial domain that
has the greatest of all values, and with the same decisions that were made and not taken back.
Propagation then fails in both, or ends in both with the same domains. -/
theorem propagation_confluent (h : s.Chose ks) (h' : s'.Chose ks')
    (hregular : s.engine.Regular) (hsame : Engine.SameProblem ks ks' s.engine s'.engine) :
    ∃ r e r' e', Engine.propagate s.engine = .ok r e ∧ Engine.propagate s'.engine = .ok r' e' ∧
      ((∃ i i', r = .error i ∧ r' = .error i') ∨
        r = .ok () ∧ r' = .ok () ∧
          ∀ v, s.engine.store.has v = true → e.store.domain v = e'.store.domain v) :=
  hsame.agree hregular h.reachable.invariant h'.reachable.invariant h.reachable.scheduled
    h'.reachable.scheduled h.chosen h'.chosen

/-- Three variables, of which the second is the greatest, and a clause; two decisions, of which
the second comes after a checkpoint. -/
def straight : List Command :=
  [.newVariable 0 1 none, .newVariable 0 3 none, .newVariable 0 2 none,
    .add (.maximum ⟨[⟨0⟩, ⟨2⟩], ⟨1⟩⟩),
    .add (.disjunction [⟨⟨0⟩, .single 1⟩, ⟨⟨2⟩, .single 2⟩]),
    .decide ⟨0⟩ (.apply (.atMost 0)), .propagate, .checkpoint, .decide ⟨1⟩ (.bounds 0 2)]

/-- The same said in another order, with another decision that is taken back in between. -/
def detour : List Command :=
  [.newVariable 0 1 none, .newVariable 0 3 none, .newVariable 0 2 none,
    .decide ⟨1⟩ (.bounds 0 2), .add (.disjunction [⟨⟨0⟩, .single 1⟩, ⟨⟨2⟩, .single 2⟩]),
    .propagate, .checkpoint, .decide ⟨2⟩ (.apply (.atMost 1)), .propagate, .checkpoint,
    .restore (.level 0), .add (.maximum ⟨[⟨0⟩, ⟨2⟩], ⟨1⟩⟩), .decide ⟨0⟩ (.apply (.atMost 0))]

/-- Both runs come to rest at the same domains. -/
theorem propagation_confluent_detour : ∃ r e r' e',
    Engine.propagate ((new .allDecision).run straight).engine = .ok r e ∧
      Engine.propagate ((new .noLearning).run detour).engine = .ok r' e' ∧
      ((∃ i i', r = .error i ∧ r' = .error i') ∨
        r = .ok () ∧ r' = .ok () ∧
          ∀ v, ((new .allDecision).run straight).engine.store.has v = true →
            e.store.domain v = e'.store.domain v) := by
  have hsize : ((new .noLearning).run detour).engine.store.vars.size =
      ((new .allDecision).run straight).engine.store.vars.size := by decide +kernel
  have hvariable : ∀ v, ((new .allDecision).run straight).engine.store.has v = true →
      Value.greatest ∉ ((new .allDecision).run straight).engine.store.initial v ∧
      ((new .noLearning).run detour).engine.store.root v =
        ((new .allDecision).run straight).engine.store.root v ∧
      ((new .noLearning).run detour).engine.store.chain v =
        ((new .allDecision).run straight).engine.store.chain v ∧
      ((new .noLearning).run detour).engine.store.initial v =
        ((new .allDecision).run straight).engine.store.initial v := by decide +kernel
  refine propagation_confluent ⟨.allDecision, straight, by decide +kernel, rfl, rfl⟩
    ⟨.noLearning, detour, by decide +kernel, rfl, rfl⟩
    ⟨fun v hv => (hvariable v hv).1, by decide +kernel⟩
    ⟨⟨fun v => ?_, fun v hv => (hvariable v hv).2.1, fun v hv => (hvariable v hv).2.2.1,
      fun v hv => (hvariable v hv).2.2.2⟩, fun c => List.Perm.mem_iff (by decide +kernel),
      fun a => List.Perm.mem_iff (by decide +kernel)⟩
  rw [Store.has, Store.has, hsize]

end Session

end FiniteDomain
