import Mathlib.Tactic
import FiniteDomain.Proofs.Engine.Asserting
import FiniteDomain.Proofs.Engine.Learning
import FiniteDomain.Proofs.Engine.Moves
import FiniteDomain.Proofs.Engine.Since

/-!
Learning makes progress.

Since a checkpoint, decisions were made on one root alone, and then a propagator failed.  The
literals of the learned clause on other roots were false at the checkpoint, and not all of them
can have been, because the domains there were a fixpoint.  So the clause asserts its literal on
that root, which the last decision made false.

* `Clause.Asserts`: all literals of a clause but one are false on some domains;
* `Propagator.Enforces`: the propagator of a clause, with `Propagator.Enforces.kept`: where it has
  nothing left to do, the literal that is asserted holds;
* `Engine.Since.asserts`: what the analysis of the failure returns;
* `Engine.ends_addLearned`: a clause on roots is added as it is;
* `Engine.Since.progress`: the conflict is handled, and propagation enforces the literal.
-/

namespace FiniteDomain

variable {c : Clause} {l : Literal} {B dom : VarId → IntervalSet} {q : Propagator}

/-- On the domains, a literal of the clause is possible, and all others are false. -/
structure Clause.Asserts (B : VarId → IntervalSet) (c : Clause) (l : Literal) : Prop where
  distinct : c.Distinct
  mem : l ∈ c
  possible : ∃ k, k ∈ l.allowed ∧ k ∈ B l.var
  others : ∀ l' ∈ c, l' ≠ l → ∀ k, k ∈ l'.allowed → k ∉ B l'.var

/-! ### The propagator of a clause -/

namespace Propagator

/-- The propagator of a clause whose literals are on different variables, in some order. -/
def Enforces (c : Clause) (q : Propagator) : Prop :=
  (∃ l, c = [l] ∧ q = .member ⟨l.var, l.allowed⟩) ∨ ∃ d : Clause, d.Perm c ∧ q = .disjunction ⟨d⟩

namespace Enforces

/-- The propagator stands for the clause. -/
lemma holds_iff (h : q.Enforces c) (values : VarId → Int) :
    q.constraint.Holds values ↔ c.Holds values := by
  rcases h with ⟨l, rfl, rfl⟩ | ⟨d, hperm, rfl⟩
  · rw [Clause.holds_cons, or_iff_left Clause.not_holds_nil]
    rfl
  · exact exists_congr fun l => and_congr_left fun _ => hperm.mem_iff

lemma perm_scope (h : q.Enforces c) : q.scope.Perm (c.map Literal.var) := by
  rcases h with ⟨l, rfl, rfl⟩ | ⟨d, hperm, rfl⟩
  · exact .refl _
  · exact hperm.map _

/-- Literals on roots are on different roots. -/
lemma independent (h : q.Enforces c) {s : Store} (hdistinct : c.Distinct)
    (hroots : ∀ l ∈ c, s.root l.var = l.var) : q.Independent s := by
  have hself : (c.map Literal.var).map s.root = c.map Literal.var := by
    rw [List.map_map]
    exact List.map_congr_left hroots
  rw [Independent, (h.perm_scope.map s.root).nodup_iff, hself]
  exact hdistinct

/-- Where the propagator has nothing left to do, the variable of the literal that is asserted has
only values that the literal allows. -/
lemma kept (h : q.Enforces c) (hclosed : Grounds.Closed q.Justified dom) (hc : c.Asserts B l)
    (hsub : ∀ l' ∈ c, ∀ x, x ∈ dom l'.var → x ∈ B l'.var) :
    ∀ x, x ∈ dom l.var → x ∈ l.allowed := by
  rcases h with ⟨l', rfl, rfl⟩ | ⟨d, hperm, rfl⟩
  · obtain rfl := List.mem_singleton.1 hc.mem
    exact Member.mem_of_closed hclosed
  · intro x hx
    have hfalse : ∀ l' ∈ d, l'.var ≠ l.var → ∀ k, k ∈ dom l'.var → k ∉ l'.allowed := by
      intro l' hl' hne k hk hmem
      have hl' := hperm.mem_iff.1 hl'
      exact hc.others l' hl' (fun heq => hne (heq ▸ rfl)) k hmem (hsub l' hl' k hk)
    obtain ⟨l', hl', hvar, hmem⟩ :=
      Disjunction.exists_of_closed hclosed ⟨l, hperm.mem_iff.2 hc.mem, rfl⟩ hfalse x hx
    rwa [List.inj_on_of_nodup_map hc.distinct (hperm.mem_iff.1 hl') hc.mem hvar] at hmem

end Enforces

end Propagator

/-! ### The clause that is learned -/

namespace Engine

variable {e e' : Engine} {base last : Store} {level : Nat} {r : VarId}

section Asserts

variable (inv : e.Invariant) (hs : e.Scheduled) (h : e.Since base level r last)
  (hbelow : ∀ v, e.store.has v = true → ∀ k, k ∈ e.store.initial v → k < Value.greatest)
  (hindep : ∀ q ∈ e.propagators, ¬ q.IsObserver → q.Independent e.store)

include inv in
/-- Going back, the domains are the ones at the checkpoint. -/
lemma domain_goBack : (e.goBack level).store.domain = fun v =>
    e.store.domainAt v (e.store.trail.extent level) :=
  (alike_goBack e level).domain.trans (Store.domain_restore inv.consistent.store level)

include inv hs h hbelow hindep in
/-- The domains at the checkpoint are ones that no propagator can narrow. -/
lemma Since.fixpoint :
    Resolution.Fixpoint e fun v => e.store.domainAt v (e.store.trail.extent level) := by
  have w : e.store.WellFormed := inv.consistent.store
  have hmaps := Store.maps_restore e.store level
  have halike := alike_goBack e level
  have hdomain : (e.goBack level).store.domain = _ := domain_goBack inv
  have hrest := (h.atRest inv hs).1
  have hinitial : ∀ v, e.store.has v = true → ∀ x,
      x ∈ e.store.domainAt v (e.store.trail.extent level) → x ∈ e.store.initial v := by
    intro v hv x hx
    rw [Store.initial_eq_domainAt]
    exact w.domainAt_antitone hv (Nat.zero_le _) hx
  have hroot : (e.goBack level).store.root = e.store.root := by
    rw [halike.root]
    exact funext hmaps.root
  have hhas : ∀ v, (e.goBack level).store.has v = e.store.has v := fun v => by
    rw [Store.has_congr halike.vars]
    exact hmaps.has v
  refine ⟨⟨fun v hv => w.domainAt_nonempty hv, hinitial, fun v hv x => ?_⟩, fun v hv k hk => ?_,
    hindep, fun q hq => ?_⟩
  · rw [w.mem_domainAt hv]
    refine exists_congr fun y => and_congr_left fun _ => ?_
    rw [w.domainAt_root hv]
  · exact w.domainAt_antitone hv (w.trail 0 level (Nat.zero_le _)) hk
  · by_cases hobs : q.IsObserver
    · obtain ⟨o, rfl⟩ := hobs
      exact fun _ _ hJ => hJ.elim
    · rw [← hdomain]
      have hpropagators := halike.propagators.trans (propagators_rewound e level)
      obtain ⟨i, hi⟩ := List.mem_iff_getElem?.1 hq
      refine hrest.closed (p := ⟨i⟩) (hpropagators ▸ hi)
        ((hindep q hq hobs).congr fun v _ => congrFun hroot v) fun v hv x hx => ?_
      rw [hhas] at hv
      rw [hdomain] at hx
      exact hbelow v hv x (hinitial v hv x hx)

include inv h in
/-- A literal on another root was false at the checkpoint. -/
lemma Since.var_eq_or_lost (hl : Decided e.store l) :
    l.var = r ∨ ∀ k, k ∈ l.allowed → k ∉ e.store.domainAt l.var (e.store.trail.extent level) := by
  have w : e.store.WellFormed := inv.consistent.store
  obtain ⟨p, u, hu, hroot, hfalsifies, hdecision⟩ := hl.decision
  rcases Nat.lt_or_ge p (e.store.trail.extent level) with hlt | hge
  · right
    intro k hk hin
    exact hfalsifies.after k hk (w.domainAt_antitone hl.isRoot.has hlt hin)
  · left
    rw [Store.isDecision, Bool.and_eq_true] at hdecision
    rw [← hroot]
    exact h.decided p u hge hu (Option.isNone_iff_eq_none.1 hdecision.1)

include inv in
/-- A literal on the root was false right after the last decision. -/
lemma Behind.lost (hb : e.Behind r last) (hl : Decided e.store l) (hvar : l.var = r) :
    ∀ k, k ∈ l.allowed → k ∉ last.domain r := by
  have w : e.store.WellFormed := inv.consistent.store
  obtain ⟨p, u, hu, hroot, hfalsifies, hdecision⟩ := hl.decision
  have hlt : p < last.length := by
    by_contra hge
    have hcaused := hb.caused p u (Nat.not_lt.1 hge) hu
    rw [Store.isDecision, Bool.and_eq_true, ← Option.not_isSome, hcaused] at hdecision
    cases hdecision.1
  intro k hk hin
  rw [← hb.domain] at hin
  have hin := w.domainAt_antitone hb.has hlt hin
  exact hfalsifies.after k hk (hvar ▸ hin)

include inv hs h hbelow hindep in
/-- The clause that the failure leads to asserts its literal on the root at the checkpoint. -/
lemma Since.asserts (hb : e.Behind r last) (hdistinct : c.Distinct)
    (hdecided : ∀ l ∈ c, Decided e.store l) (hrun : resolveConflict e = .ok (some c) e') :
    ∃ A, c.Asserts (fun v => e.store.domainAt v (e.store.trail.extent level)) ⟨r, A⟩ ∧
      ∀ k, k ∈ A → k ∉ last.domain r := by
  obtain ⟨v, k, ⟨l, hl, rfl, hk⟩, hin⟩ :=
    possible_resolveConflict (h.fixpoint inv hs hbelow hindep) inv hbelow hrun
  have hvar : l.var = r :=
    (h.var_eq_or_lost inv (hdecided l hl)).resolve_right fun hlost => hlost k hk hin
  obtain ⟨v, A⟩ := l
  obtain rfl : v = r := hvar
  refine ⟨A, ⟨hdistinct, hl, ⟨k, hk, hin⟩, fun l' hl' hne => ?_⟩, hb.lost inv (hdecided _ hl) rfl⟩
  -- two literals of the clause are on different variables
  refine (h.var_eq_or_lost inv (hdecided l' hl')).resolve_left fun hvar => hne ?_
  exact List.inj_on_of_nodup_map hdistinct hl' hl hvar

end Asserts

/-! ### Adding a clause on roots -/

lemma unknown?_eq_none (h : ∀ v ∈ q.scope, e.store.has v = true) : e.unknown? q = none := by
  rw [unknown?, Option.map_eq_none_iff, List.find?_eq_none]
  rintro ⟨v, i⟩ hmem
  have hv := h v (List.mem_of_getElem? (List.mem_zipIdx_iff_getElem?.1 hmem))
  rw [hv]
  simp

section Add

variable (hfeasible : e.infeasible = false) (hnone : e.conflict = none)

include hfeasible hnone

/-- A constraint on variables that exist is accepted. -/
lemma ends_add {constraint : Constraint} {m : Memory}
    (hmade : constraint.propagator e.memory = .ok (q, m)) (hscope : q.scope ≠ [])
    (hhas : ∀ v ∈ q.scope, e.store.has v = true) :
    Ends (add constraint) e (fun res e' => (∃ p, res = .ok p) ∧ e' = e.accept q m)
      fun _ _ => False := by
  rw [add]
  refine ends_bind_get ?_
  rw [hfeasible, if_neg Bool.false_ne_true, hmade, isFailed, hnone]
  refine ends_bind_get ?_
  rw [if_neg (by rwa [List.isEmpty_iff]), unknown?_eq_none hhas]
  exact ends_bind_set (ends_pure ⟨⟨_, rfl⟩, rfl⟩)

/-- The clause of a builder to which a clause on roots was put is posted as it is. -/
lemma ends_build {b : ClauseBuilder} (hc : ∀ l ∈ c, e.store.Splits l) (hdistinct : c.Distinct)
    (hne : c ≠ []) (hb : b = c.foldl (fun b l => b.put l) { store := e.store }) :
    Ends (build b) e (fun res e' => res = .ok () ∧ e'.store = e.store ∧
        ∃ q, e'.propagators = e.propagators ++ [q] ∧ q.Enforces c) fun _ _ => False := by
  have hpost : ∀ (constraint : Constraint) (q : Propagator) (n : Note),
      constraint.propagator e.memory = .ok (q, e.memory) → q.Enforces c →
      Ends (post [constraint]) (e.note n) (fun res e' => res = .ok () ∧ e'.store = e.store ∧
        ∃ q, e'.propagators = e.propagators ++ [q] ∧ q.Enforces c) fun _ _ => False := by
    intro constraint q n hmade henforces
    have hscope : q.scope ≠ [] := by
      intro hnil
      have hperm := henforces.perm_scope
      rw [hnil] at hperm
      exact hne (List.map_eq_nil_iff.1 hperm.nil_eq.symm)
    have hhas : ∀ v ∈ q.scope, e.store.has v = true := by
      intro v hv
      obtain ⟨l, hl, rfl⟩ := List.mem_map.1 (henforces.perm_scope.mem_iff.1 hv)
      exact (hc l hl).isRoot.has
    rw [post]
    refine Ends.bind (ends_add (e := e.note n) hfeasible hnone hmade hscope hhas) ?_
    rintro _ _ ⟨⟨p, rfl⟩, rfl⟩
    exact ends_pure ⟨rfl, rfl, q, by simp [propagators, accept, note], henforces⟩
  obtain ⟨d, hperm, hresult⟩ := ClauseBuilder.result_of_splits hc hdistinct hne hb
  rw [build]
  rcases hresult with ⟨l, rfl, hresult⟩ | hresult
  · rw [hresult]
    exact ends_bind_modify (hpost _ _ _ rfl (.inl ⟨l, (List.singleton_perm.1 hperm).symm, rfl⟩))
  · rw [hresult]
    refine ends_bind_modify (hpost _ (.disjunction ⟨d⟩) _ ?_ (.inr ⟨d, hperm, rfl⟩))
    have hd : Clause.Distinct ([] ++ d) := (hperm.map Literal.var).nodup_iff.2 hdistinct
    rw [Constraint.propagator, Disjunction.ofLiterals, Clause.addAll_of_distinct hd]
    rfl

/-- A learned clause on roots is added as it is. -/
lemma ends_addLearned (hc : ∀ l ∈ c, e.store.Splits l) (hdistinct : c.Distinct) (hne : c ≠ []) :
    Ends (addLearned c) e (fun res e' => res = .ok () ∧ e'.store = e.store ∧
        ∃ q, e'.propagators = e.propagators ++ [q] ∧ q.Enforces c) fun _ _ => False := by
  rw [addLearned, if_neg (by rwa [List.isEmpty_iff])]
  refine ends_bind_modify (ends_bind_get ?_)
  exact ends_build (e := e.count _) hfeasible hnone hc hdistinct hne rfl

end Add

/-! ### Going on -/

/-- Propagation fails, or only values that the asserted literal allows are left. -/
lemma Scheduled.enforces (hs : e.Scheduled) (inv : e.Invariant) (hq : q ∈ e.propagators)
    (henforces : q.Enforces c) (hc : c.Asserts e.store.domain l)
    (hroots : ∀ l' ∈ c, e.store.IsRoot l'.var)
    (hbelow : ∀ v, e.store.has v = true → ∀ k, k ∈ e.store.initial v → k < Value.greatest) :
    ∃ res e', propagate e = .ok res e' ∧
      (res = .ok () → ∀ x, x ∈ e'.store.domain l.var → x ∈ l.allowed) := by
  have w : e.store.WellFormed := inv.consistent.store
  obtain ⟨res, e', hrun, hsettles⟩ := (scheduled_propagate inv hs).exists_ok
  refine ⟨res, e', hrun, ?_⟩
  rintro rfl
  obtain ⟨-, hnone, hempty⟩ := hsettles.quiet rfl
  have hsh := hsettles.drives.store.shrinks
  have hrest := hsettles.scheduled.atRest (Ends.of_ok hrun (keeps_propagate inv)).1 hnone hempty
  obtain ⟨i, hi⟩ := List.mem_iff_getElem?.1 (hsettles.propagators ▸ hq)
  have hindep : q.Independent e'.store := henforces.independent hc.distinct fun l' hl' =>
    (hsh.root l'.var).trans (hroots l' hl').root_eq
  have hclosed := hrest.closed (p := ⟨i⟩) hi hindep fun v hv x hx => by
    have hv : e.store.has v = true := (hsh.has v).symm.trans hv
    have hx := hsh.domain v x hx
    rw [w.domain_eq_domainAt hv (Nat.le_refl _)] at hx
    refine hbelow v hv x ?_
    rw [Store.initial_eq_domainAt]
    exact w.domainAt_antitone hv (Nat.zero_le _) hx
  exact henforces.kept hclosed hc fun l' _ => hsh.domain l'.var

lemma restore_of_le (h : level ≤ e.level) : restore level e = .ok () (e.goBack level) := by
  have hget : restore level e = (Action.require (Decidable.decide (level ≤ e.level))
    .missingCheckpoint >>= fun _ => modify fun e => e.goBack level) e := rfl
  rw [hget, decide_eq_true h]
  rfl

/-- A clause was learned and added behind the checkpoint. -/
structure Learned (level : Nat) (c : Clause) (e e' : Engine) : Prop where
  invariant : e'.Invariant
  scheduled : e'.Scheduled
  store : e'.store = (e.goBack level).store
  propagators : ∃ q, e'.propagators = e.propagators ++ [q] ∧ q.Enforces c

section Learn

variable (inv : e.Invariant) (hs : e.Scheduled)

include inv hs

/-- The clause that the analysis leads to is returned, and one propagator is added. -/
lemma ends_handleConflict (hl : level < e.level) (hstrategy : e.strategy = .allDecision)
    (hfeasible : e.infeasible = false) (hfailed : e.isFailed = true)
    (hrun : resolveConflict e = .ok (some c) (e.note (.learned c)))
    (hc : ∀ l ∈ c, ((e.note (.learned c)).goBack level).store.Splits l) (hdistinct : c.Distinct)
    (hne : c ≠ []) :
    Ends (handleConflict level) e
      (fun res e' => res = .ok (some c) ∧ Learned level c (e.note (.learned c)) e')
      fun _ _ => False := by
  have hnote : Move e (e.note (.learned c)) := .account (accounts_note e trivial)
  have inv₁ := hnote.invariant inv
  have hs₁ := hnote.scheduled inv hs
  have hl₁ : level < (e.note (.learned c)).level := hl
  have inv₂ := (invariant_goBack inv₁ hl₁).1
  have hs₂ := hs₁.goBack inv₁ hl₁
  have halike := alike_goBack (e.note (.learned c)) level
  have hlearn : learn e = .ok (some c) (e.note (.learned c)) := by
    have hget : ∀ k : Engine → Action (Option Clause), (get >>= k) e = k e e := fun _ => rfl
    rw [learn, hget, hstrategy]
    exact hrun
  have hadd := (ends_addLearned (halike.infeasible.trans hfeasible) halike.conflict hc hdistinct
    hne).and (travels_addLearned c)
  rw [handleConflict]
  refine ends_bind_get ?_
  have hpass : Action.require e.isFailed .handlingWithoutFailure e = .ok () e := by
    rw [hfailed]
    rfl
  rw [Ends, bind_of_ok hpass, bind_of_ok hlearn, bind_of_ok (restore_of_le hl₁.le), ← Ends]
  refine Ends.bind (hadd.mono (fun _ _ h => h) fun _ _ h => h.1) ?_
  rintro _ e' ⟨⟨rfl, hstore, q, hpropagators, henforces⟩, hmoves⟩
  rw [halike.propagators, propagators_rewound] at hpropagators
  exact ends_pure ⟨rfl, hmoves.invariant inv₂, hmoves.scheduled inv₂ hs₂, hstore, q, hpropagators,
    henforces⟩

end Learn

/-- What handling a conflict makes of an engine.  At the checkpoint, where the domains were those
of `base`, the clause asserts that the root `r` has a value in `A`, and no value in `A` was left
right after the last decision.  It was added, and propagation sees to it. -/
structure Overcomes (base last : Store) (r : VarId) (c : Clause) (A : IntervalSet)
    (e e' : Engine) : Prop where
  asserts : c.Asserts e'.store.domain ⟨r, A⟩
  added : ∃ q, e'.propagators = e.propagators ++ [q] ∧
    ∀ values, q.constraint.Holds values ↔ c.Holds values
  domain : ∀ v, base.has v = true → e'.store.domain v = base.domain v
  lost : ∀ k, k ∈ A → k ∉ last.domain r
  enforces : ∃ res e'', propagate e' = .ok res e'' ∧
    (res = .ok () → ∀ x, x ∈ e''.store.domain r → x ∈ A)

/-- A literal of a learned clause splits the initial domain. -/
lemma Decided.splits {s t : Store} (h : Decided s l) (w : s.WellFormed) (hst : s.Continues t) :
    t.Splits l := by
  have hv := h.isRoot.has
  have hinitial := hst.initial l.var hv
  refine ⟨hst.isRoot l.var h.isRoot, h.nonempty, fun k hk => hinitial ▸ h.initial k hk, ?_⟩
  obtain ⟨x, hx⟩ := w.domain_nonempty hv
  refine ⟨x, ?_, fun hin => h.lost x hin hx⟩
  rw [hinitial, Store.initial_eq_domainAt]
  rw [w.domain_eq_domainAt hv le_rfl] at hx
  exact w.domainAt_antitone hv (Nat.zero_le _) hx

/-- A failure since the checkpoint that a propagator made is overcome: handling it returns a
clause, and the engine does not come back to where it failed. -/
lemma Since.progress (h : e.Since base level r last) (inv : e.Invariant) (hs : e.Scheduled)
    (hbelow : ∀ v, e.store.has v = true → ∀ k, k ∈ e.store.initial v → k < Value.greatest)
    (hindep : ∀ q ∈ e.propagators, ¬ q.IsObserver → q.Independent e.store)
    (hstrategy : e.strategy = .allDecision) (hfeasible : e.infeasible = false) {req : Request}
    (hreq : e.store.failure = some req) (hcause : req.cause.isSome = true) :
    ∃ c A e', handleConflict level e = .ok (.ok (some c)) e' ∧ Overcomes base last r c A e e' := by
  have w : e.store.WellFormed := inv.consistent.store
  obtain ⟨-, c, -, -, -, hrun, hdistinct, hdecided⟩ := resolveConflict_spec inv hbelow hreq hcause
  have hconflict : e.conflict ≠ none := by
    intro hnone
    have hfailure : e.store.failure = none := (inv.ready hnone).failure
    rw [hreq] at hfailure
    cases hfailure
  have hb : e.Behind r last := h.recent.resolve_left fun hrest => hconflict hrest.1
  obtain ⟨A, hasserts, hlost⟩ :=
    h.asserts inv hs hbelow hindep hb hdistinct hdecided hrun
  -- the note on the clause aside, the engine is the same
  have hnote : Move e (e.note (.learned c)) := .account (accounts_note e trivial)
  have inv₁ := hnote.invariant inv
  have h₁ : (e.note (.learned c)).Since base level r last := hnote.since inv hs rfl h
  have hdomain : ((e.note (.learned c)).goBack level).store.domain = _ := domain_goBack inv₁
  have hcontinues : e.store.Continues ((e.note (.learned c)).goBack level).store :=
    (invariant_goBack inv₁ h₁.above).2.store
  have hsplits := fun l hl => (hdecided l hl).splits w hcontinues
  obtain ⟨res, e', hhandle, rfl, hlearned⟩ := (ends_handleConflict inv hs h.above hstrategy
    hfeasible (Option.isSome_iff_ne_none.2 hconflict) hrun hsplits hdistinct
    (List.ne_nil_of_mem hasserts.mem)).exists_ok
  obtain ⟨inv', hs', hstore, q, hpropagators, henforces⟩ := hlearned
  have hasserts' : c.Asserts e'.store.domain ⟨r, A⟩ := by
    rw [hstore, hdomain]
    exact hasserts
  refine ⟨c, A, e', hhandle, hasserts', ⟨q, hpropagators, henforces.holds_iff⟩, ?_, hlost, ?_⟩
  · rw [hstore]
    exact (h₁.atRest inv₁ (hnote.scheduled inv hs)).2
  · refine hs'.enforces inv' (hpropagators ▸ List.mem_append_right _ (List.mem_singleton_self q))
      henforces hasserts' (fun l hl => ?_) ?_
    · rw [hstore]
      exact (hsplits l hl).isRoot
    · intro v hv k hk
      have hv : e.store.has v = true := by
        rw [hstore, Store.has_congr (alike_goBack _ level).vars] at hv
        rwa [← (Store.maps_restore e.store level).has v]
      rw [hstore, hcontinues.initial v hv] at hk
      exact hbelow v hv k hk

end Engine

end FiniteDomain
