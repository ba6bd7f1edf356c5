import Mathlib.Tactic
import FiniteDomain.Engine.Learning
import FiniteDomain.Proofs.ClauseBuilder
import FiniteDomain.Proofs.Engine.Analysis
import FiniteDomain.Proofs.Engine.Posting

/-!
Clauses that are built, and clauses that are learned.

* `Engine.Adds`: the engine after a clause was posted, with `Engine.adds_build` and
  `Engine.adds_addLearned`;
* `Engine.keeps_analyse`: the analysis of a conflict changes accounts only;
* `Engine.Learns`: the engine after a conflict was handled, with
  `Engine.learns_handleConflict`: solutions of the old constraints are solutions of the
  learned one, and no conflict of a problem with solutions shows that it has none.
-/

namespace FiniteDomain

namespace Engine

variable {e e' e'' : Engine} {b : ClauseBuilder} {c : Clause} {ρ : VarId → Int} {level : Nat}

/-! ### Clauses that are built -/

/-- New propagators stand for what some assignments satisfy, among them those with `P`.
The problem is only said to have no solution when no assignment has `P`. -/
structure Adds (P : (VarId → Int) → Prop) (e e' : Engine) : Prop where
  invariant : e'.Invariant
  store : e'.store = e.store
  propagators : ∃ new, e'.propagators = e.propagators ++ new
  sound : ∀ values, P values → e'.infeasible = e.infeasible ∧
    ∀ q ∈ e'.propagators, q ∈ e.propagators ∨ q.constraint.Holds values

/-- Nothing was added, and assignments with `P` show why not. -/
def Refuses (P : (VarId → Int) → Prop) (e e' : Engine) (reason : PostError) : Prop :=
  e'.propagators = e.propagators ∧ ∀ values, P values → ¬ Condemns reason

variable {P P' : (VarId → Int) → Prop}

lemma Adds.continues (h : Adds P e e') : e.store.Continues e'.store := by
  rw [h.store]
  exact .refl _

lemma Adds.mono (h : Adds P e e') (hP : ∀ values, P' values → P values) : Adds P' e e' :=
  ⟨h.invariant, h.store, h.propagators, fun values hvalues => h.sound values (hP values hvalues)⟩

/-- Accounts do not matter. -/
lemma Adds.of_alike (h : Adds P e' e'') (halike : Alike e e') (hstore : e'.store = e.store) :
    Adds P e e'' where
  invariant := h.invariant
  store := h.store.trans hstore
  propagators := halike.propagators ▸ h.propagators
  sound values hvalues := by
    rw [← halike.infeasible, ← halike.propagators]
    exact h.sound values hvalues

/-- Notes aside, nothing happens. -/
lemma adds_note (inv : e.Invariant) (n : Note) : Adds P e (e.note n) :=
  ⟨(alike_note e n).invariant inv, rfl, ⟨[], (List.append_nil _).symm⟩,
    fun _ _ => ⟨rfl, fun _ => .inl⟩⟩

/-- What no assignment satisfies. -/
lemma adds_declareInfeasible (inv : e.Invariant) (hfalse : ∀ values, ¬ P values) :
    Ends declareInfeasible e (fun _ e' => Adds P e e' ∧ ∀ reason, Refuses P e e' reason)
      fun _ _ => False := by
  have hadds : Adds P e { e.note .infeasible with infeasible := true } :=
    ⟨⟨inv.consistent, inv.ready, inv.failed⟩, rfl, ⟨[], (List.append_nil _).symm⟩,
      fun values h => absurd h (hfalse values)⟩
  exact ends_modify ⟨hadds, fun _ => ⟨rfl, fun values h => absurd h (hfalse values)⟩⟩

/-- A constraint that all assignments with `P` satisfy. -/
lemma adds_post {constraint : Constraint} {n : Note} (inv : e.Invariant)
    (himplied : ∀ values, P values → constraint.Holds values) (hfits : constraint.Fits) :
    Ends (post [constraint]) (e.note n)
      (fun r e' => Adds P e e' ∧ ∀ reason, r = .error reason → Refuses P e e' reason)
      fun _ e' => Adds P e e' ∧ e'.propagators = e.propagators := by
  have hadds : ∀ {e'}, Posts [constraint] (e.note n) e' → Adds P e e' := by
    intro e' h
    have hpropagators : ∃ new, e'.propagators = e.propagators ++ new := by
      obtain ⟨new, hnew, -⟩ := h.propagators
      exact ⟨new, hnew⟩
    refine ⟨h.invariant, h.store, hpropagators,
      fun values hvalues => ⟨h.infeasible, fun q hq => ?_⟩⟩
    refine (h.exists_constraint hq).imp_right ?_
    rintro ⟨c, hc, hstands⟩
    rw [List.mem_singleton.1 (List.mem_of_mem_take hc)] at hstands
    exact (hstands values).2 (himplied values hvalues)
  have hpropagators : ∀ {e'}, Posts [constraint] (e.note n) e' →
      e'.propagators.length < (e.note n).propagators.length + 1 →
      e'.propagators = e.propagators := by
    intro e' h hlt
    obtain ⟨new, hnew, -⟩ := h.propagators
    have hnil : new = [] := by
      rw [hnew, List.length_append] at hlt
      exact List.eq_nil_of_length_eq_zero (by omega)
    rw [hnew, hnil, List.append_nil]
    rfl
  refine (posts_post ((alike_note e n).invariant inv) (List.forall_mem_singleton.2 hfits)).mono
    (fun r e' h => ⟨hadds h.1, fun reason hr => ?_⟩)
    fun _ e' h => ⟨hadds h.1, hpropagators h.1 h.2⟩
  obtain ⟨hlt, hreason⟩ := h.2 reason hr
  exact ⟨hpropagators h.1 hlt, fun _ _ => hreason⟩

/-- The clause of a builder. -/
lemma adds_build (inv : e.Invariant) (b : ClauseBuilder) :
    Ends (build b) e
      (fun r e' => Adds (fun values => b.result.Holds values) e e' ∧
        ∀ reason, r = .error reason → Refuses (fun values => b.result.Holds values) e e' reason)
      fun _ e' => Adds (fun values => b.result.Holds values) e e' ∧
        e'.propagators = e.propagators := by
  rw [build]
  split <;> rename_i hresult <;> rw [hresult]
  · exact ends_bind_modify (ends_pure ⟨adds_note inv _, nofun⟩)
  · exact ends_bind_modify (ends_pure ⟨adds_note inv _, nofun⟩)
  · exact Ends.bind ((adds_declareInfeasible inv fun _ => id).mono (fun _ _ h => h)
      fun _ _ h => h.elim) fun _ e' h => ends_pure ⟨h.1, fun reason _ => h.2 reason⟩
  · exact Ends.bind ((adds_declareInfeasible inv fun _ => id).mono (fun _ _ h => h)
      fun _ _ h => h.elim) fun _ e' h => ends_pure ⟨h.1, fun reason _ => h.2 reason⟩
  · rename_i l
    refine ends_bind_modify ?_
    exact adds_post inv (fun _ => id) trivial
  · rename_i c
    refine ends_bind_modify ?_
    exact adds_post inv (fun _ => id) trivial

/-! ### Conflicts -/

lemma alike_resolveConflict (e : Engine) :
    Ends resolveConflict e (fun _ e' => Alike e e') fun _ e' => Alike e e' :=
  ends_resolveConflict (.refl e) fun _ => alike_note e _

lemma keeps_analyse (inv : e.Invariant) : Keeps analyse e := by
  rw [analyse]
  refine keeps_get (keeps_require inv fun _ => ?_)
  exact (alike_resolveConflict e).mono (fun _ _ h => ⟨h.invariant inv, h.follows⟩)
    fun _ _ h => ⟨h.invariant inv, h.follows⟩

/-- The clause that is learned, if there is one, comes from the resolution. -/
lemma learn_spec (e : Engine) :
    Ends learn e
      (fun r e' => Alike e e' ∧ ∀ c, r = some c → resolveConflict e = .ok (some c) e')
      fun _ e' => Alike e e' := by
  rw [learn]
  refine ends_bind_get ?_
  split
  · have h := alike_resolveConflict e
    rw [Ends] at h ⊢
    cases hrun : resolveConflict e with
    | ok r e' =>
      rw [hrun] at h
      exact ⟨h, fun c hr => congrArg (EStateM.Result.ok · e') hr⟩
    | error x e' =>
      rw [hrun] at h
      exact h
  · exact ends_pure ⟨.refl e, fun c hc => by cases hc⟩

/-- The variables of the clause that a conflict leads to are roots. -/
lemma onRoots_of_resolveConflict (inv : e.Invariant)
    (h : resolveConflict e = .ok (some c) e') : Resolution.OnRoots e.store c := by
  have w := inv.consistent.store
  obtain ⟨r, x, c', hr, hx, hloop, rfl, -⟩ := resolveConflict_eq_ok h
  obtain ⟨q, hq, hexplains⟩ := inv.explains_failure hr hx
  have hroots := Resolution.onRoots_loop inv (Resolution.onRoots_merge w hexplains.has) hloop
  intro v hv
  obtain ⟨l, hl, rfl⟩ := List.mem_map.1 hv
  rw [Resolution.finish, Clause.mem_sorted] at hl
  obtain ⟨l', hl', rfl⟩ := List.mem_map.1 (List.mem_of_mem_filter hl)
  exact hroots.isRoot (l := l') hl'

/-- The values of an assignment that satisfies the clause. -/
def Satisfying (s : Store) (c : Clause) (values : VarId → Int) : Prop :=
  ∃ ρ, s.Initial ρ ∧ values = s.value ρ ∧ c.Holds values

/-- A learned clause. -/
lemma adds_addLearned (inv : e.Invariant) (hc : ∀ l ∈ c, e.store.has l.var = true) :
    Ends (addLearned c) e
      (fun r e' => Adds (Satisfying e.store c) e e' ∧
        ∀ reason, r = .error reason → Refuses (Satisfying e.store c) e e' reason)
      fun _ e' => Adds (Satisfying e.store c) e e' := by
  rw [addLearned]
  split
  · rename_i hempty
    have hfalse : ∀ values, ¬ Satisfying e.store c values := by
      rintro values ⟨ρ, -, -, hholds⟩
      rw [List.isEmpty_iff.1 hempty] at hholds
      exact Clause.not_holds_nil hholds
    exact Ends.bind ((adds_declareInfeasible inv hfalse).mono (fun _ _ h => h)
      fun _ _ h => h.elim) fun _ e' h => ends_pure ⟨h.1, fun reason _ => h.2 reason⟩
  · rename_i hne
    let counted : Engine := e.count fun n =>
      { n with
        learnedClauses := n.learnedClauses + 1
        learnedLiterals := n.learnedLiterals + c.length }
    have halike : Alike e counted := alike_count e _
    refine ends_bind_modify ?_
    refine ends_bind_get ?_
    have w : ClauseBuilder.WellFormed { store := e.store } :=
      ⟨inv.consistent.store, Clause.distinct_nil, fun v hv => absurd hv List.not_mem_nil⟩
    let start : ClauseBuilder := { store := e.store }
    obtain ⟨hw, hstore, hstates⟩ := ClauseBuilder.states_nil (b := start) |>.putAll w hc
    have hresult : ∀ values, Satisfying e.store c values →
        (c.foldl (fun b l => ClauseBuilder.put b l) start).result.Holds values := by
      rintro values ⟨ρ, hρ, rfl, h⟩
      refine hstates.result (ρ := ρ) hw ?_ (fun v _ => ?_) ?_
      · rw [hstore]
        exact hρ
      · rw [hstore]
      · rw [List.append_nil, Clause.holds_reverse]
        exact h
    refine (adds_build (halike.invariant inv)
      (c.foldl (fun b l => ClauseBuilder.put b l) start)).mono (fun r e' h => ?_) fun _ e' h => ?_
    · exact ⟨(h.1.mono hresult).of_alike halike rfl, fun reason hr =>
        ⟨(h.2 reason hr).1, fun values hvalues =>
          (h.2 reason hr).2 values (hresult values hvalues)⟩⟩
    · exact (h.1.mono hresult).of_alike halike rfl

/-- The assignment satisfies all constraints within the domains before the first
checkpoint. -/
def Solves (e : Engine) (ρ : VarId → Int) : Prop :=
  e.store.Within (e.store.trail.extent 0) ρ ∧
    ∀ q ∈ e.propagators, q.constraint.Holds (e.store.value ρ)

/-- The engine after a conflict was handled.  What was a solution satisfies the learned
clause. -/
structure Learns (e e' : Engine) : Prop where
  invariant : e'.Invariant
  continues : e.store.Continues e'.store
  isRoot : ∀ v, e'.store.IsRoot v → e.store.IsRoot v
  value : ∀ ρ, e'.store.value ρ = e.store.value ρ
  sound : ∀ ρ, e.Solves ρ → e'.infeasible = e.infeasible ∧
    ∀ q ∈ e'.propagators, q.constraint.Holds (e.store.value ρ)

lemma Learns.of_alike (inv : e.Invariant) (h : Alike e e') : Learns e e' := by
  refine ⟨h.invariant inv, h.follows.store, fun v hv => ?_, fun ρ => ?_,
    fun ρ hρ => ⟨h.infeasible, ?_⟩⟩
  · rwa [Store.IsRoot, h.vars] at hv
  · funext v
    exact Store.value_congr (by rw [Store.root, Store.root, h.vars])
      (by rw [Store.chain, Store.chain, h.vars])
  · rw [h.propagators]
    exact hρ.2

lemma Learns.goBack (h : Learns e e') (hl : level < e'.level) : Learns e (e'.goBack level) := by
  have halike := alike_goBack e' level
  have hmaps := Store.maps_restore e'.store level
  obtain ⟨hinv, hfollows⟩ := invariant_goBack h.invariant hl
  refine ⟨hinv, h.continues.trans hfollows.store, fun v hv => ?_, fun ρ => ?_, fun ρ hρ => ?_⟩
  · rw [Store.IsRoot, halike.vars] at hv
    exact h.isRoot v ((hmaps.isRoot v).1 hv)
  · rw [← h.value]
    funext v
    rw [← Store.value_congr (hmaps.root v) (hmaps.chain v)]
    exact Store.value_congr (by rw [Store.root, halike.vars]; rfl)
      (by rw [Store.chain, halike.vars]; rfl)
  · obtain ⟨hinfeasible, hholds⟩ := h.sound ρ hρ
    rw [halike.infeasible, halike.propagators, propagators_rewound]
    exact ⟨hinfeasible, hholds⟩

/-- A solution satisfies the clause that was added. -/
lemma Learns.adds (h : Learns e e') (hadds : Adds P e' e'')
    (hP : ∀ ρ, e.Solves ρ → P (e.store.value ρ)) : Learns e e'' where
  invariant := hadds.invariant
  continues := h.continues.trans hadds.continues
  isRoot v hv := h.isRoot v (hadds.store ▸ hv)
  value ρ := by rw [hadds.store, h.value]
  sound ρ hρ := by
    obtain ⟨hinfeasible, hnew⟩ := hadds.sound _ (hP ρ hρ)
    obtain ⟨hinfeasible', hholds⟩ := h.sound ρ hρ
    refine ⟨hinfeasible.trans hinfeasible', fun q hq => (hnew q hq).elim (hholds q) id⟩

/-- Handling a conflict keeps the solutions. -/
lemma learns_handleConflict (inv : e.Invariant) (hl : level < e.level) :
    Ends (handleConflict level) e
      (fun r e' => Learns e e' ∧ ∀ reason, r = .error reason → ∀ ρ, e.Solves ρ → ¬ Condemns reason)
      fun _ e' => Learns e e' := by
  have hsame := Learns.of_alike inv (.refl e)
  rw [handleConflict]
  refine ends_bind_get ?_
  refine ends_bind_require hsame fun _ => ?_
  refine Ends.bind ((learn_spec e).mono (fun _ _ h => h) fun _ _ h => .of_alike inv h)
    fun learned e₁ h₁ => ?_
  obtain ⟨halike, hlearned⟩ := h₁
  have hl₁ : level < e₁.level := by
    rw [Engine.level, halike.trail]
    exact hl
  have hlearns₁ := Learns.of_alike inv halike
  have hlearns := hlearns₁.goBack hl₁
  refine Ends.bind (Q := fun _ t => e₁.goBack level = t) (E := fun _ t => Learns e t) ?_ ?_
  · rw [restore]
    exact ends_bind_get (ends_bind_require hlearns₁ fun _ => ends_modify rfl)
  rintro _ _ rfl
  cases learned with
  | none => exact ends_pure ⟨hlearns, fun reason hr => by cases hr⟩
  | some c =>
    have hrun := hlearned c rfl
    have hhas : ∀ l ∈ c, (e₁.goBack level).store.has l.var = true := fun l hl =>
      hlearns.continues.has l.var ((onRoots_of_resolveConflict inv hrun).isRoot hl).has
    have hsatisfying : ∀ ρ, e.Solves ρ →
        Satisfying (e₁.goBack level).store c (e.store.value ρ) := by
      intro ρ hρ
      refine ⟨ρ, fun v hv => ?_, (hlearns.value ρ).symm,
        holds_of_resolveConflict inv hrun hρ.1 hρ.2⟩
      have hroot := hlearns.isRoot v hv
      rw [hlearns.continues.initial v hroot.has]
      exact inv.consistent.store.initial_of_within hρ.1 v hroot
    refine Ends.bind ((adds_addLearned hlearns.invariant hhas).mono (fun _ _ h => h)
      fun _ _ h => hlearns.adds h hsatisfying) fun r e₂ h₂ => ?_
    have hlearns₂ := hlearns.adds h₂.1 hsatisfying
    cases r with
    | error reason =>
      refine ends_pure ⟨hlearns₂, ?_⟩
      intro reason' hr ρ hρ
      cases hr
      exact (h₂.2 reason rfl).2 _ (hsatisfying ρ hρ)
    | ok _ => exact ends_pure ⟨hlearns₂, fun reason hr => by cases hr⟩

end Engine

end FiniteDomain
