import Mathlib.Tactic
import FiniteDomain.Proofs.Engine.Resolution

/-!
The clauses that conflicts lead to are consequences of the constraints.

* `Resolution.Catches`: an assignment satisfies the clause with a value that its variable
  has lost, with `Resolution.catches_merge`, `Resolution.catches_standing` and
  `Resolution.catches_resolve`: solutions are caught from round to round;
* `Engine.resolveConflict_run`: the analysis by its outcomes;
* `Engine.holds_of_resolveConflict`: the clause that is learned is a consequence.
-/

namespace FiniteDomain

namespace Resolution

variable {e : Engine} {s : Store} {c c' : Clause} {l : Literal} {v root : VarId} {k : Int}
  {p n : Nat} {u : Update} {q : Propagator} {x : Explanation} {ρ : VarId → Int}

/-! ### Soundness -/

/-- The assignment satisfies the clause with a value that its variable has lost. -/
def Catches (s : Store) (ρ : VarId → Int) (c : Clause) : Prop :=
  ∃ v, c.Allows v (ρ v) ∧ ρ v ∉ s.domain v

/-- Some literal of the explanation holds.  Its variable had lost the value already, or it
is the pivot, and kept the value. -/
lemma exists_reason {constraint : Constraint} {r : Request} (w : s.WellFormed)
    (h : s.Explains constraint p r x) (hρ : s.Initial ρ) (hholds : constraint.Holds (s.value ρ)) :
    ∃ v, s.has v = true ∧ (reason s x).Allows (s.root v) (ρ (s.root v)) ∧
      (s.value ρ v ∈ s.domainAt v p → v = r.var ∧ s.value ρ v ∈ s.domainAfter v p) := by
  obtain ⟨l, hl, hk⟩ := h.implied ρ hρ hholds
  refine ⟨l.var, h.has l hl, allows_reason.2 ⟨l, hl, rfl, w.holds_onRoot hρ (h.has l hl) hk⟩,
    fun hin => ?_⟩
  rcases Explanation.mem_clause.1 hl with hlit | hpivot
  · exact absurd hin (h.falsified l hlit _ hk)
  · obtain ⟨l', hl', hvar, hkept⟩ := h.pivot
    rw [hl'] at hpivot
    cases hpivot
    rw [← hvar] at hkept
    exact ⟨hvar, hkept _ hk hin⟩

/-- A root has lost its value if a variable on it has. -/
lemma root_not_mem (w : s.WellFormed) (hv : s.has v = true) (hp : p ≤ s.length)
    (h : s.value ρ v ∉ s.domainAt v p) : ρ (s.root v) ∉ s.domain (s.root v) := by
  intro hin
  rw [w.domain_eq] at hin
  have hin := w.domainAt_antitone (w.has_root hv) hp hin
  rw [w.domainAt_root hv] at hin
  exact h (w.value_mem_domainAt hv hin)

/-- The explanation of the failure catches all solutions. -/
lemma catches_merge {constraint : Constraint} {r : Request} (w : s.WellFormed)
    (h : s.Explains constraint s.length r x) (hρ : s.Initial ρ)
    (hholds : constraint.Holds (s.value ρ)) : Catches s ρ (merge s x []) := by
  obtain ⟨v, hv, hallows, hkept⟩ := exists_reason w h hρ hholds
  refine ⟨s.root v, ?_, root_not_mem w hv (Nat.le_refl _) fun hin => ?_⟩
  · rw [merge, Clause.allows_addAll, Clause.allows_nonempty]
    exact .inl hallows
  · have := (hkept hin).2
    rw [Store.domainAfter, if_pos rfl] at this
    exact IntervalSet.not_mem_empty this

/-- A literal with a value that was lost after the first checkpoint stands. -/
lemma mem_standing (w : s.WellFormed) (hroot : s.IsRoot l.var) (hl : l ∈ c) (hk : k ∈ l.allowed)
    (hin : k ∈ s.domainAt l.var (s.trail.extent 0)) (hlost : k ∉ s.domain l.var) :
    l ∈ standing s c := by
  obtain ⟨p, hp, hle⟩ := w.exists_falsified? hroot hk hin hlost
  have hlevel : s.isRootLevel p = false := by
    rw [Bool.eq_false_iff]
    intro hlevel
    rcases Store.isRootLevel_iff.1 hlevel with hzero | hlt
    · rw [Trail.extent_of_level_le (Nat.le_of_eq hzero)] at hin
      rw [w.domain_eq] at hlost
      exact hlost hin
    · exact absurd hlt (Nat.not_lt.2 hle)
  refine List.mem_filter.2 ⟨hl, ?_⟩
  rw [position?_eq_some.2 ⟨hp, hlevel⟩]
  rfl

/-- A value that was lost after the first checkpoint keeps its literal. -/
lemma catches_standing (w : s.WellFormed) (hroots : OnRoots s c)
    (hρ : s.Within (s.trail.extent 0) ρ) (h : Catches s ρ c) : Catches s ρ (standing s c) := by
  obtain ⟨v, ⟨l, hl, rfl, hk⟩, hlost⟩ := h
  have hroot := hroots.isRoot hl
  exact ⟨l.var, ⟨l, mem_standing w hroot hl hk (hρ l.var hroot) hlost, rfl, hk⟩, hlost⟩

/-- Resolving with a consequence loses no solution. -/
lemma catches_resolve (w : e.store.WellFormed) (hround : Round e c root p u q x)
    (hρ : e.store.Initial ρ) (hholds : q.constraint.Holds (e.store.value ρ))
    (h : Catches e.store ρ c) : Catches e.store ρ (resolve e.store x root c) := by
  obtain ⟨v, hv, hlost⟩ := h
  by_cases hroot : v = root
  · have hp : p ≤ e.store.length := Nat.le_of_lt (Array.getElem?_eq_some_iff.1 hround.entry).1
    obtain ⟨v', hv', hallows, hkept⟩ := exists_reason w hround.explains hρ hholds
    by_cases hsame : e.store.root v' = root
    · -- the pivot allows the value as well
      refine ⟨root, allows_resolve.2 ?_, hroot ▸ hlost⟩
      rw [if_pos rfl]
      exact ⟨hroot ▸ hv, hsame ▸ hallows⟩
    · refine ⟨e.store.root v', allows_resolve.2 ?_, root_not_mem w hv' hp fun hin => hsame ?_⟩
      · rw [if_neg hsame]
        exact .inl hallows
      · rw [(hkept hin).1]
        exact hround.root_request w
  · refine ⟨v, allows_resolve.2 ?_, hlost⟩
    rw [if_neg hroot]
    exact .inr hv

lemma catches_loop (inv : e.Invariant) (hρ : e.store.Within (e.store.trail.extent 0) ρ)
    (hholds : ∀ q ∈ e.propagators, q.constraint.Holds (e.store.value ρ))
    (hroots : OnRoots e.store c) (hc : Catches e.store ρ c)
    (h : loop e n c = .ok (some c')) : Catches e.store ρ c' := by
  have w := inv.consistent.store
  refine (loop_keeps inv (fun c hroots hc => catches_standing w hroots hρ hc)
    (fun c root p u q x _ hround hc => ?_) hroots hc h).2
  exact catches_resolve w hround (w.initial_of_within hρ) (hholds q hround.mem) hc

lemma onRoots_merge (w : s.WellFormed) (hx : ∀ l ∈ x.clause, s.has l.var = true) :
    OnRoots s (merge s x []) :=
  OnRoots.addAll (fun _ hv => absurd hv List.not_mem_nil) ((onRoots_reason w hx).filter _)

lemma onRoots_loop (inv : e.Invariant) (hroots : OnRoots e.store c)
    (h : loop e n c = .ok (some c')) : OnRoots e.store c' :=
  (loop_keeps (P := fun _ => True) inv (fun _ _ _ => trivial) (fun _ _ _ _ _ _ _ _ _ => trivial)
    hroots trivial h).1

lemma allows_finish : (finish s c).Allows v k ↔ c.Allows v k ∧ k ∈ s.initial v := by
  rw [finish, Clause.allows_sorted, Clause.allows_nonempty]
  constructor
  · rintro ⟨l', hl', rfl, hk⟩
    obtain ⟨l, hl, rfl⟩ := List.mem_map.1 hl'
    obtain ⟨hk, hin⟩ := IntervalSet.mem_inter.1 hk
    exact ⟨⟨l, hl, rfl, hk⟩, hin⟩
  · rintro ⟨⟨l, hl, rfl, hk⟩, hin⟩
    exact ⟨_, List.mem_map_of_mem hl, rfl, IntervalSet.mem_inter.2 ⟨hk, hin⟩⟩

end Resolution

namespace Engine

variable {e e' : Engine} {c : Clause} {ρ : VarId → Int}

/-- The resolution of the conflict, by its outcomes. -/
lemma resolveConflict_run (e : Engine) : resolveConflict e =
    match e.explain e.store.length with
    | .error m => .error (.misuse m) e
    | .ok none => .ok none e
    | .ok (some x) =>
      match Resolution.loop e (Resolution.rounds e.store) (Resolution.merge e.store x []) with
      | .error fault => .error fault e
      | .ok none => .ok none e
      | .ok (some c) =>
        .ok (some (Resolution.finish e.store c))
          (e.note (.learned (Resolution.finish e.store c))) := by
  have hrun : ∀ k : Engine → Action (Option Clause), (get >>= k) e = k e e := fun _ => rfl
  rw [resolveConflict, hrun]
  cases e.explain e.store.length with
  | error m => rfl
  | ok o =>
    cases o with
    | none => rfl
    | some x =>
      dsimp only
      rcases Resolution.loop e (Resolution.rounds e.store) (Resolution.merge e.store x []) with
        fault | _ | c <;> rfl

/-- The resolution of the conflict leaves the engine as it is, or adds a note. -/
lemma ends_resolveConflict {Q : Engine → Prop} (hsame : Q e)
    (hnote : ∀ c, Q (e.note (.learned c))) :
    Ends resolveConflict e (fun _ => Q) fun _ => Q := by
  rw [Ends, resolveConflict_run]
  cases e.explain e.store.length with
  | error m => exact hsame
  | ok o =>
    cases o with
    | none => exact hsame
    | some x =>
      dsimp only
      rcases Resolution.loop e (Resolution.rounds e.store) (Resolution.merge e.store x []) with
        fault | _ | c
      · exact hsame
      · exact hsame
      · exact hnote _

lemma analyse_eq : analyse e =
    (Action.require e.isFailed .analysisWithoutFailure >>= fun _ => resolveConflict) e := rfl

lemma analyse_of_isFailed (h : e.isFailed = true) : analyse e = resolveConflict e := by
  have hpass : (Action.require true .analysisWithoutFailure >>= fun _ => resolveConflict) e =
      resolveConflict e := rfl
  rw [analyse_eq, h, hpass]

/-- Only a failure is analysed. -/
lemma isFailed_of_analyse {r : Option Clause} (h : analyse e = .ok r e') : e.isFailed = true := by
  cases hfailed : e.isFailed with
  | true => rfl
  | false =>
    rw [analyse_eq, hfailed] at h
    cases h

/-- The explanation of the failure. -/
lemma explain_length : e.explain e.store.length = match e.store.failure with
    | none => .error (.noUpdate e.store.length)
    | some r => .ok (e.explanationOf e.store.length r) := by
  have hrequest : e.store.request? e.store.length = e.store.failure := if_pos rfl
  cases hfailure : e.store.failure with
  | none => simp only [explain, hrequest, hfailure]
  | some r => simp only [explain, hrequest, hfailure]

/-- What the resolution of a conflict ran through, if it led to a clause. -/
lemma resolveConflict_eq_ok (h : resolveConflict e = .ok (some c) e') :
    ∃ r x c', e.store.failure = some r ∧ e.explanationOf e.store.length r = some x ∧
      Resolution.loop e (Resolution.rounds e.store) (Resolution.merge e.store x []) =
        .ok (some c') ∧
      c = Resolution.finish e.store c' ∧ e' = e.note (.learned c) := by
  rw [resolveConflict_run, explain_length] at h
  cases hr : e.store.failure with
  | none =>
    rw [hr] at h
    cases h
  | some r =>
    rw [hr] at h
    dsimp only at h
    cases hx : e.explanationOf e.store.length r with
    | none =>
      rw [hx] at h
      cases h
    | some x =>
      rw [hx] at h
      dsimp only at h
      rcases hloop : Resolution.loop e (Resolution.rounds e.store)
          (Resolution.merge e.store x []) with fault | _ | c' <;> rw [hloop] at h <;> cases h
      exact ⟨r, x, c', rfl, hx, hloop, rfl, rfl⟩

/-- The explanation of the failure is valid for a propagator. -/
lemma Invariant.explains_failure (inv : e.Invariant) {r : Request} {x : Explanation}
    (hr : e.store.failure = some r) (hx : e.explanationOf e.store.length r = some x) :
    ∃ q ∈ e.propagators, e.store.Explains q.constraint e.store.length r x := by
  have hreq : e.store.request? e.store.length = some r := by rw [Store.request?, if_pos rfl, hr]
  cases hcause : r.cause with
  | none =>
    rw [explanationOf, hcause] at hx
    cases hx
  | some i =>
    obtain ⟨q, hq, -, hx', hexplains⟩ := inv.explains hreq hcause
    rw [hx] at hx'
    cases hx'
    rw [propagator?_eq] at hq
    exact ⟨q, List.mem_of_getElem? hq, hexplains⟩

/-- The clause that a conflict leads to follows from the constraints and the domains
before the first checkpoint. -/
lemma holds_of_resolveConflict (inv : e.Invariant) (h : resolveConflict e = .ok (some c) e')
    (hρ : e.store.Within (e.store.trail.extent 0) ρ)
    (hholds : ∀ q ∈ e.propagators, q.constraint.Holds (e.store.value ρ)) :
    c.Holds (e.store.value ρ) := by
  have w := inv.consistent.store
  obtain ⟨r, x, c', hr, hx, hloop, rfl, -⟩ := resolveConflict_eq_ok h
  obtain ⟨q, hq, hexplains⟩ := inv.explains_failure hr hx
  have hinitial : e.store.Initial ρ := w.initial_of_within hρ
  have hroots := Resolution.onRoots_merge w hexplains.has
  have hcatches := Resolution.catches_merge w hexplains hinitial (hholds q hq)
  obtain ⟨v, hv, -⟩ := Resolution.catches_loop inv hρ hholds hroots hcatches hloop
  have hroot : e.store.IsRoot v := by
    obtain ⟨l, hl, rfl, -⟩ := hv
    exact (Resolution.onRoots_loop inv hroots hloop).isRoot hl
  refine Clause.holds_iff_allows.2 ⟨v, ?_⟩
  rw [hroot.value_eq]
  exact Resolution.allows_finish.2 ⟨hv, hinitial v hroot⟩

end Engine

end FiniteDomain
