import Mathlib.Tactic
import FiniteDomain.Proofs.Engine.Analysis

/-!
The resolution of a conflict ends.

The literals of a reason were false before the update that it explains.  So what a round
adds to a clause became false earlier than the update that is resolved.  Where a reason is
united with a literal that became false later, that was not for a propagator, since the
latest such update is resolved.

* `Resolution.Pending`: the clauses in between, and a bound for the positions that are
  still to be resolved, with `Resolution.pending_resolve`: the bound gets smaller;
* `Resolution.descending_positions`: the positions resolved get smaller;
* `Resolution.exists_loop`: the rounds come to an end, with literals that no propagator
  made false;
* `Engine.resolveConflict_spec`: the clause in the end.
-/

namespace FiniteDomain

namespace Resolution

variable {e : Engine} {s : Store} {c c' : Clause} {l : Literal} {v root : VarId} {k : Int}
  {p bound n : Nat} {u : Update} {q : Propagator} {x : Explanation} {constraint : Constraint}

/-- All values of the clause are lost, and those that a propagator took last were lost
before a position. -/
structure Pending (s : Store) (c : Clause) (bound : Nat) : Prop where
  distinct : c.Distinct
  onRoots : OnRoots s c
  initial : ∀ v k, c.Allows v k → k ∈ s.initial v
  lost : ∀ v k, c.Allows v k → k ∉ s.domain v
  below : ∀ l ∈ c, ∀ p, position? s l = some p → Caused s p → p < bound

lemma Pending.falsifies (w : s.WellFormed) (h : Pending s c bound) (hl : l ∈ c)
    (hp : position? s l = some p) : s.Falsifies l.var l.allowed p :=
  w.falsifies_of_falsified? (h.onRoots.isRoot hl) (fun k hk => h.lost l.var k ⟨l, hl, rfl, hk⟩)
    (position?_eq_some.1 hp).1

lemma Pending.filter (h : Pending s c bound) (f : Literal → Bool) :
    Pending s (c.filter f) bound := by
  have hallows : ∀ {v k}, Clause.Allows (c.filter f) v k → c.Allows v k := by
    rintro v k ⟨l, hl, hv, hk⟩
    exact ⟨l, List.mem_of_mem_filter hl, hv, hk⟩
  exact ⟨h.distinct.filter f, h.onRoots.filter f, fun v k hk => h.initial v k (hallows hk),
    fun v k hk => h.lost v k (hallows hk), fun l hl => h.below l (List.mem_of_mem_filter hl)⟩

/-! ### Reasons -/

section Reasons

variable {r : Request} (w : s.WellFormed) (h : s.Explains constraint p r x)
  (hbelow : ∀ v, s.has v = true → ∀ k, k ∈ s.initial v → k < Value.greatest)

include w h

lemma mem_initial_of_reason (hk : (reason s x).Allows v k) : k ∈ s.initial v := by
  obtain ⟨l, hl, rfl, hmem⟩ := allows_reason.1 hk
  exact w.mem_initial_of_mem_onRoot (h.has l hl) hmem

include hbelow

/-- Away from the pivot, reasons are lost before the position. -/
lemma lost_of_reason (hv : v ≠ s.root r.var) (hk : (reason s x).Allows v k) :
    k ∉ s.domainAt v p := by
  obtain ⟨l, hl, rfl, hmem⟩ := allows_reason.1 hk
  have hhas := h.has l hl
  rcases Explanation.mem_clause.1 hl with hlit | hpivot
  · exact w.not_mem_of_mem_onRoot hhas (hbelow _ (w.has_root hhas)) (h.falsified l hlit) hmem
  · obtain ⟨l', hl', hvar, -⟩ := h.pivot
    rw [hl'] at hpivot
    cases hpivot
    exact absurd (congrArg s.root hvar) hv

/-- On the root of the pivot, the values of a reason are lost before the position, or kept
by the request. -/
lemma kept_of_reason (hk : (reason s x).Allows (s.root r.var) k)
    (hin : k ∈ s.domainAt (s.root r.var) p) :
    (s.chain r.var).value k ∈ s.domainAfter r.var p := by
  obtain ⟨l, hl, hroot, hk⟩ := allows_reason.1 hk
  have hhas := h.has l hl
  rcases Explanation.mem_clause.1 hl with hlit | hpivot
  · have hlost := w.not_mem_of_mem_onRoot hhas (hbelow _ (w.has_root hhas)) (h.falsified l hlit) hk
    rw [← hroot] at hin
    exact absurd hin hlost
  · obtain ⟨l', hl', hvar, hkept⟩ := h.pivot
    rw [hl'] at hpivot
    cases hpivot
    have hvalue := w.value_mem_of_mem_onRoot hhas (hbelow _ (w.has_root hhas)) hk
    rw [hvar] at hhas hvalue
    rw [w.domainAt_root hhas] at hin
    exact hkept _ hvalue (w.value_mem_domainAt hhas hin)

end Reasons

/-- Where an update kept a value of a view, it kept the value of the root. -/
lemma mem_succ_of_value (w : s.WellFormed) (hu : s.trail.entries[p]? = some u)
    (hin : k ∈ s.domainAt (s.root u.request.var) p)
    (hvalue : (s.chain u.request.var).value k ∈ s.domainAfter u.request.var p) :
    k ∈ s.domainAt (s.root u.request.var) (p + 1) := by
  have hn := w.update p u hu
  have hlt : p < s.length := (Array.getElem?_eq_some_iff.1 hu).1
  rw [Store.domainAfter, if_neg (Nat.ne_of_lt hlt), hn.mem_iff w] at hvalue
  rw [w.domainAt_root hn.has] at hin ⊢
  exact (hn.kept k).2 ⟨hin, hvalue.2⟩

/-! ### Rounds -/

/-- The explanation of the failure is false at the end of the trail. -/
lemma pending_merge {r : Request} (w : s.WellFormed)
    (hbelow : ∀ v, s.has v = true → ∀ k, k ∈ s.initial v → k < Value.greatest)
    (h : s.Explains constraint s.length r x) : Pending s (merge s x []) s.length := by
  have hallows : ∀ {v k}, (merge s x []).Allows v k → (reason s x).Allows v k := by
    intro v k hk
    rwa [merge, Clause.allows_addAll, Clause.allows_nonempty, or_iff_left Clause.not_allows_nil]
      at hk
  refine ⟨Clause.distinct_nil.addAll _, onRoots_merge w h.has,
    fun v k hk => mem_initial_of_reason w h (hallows hk), fun v k hk => ?_, fun l hl p hp _ => ?_⟩
  · rw [w.domain_eq]
    by_cases hv : v = s.root r.var
    · intro hin
      rw [hv] at hin hk
      have hkept := kept_of_reason w h hbelow (hallows hk) hin
      rw [Store.domainAfter, if_pos rfl] at hkept
      exact IntervalSet.not_mem_empty hkept
    · exact lost_of_reason w h hbelow hv (hallows hk)
  · obtain ⟨u, hu, -⟩ := entry_of_position? w ((onRoots_merge w h.has).isRoot hl) hp
    exact (Array.getElem?_eq_some_iff.1 hu).1

/-- A round leaves initial values only. -/
lemma initial_resolve (w : e.store.WellFormed) (h : Pending e.store c bound)
    (hround : Round e c root p u q x) (hk : (resolve e.store x root c).Allows v k) :
    k ∈ e.store.initial v := by
  rw [allows_resolve] at hk
  split at hk
  · exact h.initial v k hk.1
  · exact hk.elim (mem_initial_of_reason w hround.explains) (h.initial v k)

/-- What a round leaves is false. -/
lemma lost_resolve (w : e.store.WellFormed)
    (hbelow : ∀ v, e.store.has v = true → ∀ k, k ∈ e.store.initial v → k < Value.greatest)
    (h : Pending e.store c bound) (hround : Round e c root p u q x)
    (hk : (resolve e.store x root c).Allows v k) : k ∉ e.store.domain v := by
  rw [allows_resolve] at hk
  split at hk
  · exact h.lost v k hk.1
  · rename_i hv
    rcases hk with hk | hk
    · intro hin
      obtain ⟨l, hl, rfl, -⟩ := allows_reason.1 hk
      rw [w.domain_eq] at hin
      have hp : p ≤ e.store.length := Nat.le_of_lt (Array.getElem?_eq_some_iff.1 hround.entry).1
      exact lost_of_reason w hround.explains hbelow (hround.root_request w ▸ hv) hk
        (w.domainAt_antitone (w.has_root (hround.explains.has l hl)) hp hin)
    · exact h.lost v k hk

/-- What a round leaves was made false before the update that it resolved, as far as
propagators made it false. -/
lemma pending_resolve (inv : e.Invariant)
    (hbelow : ∀ v, e.store.has v = true → ∀ k, k ∈ e.store.initial v → k < Value.greatest)
    (h : Pending e.store c bound) (hround : Round e c root p u q x) :
    Pending e.store (resolve e.store x root c) p := by
  have w : e.store.WellFormed := inv.consistent.store
  have hexplains := hround.explains
  have hroot := hround.root_request w
  have hdistinct : (resolve e.store x root c).Distinct := distinct_resolve h.distinct
  have honRoots := hround.onRoots w h.onRoots
  have hlost := fun v k (hk : (resolve e.store x root c).Allows v k) =>
    lost_resolve w hbelow h hround hk
  refine ⟨hdistinct, honRoots, fun v k => initial_resolve w h hround, hlost,
    fun l hl p' hp' hcaused => ?_⟩
  have hvar := honRoots.isRoot hl
  have hfalsifies := w.falsifies_of_falsified? hvar
    (fun k hk => hlost l.var k ⟨l, hl, rfl, hk⟩) (position?_eq_some.1 hp').1
  by_contra hle
  have hle : p ≤ p' := Nat.not_lt.1 hle
  obtain ⟨k, hk, hin⟩ := hfalsifies.before
  have hinp := w.domainAt_antitone hvar.has hle hin
  have hallows : (resolve e.store x root c).Allows l.var k := ⟨l, hl, rfl, hk⟩
  rw [allows_resolve] at hallows
  split at hallows
  · -- the literal that is resolved is false behind `p`, and what the reason adds before
    rename_i hv
    obtain ⟨l₀, hl₀, hvar₀, hp₀⟩ := hround.literal
    have hout := (h.falsifies w hl₀ hp₀).after k <| by
      rw [← h.distinct.allows_iff hl₀, hvar₀, ← hv]
      exact hallows.1
    rw [hvar₀, ← hroot] at hout
    rw [hv, ← hroot] at hinp hallows
    exact hout (mem_succ_of_value w hround.entry hinp
      (kept_of_reason w hexplains hbelow hallows.2 hinp))
  · rename_i hv
    rcases hallows with hallows | ⟨l₀, hl₀, hvar₀, hk₀⟩
    · exact lost_of_reason w hexplains hbelow (hroot ▸ hv) hallows hinp
    -- a literal that became false later was resolved already, or is on the same root
    have hlost₀ : ∀ k, k ∈ l₀.allowed → k ∉ e.store.domain l.var := fun k hk =>
      hvar₀ ▸ h.lost l₀.var k ⟨l₀, hl₀, rfl, hk⟩
    obtain ⟨p₀, hp₀, hge⟩ := w.exists_falsified? hvar hk₀ hin (hlost₀ k hk₀)
    have hfalsifies₀ := w.falsifies_of_falsified? hvar hlost₀ hp₀
    have hlt : p₀ < p' + 1 := by
      refine hfalsifies₀.lt w hvar.has fun j hj => hfalsifies.after j ?_
      rw [← hdistinct.allows_iff hl, allows_resolve, if_neg hv]
      exact .inr ⟨l₀, hl₀, hvar₀, hj⟩
    obtain rfl : p₀ = p' := by omega
    have hle' := hround.latest l₀ hl₀ p₀
      (position?_eq_some.2 ⟨hvar₀ ▸ hp₀, (position?_eq_some.1 hp').2⟩) hcaused
    obtain rfl : p₀ = p := by omega
    obtain ⟨u', hu', hroot'⟩ := w.update_of_falsifies hvar hfalsifies
    rw [hround.entry] at hu'
    cases hu'
    exact hv (hroot'.symm.trans hround.root)

section Loop

variable (inv : e.Invariant)
  (hbelow : ∀ v, e.store.has v = true → ∀ k, k ∈ e.store.initial v → k < Value.greatest)

include inv hbelow

/-- A round makes the bound smaller. -/
lemma pending_round (h : Pending e.store c bound) (hround : round e c = some (p, c')) :
    p < bound ∧ Pending e.store c' p := by
  obtain ⟨root, u, q, x, hspec, rfl⟩ := round_eq_some inv h.onRoots hround
  obtain ⟨l, hl, -, hp⟩ := hspec.literal
  have hstanding : Pending e.store (standing e.store c) bound := h.filter _
  exact ⟨hstanding.below l hl p hp hspec.caused, pending_resolve inv hbelow hstanding hspec⟩

/-- The positions that are resolved become smaller from round to round. -/
lemma descending_positions (h : Pending e.store c bound) (n : Nat) :
    (positions e n c).Pairwise (fun p q => q < p) ∧ ∀ p ∈ positions e n c, p < bound := by
  induction n generalizing c bound with
  | zero => exact ⟨.nil, fun p hp => by cases hp⟩
  | succ n ih =>
    rw [positions]
    split
    · exact ⟨.nil, fun p hp => by cases hp⟩
    · rename_i p c' hround
      obtain ⟨hlt, hnext⟩ := pending_round inv hbelow h hround
      obtain ⟨hpairwise, hbound⟩ := ih hnext
      refine ⟨List.pairwise_cons.2 ⟨hbound, hpairwise⟩, fun i hi => ?_⟩
      rcases List.mem_cons.1 hi with rfl | hi
      · exact hlt
      · exact Nat.lt_trans (hbound i hi) hlt

/-- There are fewer rounds than positions below the bound.  In the end, no propagator made
a literal false. -/
lemma exists_loop (h : Pending e.store c bound) :
    ∃ c', (∀ n, bound < n → loop e n c = .ok (some c')) ∧ Pending e.store c' bound ∧
      ∀ l ∈ c', ∃ p, position? e.store l = some p ∧ ¬ Caused e.store p := by
  induction bound using Nat.strong_induction_on generalizing c with
  | _ bound ih =>
    cases hround : round e c with
    | none =>
      refine ⟨standing e.store c, fun n hn => ?_, h.filter _, fun l hl => ?_⟩
      · obtain ⟨n, rfl⟩ := Nat.exists_eq_succ_of_ne_zero (Nat.ne_of_gt (Nat.zero_lt_of_lt hn))
        exact loop_of_latest_none (latest?_of_round_none inv h.onRoots hround)
      · obtain ⟨p, hp⟩ := Option.isSome_iff_exists.1 (List.mem_filter.1 hl).2
        exact ⟨p, hp, round_eq_none inv h.onRoots hround l hl p hp⟩
    | some next =>
      obtain ⟨p, c'⟩ := next
      obtain ⟨hlt, hnext⟩ := pending_round inv hbelow h hround
      obtain ⟨c'', hloop, hpending, hlits⟩ := ih p hlt hnext
      refine ⟨c'', fun n hn => ?_, ⟨hpending.distinct, hpending.onRoots, hpending.initial,
        hpending.lost, fun l hl q hq hc => ?_⟩, hlits⟩
      · obtain ⟨n, rfl⟩ := Nat.exists_eq_succ_of_ne_zero (Nat.ne_of_gt (Nat.zero_lt_of_lt hn))
        rw [loop_of_round_some hround]
        exact hloop n (by omega)
      · exact Nat.lt_trans (hpending.below l hl q hq hc) hlt

end Loop

/-- The literals of the clause that is learned are the ones in the end. -/
lemma mem_of_mem_finish (h : Pending s c bound) (hl : l ∈ finish s c) :
    l ∈ c ∧ ∃ k, k ∈ l.allowed := by
  rw [finish, Clause.mem_sorted, Clause.nonempty, List.mem_filter] at hl
  obtain ⟨hl, hne⟩ := hl
  obtain ⟨l', hl', rfl⟩ := List.mem_map.1 hl
  have hsame : l'.allowed ∩ s.initial l'.var = l'.allowed := by
    ext k
    rw [IntervalSet.mem_inter]
    exact and_iff_left_of_imp fun hk => h.initial l'.var k ⟨l', hl', rfl, hk⟩
  rw [hsame] at hne ⊢
  refine ⟨hl', IntervalSet.isEmpty_eq_false_iff.1 ?_⟩
  simpa using hne

lemma Pending.distinct_finish (h : Pending s c bound) : (finish s c).Distinct := by
  have hcut : Clause.Distinct (c.map fun l => ⟨l.var, l.allowed ∩ s.initial l.var⟩) :=
    h.distinct.map fun _ => rfl
  exact (hcut.filter _).sorted

end Resolution

namespace Engine

variable {e : Engine}

/-- A decision is an update that no propagator asked for, after the first checkpoint. -/
lemma isDecision_of_not_caused {s : Store} {u : Update} {p : Nat}
    (hu : s.trail.entries[p]? = some u) (hlevel : s.isRootLevel p = false)
    (hcaused : ¬ Resolution.Caused s p) : s.isDecision p u.request = true := by
  have hlt : p < s.length := (Array.getElem?_eq_some_iff.1 hu).1
  have hreq : s.request? p = some u.request := by
    rw [Store.request?, if_neg (Nat.ne_of_lt hlt), hu]
    rfl
  have hnone : u.request.cause.isNone = true := by
    rw [← Option.not_isSome, Bool.not_eq_true']
    exact Bool.eq_false_iff.2 fun h => hcaused ⟨u.request, hreq, h⟩
  rw [Store.isDecision, hnone, hlevel]
  rfl

/-- What is known of a literal of the clause that a conflict leads to. -/
structure Decided (s : Store) (l : Literal) : Prop where
  isRoot : s.IsRoot l.var
  nonempty : ∃ k, k ∈ l.allowed
  initial : ∀ k, k ∈ l.allowed → k ∈ s.initial l.var
  lost : ∀ k, k ∈ l.allowed → k ∉ s.domain l.var
  decision : ∃ p u, s.trail.entries[p]? = some u ∧ u.root = l.var ∧
    s.Falsifies l.var l.allowed p ∧ s.isDecision p u.request = true

/-- The resolution of a failure that a propagator made: the rounds end, the positions get
smaller, and the literals in the end became false with decisions. -/
lemma resolveConflict_spec (inv : e.Invariant)
    (hbelow : ∀ v, e.store.has v = true → ∀ k, k ∈ e.store.initial v → k < Value.greatest)
    {r : Request} (hr : e.store.failure = some r) (hcause : r.cause.isSome = true) :
    ∃ x c, e.explanationOf e.store.length r = some x ∧
      (∀ n, ((Resolution.positions e n (Resolution.merge e.store x [])).Pairwise
          fun p q => q < p) ∧
        ∀ p ∈ Resolution.positions e n (Resolution.merge e.store x []), p < e.store.length) ∧
      (∃ d, ∀ n, e.store.length < n →
        Resolution.loop e n (Resolution.merge e.store x []) = .ok (some d)) ∧
      resolveConflict e = .ok (some c) (e.note (.learned c)) ∧
      c.Distinct ∧ ∀ l ∈ c, Decided e.store l := by
  have w : e.store.WellFormed := inv.consistent.store
  obtain ⟨i, hi⟩ := Option.isSome_iff_exists.1 hcause
  have hreq : e.store.request? e.store.length = some r := by rw [Store.request?, if_pos rfl, hr]
  obtain ⟨q, -, -, hx, hexplains⟩ := inv.explains hreq hi
  have hpending := Resolution.pending_merge w hbelow hexplains
  obtain ⟨c', hloop, hpending', hlits⟩ := Resolution.exists_loop inv hbelow hpending
  have hrounds : e.store.length < Resolution.rounds e.store := by
    rw [Resolution.rounds]
    nlinarith
  refine ⟨_, Resolution.finish e.store c', hx,
    Resolution.descending_positions inv hbelow hpending, ⟨c', hloop⟩, ?_,
    hpending'.distinct_finish, fun l hl => ?_⟩
  · rw [resolveConflict_run, explain_length, hr]
    dsimp only
    rw [hx]
    dsimp only
    rw [hloop _ hrounds]
  · obtain ⟨hl, hne⟩ := Resolution.mem_of_mem_finish hpending' hl
    obtain ⟨p, hp, hcaused⟩ := hlits l hl
    have hroot := hpending'.onRoots.isRoot hl
    obtain ⟨u, hu, hur, -⟩ := Resolution.entry_of_position? w hroot hp
    exact ⟨hroot, hne, fun k hk => hpending'.initial _ k ⟨l, hl, rfl, hk⟩,
      fun k hk => hpending'.lost _ k ⟨l, hl, rfl, hk⟩, p, u, hu, hur,
      hpending'.falsifies w hl hp,
      isDecision_of_not_caused hu (Resolution.position?_eq_some.1 hp).2 hcaused⟩

end Engine

end FiniteDomain
