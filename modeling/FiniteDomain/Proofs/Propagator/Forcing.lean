import Mathlib.Tactic
import FiniteDomain.Proofs.Propagator.Rest

/-!
Explanations on domains that are closed.

The literals of an explanation are weaker than the grounds that the request was made on.  Still,
no filter misses what they say: on domains at which no request with grounds narrows anything,
an explanation whose other literals are all false leaves its variable no value that the pivot
does not allow.

* `Explanation.Binds`: what is said of an explanation on some domains, with
  `Explanation.binds_of_grounds`: it is enough that the request has grounds there;
* `Count.binds_explain`, `Maximum.binds_explain`, `Member.binds_explain`,
  `Disjunction.binds_explain`: the kinds of propagators one by one;
* `Propagator.binds_explain`: all of them.
-/

namespace FiniteDomain

variable {dom : VarId → IntervalSet} {s : Store} {p : Nat} {v u : VarId} {r : Request}

namespace Explanation

variable {x : Explanation} {scope : List VarId}

/-- The literals but the pivot are on other variables of the scope.  If all of them are false
on the domains, the variable of the pivot only has values there that the pivot allows. -/
structure Binds (x : Explanation) (v : VarId) (scope : List VarId) (dom : VarId → IntervalSet) :
    Prop where
  scope : ∀ l ∈ x.literals, l.var ∈ scope ∧ l.var ≠ v
  kept : (∀ l ∈ x.literals, ∀ k, k ∈ dom l.var → k ∉ l.allowed) →
    ∀ l, x.pivot = some l → ∀ k, k ∈ dom l.var → k ∈ l.allowed

/-- A request with grounds at closed domains is satisfied there. -/
lemma binds_of_grounds {J : Grounds} {d : IntervalSet} (op : Operation) (hclosed : J.Closed dom)
    (hpivot : x.pivot = some ⟨v, d⟩) (hd : ∀ k, k ∈ dom v → op.Holds k → k ∈ d)
    (hlits : ∀ l ∈ x.literals, l.var ∈ scope ∧ l.var ≠ v)
    (hJ : (∀ l ∈ x.literals, ∀ k, k ∈ dom l.var → k ∉ l.allowed) → J dom v op) :
    x.Binds v scope dom := by
  refine ⟨hlits, fun hfalse l hl k hk => ?_⟩
  rw [hpivot] at hl
  cases hl
  exact hd k hk (hclosed v op (hJ hfalse) k hk)

end Explanation

/-! ### Counting -/

namespace Count

variable {c : Count}

/-- A variable without other values than the counted one is fixed to it. -/
lemma fixed_of_false (hin : ∀ x, x ∈ dom u → x ∈ s.initial u)
    (h : ∀ k, k ∈ dom u → k ∉ c.others s u) : c.Fixed dom u := by
  intro x hx
  by_contra hne
  exact h x hx (IntervalSet.mem_erase.2 ⟨hin x hx, hne⟩)

/-- A variable of which the counted value is taken away does not have it. -/
lemma not_mem_of_false (hin : ∀ x, x ∈ dom u → x ∈ s.initial u)
    (h : c.value ∈ s.initial u → ∀ k, k ∈ dom u → k ∉ c.only s u) : c.value ∉ dom u := by
  intro hmem
  have hinitial := hin _ hmem
  exact h hinitial _ hmem (IntervalSet.mem_between.2 ⟨hinitial, le_rfl, le_rfl⟩)

section Binds

variable (w : s.WellFormed) (hscope : ∀ v ∈ c.scope, s.has v = true) (hnodup : c.scope.Nodup)
  (hin : ∀ v ∈ c.scope, ∀ x, x ∈ dom v → x ∈ s.initial v)
  (hclosed : Grounds.Closed c.Justified dom) {k n : Int}

include hnodup in
lemma ne_card (hv : v ∈ c.vars) : v ≠ c.card := Propagator.ne_of_nodup_append hnodup hv

include w hscope hnodup hin hclosed in
lemma binds_atLeast (hk : k ≤ tally c.vars (c.Fixed fun u => s.domainAt u p)) :
    (c.explainByFixed s p none
      (({} : Explanation).addPivot c.card ((s.initial c.card).atLeast k))).Binds
        c.card c.scope dom := by
  have hvars : ∀ v ∈ c.vars, s.has v = true := fun v hv => hscope v (mem_scope_of_mem hv)
  obtain ⟨hpivot, hlits⟩ := explainByFixed_spec (p := p) none
    (({} : Explanation).addPivot c.card ((s.initial c.card).atLeast k)) w hvars
  refine Explanation.binds_of_grounds (.atLeast k) hclosed hpivot (fun j hj hop => ?_)
    (fun l hl => ?_) fun hfalse => ⟨rfl, ?_⟩
  · exact IntervalSet.mem_atLeast.2 ⟨hin _ card_mem_scope j hj, hop⟩
  · rcases (hlits l).1 hl with hl | ⟨u, hu, -, rfl⟩
    · cases hl
    · exact ⟨mem_scope_of_mem hu, ne_card hnodup hu⟩
  · have hle : tally c.vars (c.Fixed fun u => s.domainAt u p) ≤ tally c.vars (c.Fixed dom) := by
      refine tally_mono fun u hu hfix => ?_
      have hlit := hfalse ⟨u, c.others s u⟩ ((hlits _).2 (.inr ⟨u, hu, ⟨by simp, hfix⟩, rfl⟩))
      exact fixed_of_false (hin u (mem_scope_of_mem hu)) hlit
    omega

include hnodup hin hclosed in
lemma binds_atMost (hk : (tally c.vars fun u => c.value ∈ s.domainAt u p : Int) ≤ k) :
    (c.explainByExcluded s p none
      (({} : Explanation).addPivot c.card ((s.initial c.card).atMost k))).Binds
        c.card c.scope dom := by
  obtain ⟨hpivot, hlits⟩ := explainByExcluded_spec (c := c) (p := p) s none
    (({} : Explanation).addPivot c.card ((s.initial c.card).atMost k))
  refine Explanation.binds_of_grounds (.atMost k) hclosed hpivot (fun j hj hop => ?_)
    (fun l hl => ?_) fun hfalse => ⟨rfl, ?_⟩
  · exact IntervalSet.mem_atMost.2 ⟨hin _ card_mem_scope j hj, hop⟩
  · rcases (hlits l).1 hl with hl | ⟨u, hu, -, -, rfl⟩
    · cases hl
    · exact ⟨mem_scope_of_mem hu, ne_card hnodup hu⟩
  · have hle : tally c.vars (fun u => c.value ∈ dom u) ≤
        tally c.vars fun u => c.value ∈ s.domainAt u p := by
      refine tally_mono fun u hu hmem => ?_
      by_contra hout
      refine not_mem_of_false (hin u (mem_scope_of_mem hu)) (fun hinitial => ?_) hmem
      exact hfalse _ ((hlits _).2 (.inr ⟨u, hu, ⟨by simp, hout⟩, hinitial, rfl⟩))
    omega

include hnodup hin hclosed in
lemma binds_equals (hv : v ∈ c.vars)
    (hlt : (tally c.vars fun u => c.value ∈ s.domainAt u p ∧ u ≠ v : Int) < n) :
    ((c.explainByExcluded s p (some v)
      (({} : Explanation).add c.card ((s.initial c.card).atMost (n - 1)))).addPivot v
        (c.only s v)).Binds v c.scope dom := by
  obtain ⟨hpivot, hlits⟩ := explainByExcluded_spec (c := c) (p := p) s (some v)
    (({} : Explanation).add c.card ((s.initial c.card).atMost (n - 1)))
  rw [Explanation.addPivot_of_none (hpivot.trans rfl)]
  refine Explanation.binds_of_grounds (.equals c.value) hclosed rfl (fun j hj hop => ?_)
    (fun l hl => ?_) fun hfalse => ?_
  · have hop : j = c.value := hop
    exact IntervalSet.mem_between.2 ⟨hin v (mem_scope_of_mem hv) j hj, hop.ge, hop.le⟩
  · rcases (hlits l).1 hl with hl | ⟨u, hu, ⟨huv, -⟩, -, rfl⟩
    · rcases List.mem_singleton.1 hl with rfl
      exact ⟨card_mem_scope, (ne_card hnodup hv).symm⟩
    · exact ⟨mem_scope_of_mem hu, fun heq => huv (congrArg some heq)⟩
  · have hothers : tally c.vars (fun u => c.value ∈ dom u ∧ u ≠ v) ≤
        tally c.vars fun u => c.value ∈ s.domainAt u p ∧ u ≠ v := by
      refine tally_mono fun u hu hmem => ⟨?_, hmem.2⟩
      by_contra hout
      refine not_mem_of_false (hin u (mem_scope_of_mem hu)) (fun hinitial => ?_) hmem.1
      exact hfalse _ ((hlits _).2 (.inr ⟨u, hu, ⟨by simpa using hmem.2, hout⟩, hinitial, rfl⟩))
    -- the cardinality is bounded from below by its literal, from above since nothing is left to do
    have hcard : ∀ j, j ∈ dom c.card → j = n := by
      intro j hj
      have hlow := hfalse _ ((hlits _).2 (.inl (List.mem_singleton_self _))) j hj
      rw [IntervalSet.mem_atMost, not_and] at hlow
      have hlow := hlow (hin _ card_mem_scope j hj)
      have hup : j ≤ tally c.vars fun u => c.value ∈ dom u :=
        hclosed c.card (.atMost _) ⟨rfl, le_rfl⟩ j hj
      have hone := tally_le_add_one (List.nodup_append.1 hnodup).1
        (P := fun u => c.value ∈ dom u) v
      omega
    exact ⟨rfl, hv, n, hcard, by omega⟩

include w hscope hnodup hin hclosed in
lemma binds_differs (hv : v ∈ c.vars)
    (hlt : n < (tally c.vars fun u => c.Fixed (fun u => s.domainAt u p) u ∨ u = v : Int)) :
    ((c.explainByFixed s p (some v)
      (({} : Explanation).add c.card ((s.initial c.card).atLeast (n + 1)))).addPivot v
        (c.others s v)).Binds v c.scope dom := by
  have hvars : ∀ v ∈ c.vars, s.has v = true := fun v hv => hscope v (mem_scope_of_mem hv)
  obtain ⟨hpivot, hlits⟩ := explainByFixed_spec (p := p) (some v)
    (({} : Explanation).add c.card ((s.initial c.card).atLeast (n + 1))) w hvars
  rw [Explanation.addPivot_of_none (hpivot.trans rfl)]
  refine Explanation.binds_of_grounds (.differs c.value) hclosed rfl (fun j hj hop => ?_)
    (fun l hl => ?_) fun hfalse => ?_
  · exact IntervalSet.mem_erase.2 ⟨hin v (mem_scope_of_mem hv) j hj, hop⟩
  · rcases (hlits l).1 hl with hl | ⟨u, hu, ⟨huv, -⟩, rfl⟩
    · rcases List.mem_singleton.1 hl with rfl
      exact ⟨card_mem_scope, (ne_card hnodup hv).symm⟩
    · exact ⟨mem_scope_of_mem hu, fun heq => huv (congrArg some heq)⟩
  · have hothers : tally c.vars (fun u => c.Fixed (fun u => s.domainAt u p) u ∨ u = v) ≤
        tally c.vars fun u => c.Fixed dom u ∨ u = v := by
      refine tally_mono fun u hu hor => ?_
      by_cases huv : u = v
      · exact .inr huv
      · have hlit := hfalse ⟨u, c.others s u⟩
          ((hlits _).2 (.inr ⟨u, hu, ⟨by simpa using huv, hor.resolve_right huv⟩, rfl⟩))
        exact .inl (fixed_of_false (hin u (mem_scope_of_mem hu)) hlit)
    have hcard : ∀ j, j ∈ dom c.card → j = n := by
      intro j hj
      have hup := hfalse _ ((hlits _).2 (.inl (List.mem_singleton_self _))) j hj
      rw [IntervalSet.mem_atLeast, not_and] at hup
      have hup := hup (hin _ card_mem_scope j hj)
      have hlow : tally c.vars (c.Fixed dom) ≤ j :=
        hclosed c.card (.atLeast _) ⟨rfl, le_rfl⟩ j hj
      have hone := tally_or_le (List.nodup_append.1 hnodup).1 (P := c.Fixed dom) v
      omega
    exact ⟨rfl, hv, n, hcard, by omega⟩

include w hscope hnodup hin hclosed in
lemma binds_explain (hlen : (c.vars.length : Int) ≤ Value.greatest)
    (hJ : c.Justified (fun v => s.domainAt v p) r.var r.operation) :
    (c.explain s p r).Binds r.var c.scope dom := by
  have hcard : s.has c.card = true := hscope _ card_mem_scope
  obtain ⟨v, op, cause⟩ := r
  cases op with
  | atLeast k =>
    obtain ⟨hvar, hk⟩ := hJ
    have hvar : v = c.card := hvar
    subst hvar
    simp only [explain, if_true]
    exact binds_atLeast w hscope hnodup hin hclosed hk
  | atMost k =>
    obtain ⟨hvar, hk⟩ := hJ
    have hvar : v = c.card := hvar
    subst hvar
    simp only [explain, if_true]
    exact binds_atMost hnodup hin hclosed hk
  | equals k =>
    obtain ⟨hk, hv, n, hn, hlt⟩ := hJ
    have hk : k = c.value := hk
    have hv : v ∈ c.vars := hv
    subst hk
    have hlow : s.lowerAt c.card p = n :=
      hn _ (IntervalSet.lower_mem (w.domainAt_nonempty hcard))
    simp only [explain, ne_eq, ne_card hnodup hv, not_false_eq_true, and_self, if_true]
    rw [hlow, Value.below_of_gt (by rw [Value.least]; omega)]
    exact binds_equals hnodup hin hclosed hv hlt
  | differs k =>
    obtain ⟨hk, hv, n, hn, hlt⟩ := hJ
    have hk : k = c.value := hk
    have hv : v ∈ c.vars := hv
    subst hk
    have hup : s.upperAt c.card p = n :=
      hn _ (IntervalSet.upper_mem (w.domainAt_nonempty hcard))
    have hle : tally c.vars (fun u => c.Fixed (fun u => s.domainAt u p) u ∨ u = v)
        ≤ c.vars.length := tally_le
    dsimp only at hlt
    simp only [explain, ne_eq, ne_card hnodup hv, not_false_eq_true, and_self, if_true]
    rw [hup, Value.above_of_lt (by omega)]
    exact binds_differs w hscope hnodup hin hclosed hv hlt

end Binds

end Count

/-! ### The maximum -/

namespace Maximum

variable {c : Maximum} (w : s.WellFormed) (hscope : ∀ v ∈ c.scope, s.has v = true)
  (hnodup : c.scope.Nodup) (hin : ∀ v ∈ c.scope, ∀ x, x ∈ dom v → x ∈ s.initial v)
  (hclosed : Grounds.Closed c.Justified dom) {k : Int}

include hnodup in
lemma ne_rhs (hv : v ∈ c.array) : v ≠ c.rhs := Propagator.ne_of_nodup_append hnodup hv

/-- A variable of which all values up to a bound are taken away lies above it. -/
lemma lt_of_false (hin : ∀ x, x ∈ dom v → x ∈ s.initial v)
    (h : ∀ j, j ∈ dom v → j ∉ atMost s v (k - 1)) : ∀ x, x ∈ dom v → k ≤ x := by
  intro x hx
  by_contra hlt
  exact h x hx (IntervalSet.mem_atMost.2 ⟨hin x hx, by omega⟩)

/-- A variable of which all values from a bound on are taken away lies below it. -/
lemma gt_of_false (hin : ∀ x, x ∈ dom v → x ∈ s.initial v)
    (h : (∃ j, j ∈ atLeast s v k) → ∀ j, j ∈ dom v → j ∉ atLeast s v k) :
    ∀ x, x ∈ dom v → x < k := by
  intro x hx
  by_contra hle
  have hmem : x ∈ atLeast s v k := IntervalSet.mem_atLeast.2 ⟨hin x hx, Int.not_lt.1 hle⟩
  exact h ⟨x, hmem⟩ x hx hmem

include w hscope hnodup hin hclosed in
lemma binds_atLeast_rhs (hJ : ∃ u ∈ c.array, ∀ x, x ∈ s.domainAt u p → k ≤ x) :
    (c.array.foldl (fun e v =>
        if k ≤ s.lowerAt v p then e.add v (atMost s v (k - 1)) else e)
      (({} : Explanation).addPivot c.rhs (atLeast s c.rhs k))).Binds c.rhs c.scope dom := by
  obtain ⟨hpivot, hlits⟩ := foldl_atMost (s := s) (p := p) (k := k) c.array
    (({} : Explanation).addPivot c.rhs (atLeast s c.rhs k))
  refine Explanation.binds_of_grounds (.atLeast k) hclosed hpivot (fun j hj hop => ?_)
    (fun l hl => ?_) fun hfalse => ?_
  · exact IntervalSet.mem_atLeast.2 ⟨hin _ rhs_mem_scope j hj, hop⟩
  · rcases (hlits l).1 hl with hl | ⟨u, hu, -, rfl⟩
    · cases hl
    · exact ⟨mem_scope_of_mem hu, ne_rhs hnodup hu⟩
  · obtain ⟨u, hu, hlow⟩ := hJ
    have hu' := mem_scope_of_mem hu
    have hlow : k ≤ s.lowerAt u p :=
      hlow _ (IntervalSet.lower_mem (w.domainAt_nonempty (hscope u hu')))
    have hlit := hfalse ⟨u, atMost s u (k - 1)⟩ ((hlits _).2 (.inr ⟨u, hu, hlow, rfl⟩))
    exact .inl ⟨rfl, u, hu, lt_of_false (hin u hu') hlit⟩

include hnodup hin hclosed in
lemma binds_atMost_rhs :
    (c.array.foldl (fun e v => e.addNonempty v (atLeast s v (k + 1)))
      (({} : Explanation).addPivot c.rhs (atMost s c.rhs k))).Binds c.rhs c.scope dom := by
  obtain ⟨hpivot, hlits⟩ := foldl_atLeast (s := s) (k := k + 1) (P := fun _ => True)
    (fun e v => e.addNonempty v (atLeast s v (k + 1))) (fun e v => (if_pos trivial).symm) c.array
    (({} : Explanation).addPivot c.rhs (atMost s c.rhs k))
  refine Explanation.binds_of_grounds (.atMost k) hclosed hpivot (fun j hj hop => ?_)
    (fun l hl => ?_) fun hfalse => .inl ⟨rfl, fun u hu x hx => ?_⟩
  · exact IntervalSet.mem_atMost.2 ⟨hin _ rhs_mem_scope j hj, hop⟩
  · rcases (hlits l).1 hl with hl | ⟨u, hu, -, -, rfl⟩
    · cases hl
    · exact ⟨mem_scope_of_mem hu, ne_rhs hnodup hu⟩
  · have hlt : x < k + 1 := gt_of_false (hin u (mem_scope_of_mem hu))
      (fun hne => hfalse _ ((hlits _).2 (.inr ⟨u, hu, trivial, hne, rfl⟩))) x hx
    omega

include hnodup hin hclosed in
lemma binds_atLeast (hv : v ∈ c.array) :
    ((c.array.foldl (fun e u => if u ≠ v then e.addNonempty u (atLeast s u k) else e)
      (({} : Explanation).add c.rhs (atMost s c.rhs (k - 1)))).addPivot
        v (atLeast s v k)).Binds v c.scope dom := by
  obtain ⟨hpivot, hlits⟩ := foldl_atLeast (s := s) (k := k) (P := fun u => u ≠ v)
    (fun e u => if u ≠ v then e.addNonempty u (atLeast s u k) else e) (fun _ _ => rfl) c.array
    (({} : Explanation).add c.rhs (atMost s c.rhs (k - 1)))
  rw [Explanation.addPivot_of_none (hpivot.trans rfl)]
  have hrhs := (hlits ⟨c.rhs, atMost s c.rhs (k - 1)⟩).2 (.inl (List.mem_singleton_self _))
  refine Explanation.binds_of_grounds (.atLeast k) hclosed rfl (fun j hj hop => ?_)
    (fun l hl => ?_) fun hfalse => .inr ⟨ne_rhs hnodup hv, hv, ?_, fun u hu hne => ?_⟩
  · exact IntervalSet.mem_atLeast.2 ⟨hin _ (mem_scope_of_mem hv) j hj, hop⟩
  · rcases (hlits l).1 hl with hl | ⟨u, hu, hne, -, rfl⟩
    · rcases List.mem_singleton.1 hl with rfl
      exact ⟨rhs_mem_scope, (ne_rhs hnodup hv).symm⟩
    · exact ⟨mem_scope_of_mem hu, hne⟩
  · exact lt_of_false (hin _ rhs_mem_scope) (hfalse _ hrhs)
  · exact gt_of_false (hin u (mem_scope_of_mem hu)) fun hne' =>
      hfalse _ ((hlits _).2 (.inr ⟨u, hu, hne, hne', rfl⟩))

include hnodup hin hclosed in
lemma binds_atMost (hv : v ∈ c.array) :
    ((({} : Explanation).add c.rhs (atLeast s c.rhs (k + 1))).addPivot
      v (atMost s v k)).Binds v c.scope dom := by
  rw [Explanation.addPivot_of_none rfl]
  refine Explanation.binds_of_grounds (.atMost k) hclosed rfl (fun j hj hop => ?_)
    (fun l hl => ?_) fun hfalse => .inr ⟨ne_rhs hnodup hv, hv, fun x hx => ?_⟩
  · exact IntervalSet.mem_atMost.2 ⟨hin _ (mem_scope_of_mem hv) j hj, hop⟩
  · rcases List.mem_singleton.1 hl with rfl
    exact ⟨rhs_mem_scope, (ne_rhs hnodup hv).symm⟩
  · have hlt : x < k + 1 := gt_of_false (hin _ rhs_mem_scope)
      (fun _ => hfalse _ (List.mem_singleton_self _)) x hx
    omega

include w hscope hnodup hin hclosed in
lemma binds_explain (site : s.Site p r)
    (hJ : c.Justified (fun v => s.domainAt v p) r.var r.operation) :
    (c.explain s p r).Binds r.var c.scope dom := by
  obtain ⟨v, op, cause⟩ := r
  cases op with
  | atLeast k =>
    simp only [explain, site.below_eq w]
    rcases hJ with ⟨hv, hJ⟩ | ⟨hv, hmem, -⟩
    · have hv : v = c.rhs := hv
      subst hv
      rw [if_pos rfl]
      exact binds_atLeast_rhs w hscope hnodup hin hclosed hJ
    · rw [if_neg hv]
      exact binds_atLeast hnodup hin hclosed hmem
  | atMost k =>
    simp only [explain, site.above_eq w]
    rcases hJ with ⟨hv, -⟩ | ⟨hv, hmem, -⟩
    · have hv : v = c.rhs := hv
      subst hv
      rw [if_pos rfl]
      exact binds_atMost_rhs hnodup hin hclosed
    · rw [if_neg hv]
      exact binds_atMost hnodup hin hclosed hmem
  | differs k => exact hJ.elim
  | equals k => exact hJ.elim

end Maximum

/-! ### Restrictions to a set -/

/-- A membership that is closed has only values that are allowed. -/
lemma Member.mem_of_closed {c : Member} (h : Grounds.Closed c.Justified dom) :
    ∀ x, x ∈ dom c.var → x ∈ c.allowed := by
  intro x hx
  by_contra hout
  have hdiffers : c.Justified dom c.var (.differs x) :=
    ⟨rfl, fun y _ hy hyx => hout (hyx ▸ hy)⟩
  exact h _ _ hdiffers x hx rfl

lemma Member.binds_explain {c : Member} (hin : ∀ x, x ∈ dom c.var → x ∈ s.initial c.var)
    (hclosed : Grounds.Closed c.Justified dom) : (c.explain s).Binds v c.scope dom := by
  refine ⟨fun l hl => absurd hl List.not_mem_nil, fun _ l hl k hk => ?_⟩
  cases hl
  exact IntervalSet.mem_inter.2 ⟨hin k hk, Member.mem_of_closed hclosed k hk⟩

/-- A disjunction that is closed and has no other possible literal has only values that the
literals on the variable allow. -/
lemma Disjunction.exists_of_closed {c : Disjunction} (h : Grounds.Closed c.Justified dom)
    (hv : ∃ l ∈ c.clause, l.var = v)
    (hfalse : ∀ l ∈ c.clause, l.var ≠ v → ∀ k, k ∈ dom l.var → k ∉ l.allowed) :
    ∀ x, x ∈ dom v → ∃ l ∈ c.clause, l.var = v ∧ x ∈ l.allowed := by
  intro x hx
  by_contra hout
  have hdiffers : c.Justified dom v (.differs x) :=
    ⟨hv, hfalse, fun l hl hvar y _ hy hyx => hout ⟨l, hl, hvar, hyx ▸ hy⟩⟩
  exact h _ _ hdiffers x hx rfl

lemma Disjunction.binds_explain {c : Disjunction} (hclosed : Grounds.Closed c.Justified dom)
    (hv : ∃ l ∈ c.clause, l.var = r.var) : (c.explain r).Binds r.var c.scope dom := by
  have hparted : Explanation.Parted r.var c.clause (c.explain r) := Explanation.parted_partition _ _
  refine ⟨fun l hl => ?_, fun hfalse l hl k hk => ?_⟩
  · obtain ⟨hl, hne⟩ := (hparted.literals l).1 hl
    exact ⟨var_mem_scope hl, hne⟩
  · obtain ⟨hvar, hmem⟩ := hparted.pivot l hl
    rw [hvar] at hk
    exact (hmem k).2 (exists_of_closed hclosed hv
      (fun l' hl' hne => hfalse l' ((hparted.literals l').2 ⟨hl', hne⟩)) k hk)

/-! ### All propagators -/

namespace Propagator

variable {q : Propagator} {m : Memory}

/-- On domains where the propagator has nothing left to do, its explanations restrict. -/
lemma binds_explain (w : s.WellFormed) (hfits : q.Fits s m) (hindep : q.Independent s)
    (site : s.Site p r) (hJ : q.Justified (fun v => s.domainAt v p) r.var r.operation)
    (hin : ∀ v ∈ q.scope, ∀ x, x ∈ dom v → x ∈ s.initial v)
    (hclosed : Grounds.Closed q.Justified dom) :
    (q.explain s p r).Binds r.var q.scope dom := by
  cases q with
  | count c sets => exact Count.binds_explain w hfits.1 hindep.nodup hin hclosed hfits.2.1 hJ
  | maximum c => exact Maximum.binds_explain w hfits hindep.nodup hin hclosed site hJ
  | member c => exact Member.binds_explain (hin c.var Member.var_mem_scope) hclosed
  | disjunction c => exact Disjunction.binds_explain hclosed hJ.1
  | observer o => exact hJ.elim

end Propagator

end FiniteDomain
