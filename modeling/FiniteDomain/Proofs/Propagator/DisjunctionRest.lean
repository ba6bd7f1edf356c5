import Mathlib.Tactic
import FiniteDomain.Proofs.Clause
import FiniteDomain.Proofs.Propagator.Disjunction
import FiniteDomain.Proofs.Settling

/-!
What restrictions to a set reach.

After a call, a membership is settled for good, and a disjunction has a literal that is
certain or two that are possible.  There is one exception: a variable that is fixed to the
greatest of all values can be restricted to anything, since no value is above.

* `Member.Met`, `Disjunction.Met`: nothing is left to do, with `Member.Met.closed` and
  `Disjunction.Met.closed` for domains without the greatest value;
* `Disjunction.Open`: two literals are possible, with `Disjunction.Open.closed`;
* `Disjunction.scan_spec`: what the walk over the literals finds;
* `Member.settles_propagate`, `Disjunction.settles_propagate`: calls reach this;
* `Member.quiet_of_met`, `Disjunction.quiet_of_met`: a call changes no domain then.
-/

namespace FiniteDomain

open FiniteDomain.Filter

variable {dom dom' : VarId → IntervalSet} {v : VarId} {p : PropId} {own : List SetId}

/-! ### Membership -/

namespace Member

variable {c : Member}

/-- All values are allowed, or only the greatest of all values is left. -/
def Met (c : Member) (dom : VarId → IntervalSet) : Prop :=
  (∀ x, x ∈ dom c.var → x ∈ c.allowed) ∨ ∀ x, x ∈ dom c.var → x = Value.greatest

lemma Met.mono (h : c.Met dom) (hsub : ∀ v ∈ c.scope, ∀ x, x ∈ dom' v → x ∈ dom v) :
    c.Met dom' :=
  h.imp (fun h x hx => h x (hsub _ var_mem_scope x hx)) fun h x hx =>
    h x (hsub _ var_mem_scope x hx)

/-- When all values are allowed, nothing can be narrowed. -/
lemma closed_of_mem (h : ∀ x, x ∈ dom c.var → x ∈ c.allowed) :
    Grounds.Closed c.Justified dom := by
  rintro v op ⟨rfl, hJ⟩ x hx
  exact hJ x hx (h x hx)

lemma Met.closed (h : c.Met dom) (hne : ∃ x, x ∈ dom c.var)
    (hbelow : ∀ x, x ∈ dom c.var → x < Value.greatest) : Grounds.Closed c.Justified dom := by
  refine closed_of_mem (h.resolve_right fun hall => ?_)
  obtain ⟨x, hx⟩ := hne
  exact absurd (hall x hx) (ne_of_lt (hbelow x hx))

lemma Met.holds (h : c.Met dom) {values : VarId → Int}
    (hmem : ∀ v ∈ c.scope, values v ∈ dom v)
    (hbelow : ∀ v ∈ c.scope, values v < Value.greatest) : c.Holds values := by
  have hvar := hmem c.var var_mem_scope
  rcases h with h | h
  · exact h _ hvar
  · exact absurd (h _ hvar) (ne_of_lt (hbelow c.var var_mem_scope))

variable {s : Space} (w : s.WellFormed) (hvar : s.store.has c.var = true)

include w hvar in
lemma settles_propagate (hp : p.index < s.memory.activities.size) :
    Settles p own s (c.propagate p) fun _ t =>
      t.memory.activity p = .passive ∧ c.Met t.store.domain := by
  rw [propagate]
  have hrestrict : Settles p own s (discard (restrictTo p c.var c.allowed)) fun _ t =>
      t.memory = s.memory ∧ Store.Restricted c.allowed c.var s.store t.store :=
    settles_discard ((settles_restrictTo w hvar c.allowed).mono fun _ _ _ h => ⟨h.1, h.2.2⟩)
  refine hrestrict.bind fun _ t ht htmem => ?_
  have hp' : p.index < t.memory.activities.size := by rwa [htmem.1]
  refine (settles_setPassive (ht.wellFormed w) hp').mono fun _ u _ hu => ⟨hu.2, ?_⟩
  rw [hu.1]
  exact htmem.2.imp (fun h x hx => ((h x).1 hx).2) And.right

include w hvar in
/-- A call changes no domain when nothing is left to do. -/
lemma quiet_of_met (h : c.Met s.store.domain) :
    ∃ t, c.propagate p s = .ok () t ∧ t.store = s.store := by
  have hrun : ∃ b, restrictTo p c.var c.allowed s = .ok b s := by
    rcases h with h | h
    · exact ⟨_, run_onStore (Store.restrictTo_of_mem w.store hvar h)⟩
    · by_cases hmem : Value.greatest ∈ c.allowed
      · exact ⟨_, run_onStore (Store.restrictTo_of_mem w.store hvar fun x hx => h x hx ▸ hmem)⟩
      · exact ⟨_, run_onStore (Store.restrictTo_of_greatest w.store hvar h hmem)⟩
  obtain ⟨b, hb⟩ := hrun
  exact ⟨_, bind_of_ok (discard_of_ok hb), rfl⟩

end Member

/-! ### Disjunctions -/

namespace Disjunction

variable {c : Disjunction}

/-- Some literal is certain, or all are false, and of the variable of the last one only the
greatest of all values is left. -/
def Met (c : Disjunction) (dom : VarId → IntervalSet) : Prop :=
  (∃ l ∈ c.clause, ∀ x, x ∈ dom l.var → x ∈ l.allowed) ∨
    (∀ l ∈ c.clause, ∀ x, x ∈ dom l.var → x ∉ l.allowed) ∧
      ∀ l, c.clause.getLast? = some l → ∀ x, x ∈ dom l.var → x = Value.greatest

/-- Two literals on different variables are possible. -/
def Open (c : Disjunction) (dom : VarId → IntervalSet) : Prop :=
  ∃ l ∈ c.clause, ∃ l' ∈ c.clause, l.var ≠ l'.var ∧
    (∃ x, x ∈ dom l.var ∧ x ∈ l.allowed) ∧ ∃ x, x ∈ dom l'.var ∧ x ∈ l'.allowed

lemma Met.mono (h : c.Met dom) (hsub : ∀ v ∈ c.scope, ∀ x, x ∈ dom' v → x ∈ dom v) :
    c.Met dom' := by
  rcases h with ⟨l, hl, hall⟩ | ⟨hfalse, hlast⟩
  · exact .inl ⟨l, hl, fun x hx => hall x (hsub _ (var_mem_scope hl) x hx)⟩
  · refine .inr ⟨fun l hl x hx => hfalse l hl x (hsub _ (var_mem_scope hl) x hx),
      fun l hl x hx => hlast l hl x (hsub _ ?_ x hx)⟩
    exact var_mem_scope (List.mem_of_getLast? hl)

lemma Open.congr (h : c.Open dom) (hsame : ∀ v ∈ c.scope, ∀ x, x ∈ dom v → x ∈ dom' v) :
    c.Open dom' := by
  obtain ⟨l, hl, l', hl', hne, ⟨x, hx, hx'⟩, ⟨y, hy, hy'⟩⟩ := h
  exact ⟨l, hl, l', hl', hne, ⟨x, hsame _ (var_mem_scope hl) x hx, hx'⟩,
    ⟨y, hsame _ (var_mem_scope hl') y hy, hy'⟩⟩

lemma Open.closed (h : c.Open dom) : Grounds.Closed c.Justified dom := by
  obtain ⟨l, hl, l', hl', hne, ⟨x, hx, hx'⟩, ⟨y, hy, hy'⟩⟩ := h
  rintro v op ⟨-, hothers, -⟩
  -- one of the two literals is on another variable
  by_cases hv : l.var = v
  · exact absurd hy' (hothers l' hl' (fun e => hne (hv.trans e.symm)) y hy)
  · exact absurd hx' (hothers l hl hv x hx)

lemma closed_of_certain (hne : ∀ v ∈ c.scope, ∃ x, x ∈ dom v)
    (h : ∃ l ∈ c.clause, ∀ x, x ∈ dom l.var → x ∈ l.allowed) :
    Grounds.Closed c.Justified dom := by
  obtain ⟨l, hl, hall⟩ := h
  rintro v op ⟨-, hothers, hop⟩ x hx
  by_cases hv : l.var = v
  · subst hv
    exact hop l hl rfl x hx (hall x hx)
  · obtain ⟨y, hy⟩ := hne _ (var_mem_scope hl)
    exact absurd (hall y hy) (hothers l hl hv y hy)

lemma Met.closed (h : c.Met dom) (hclause : c.clause ≠ [])
    (hne : ∀ v ∈ c.scope, ∃ x, x ∈ dom v)
    (hbelow : ∀ v ∈ c.scope, ∀ x, x ∈ dom v → x < Value.greatest) :
    Grounds.Closed c.Justified dom := by
  refine closed_of_certain hne (h.resolve_right fun hlast => ?_)
  have hmem := var_mem_scope (List.getLast_mem hclause)
  obtain ⟨x, hx⟩ := hne _ hmem
  exact absurd (hlast.2 _ (List.getLast?_eq_getLast_of_ne_nil hclause) x hx)
    (ne_of_lt (hbelow _ hmem x hx))

section Fixed

variable {values : VarId → Int} (hfixed : ∀ v ∈ c.scope, ∀ x, x ∈ dom v ↔ x = values v)

include hfixed

/-- A fixed variable with a value that a literal allows satisfies the literal. -/
lemma holds_of_possible (h : ∃ l ∈ c.clause, ∃ x, x ∈ dom l.var ∧ x ∈ l.allowed) :
    c.Holds values := by
  obtain ⟨l, hl, x, hx, hallowed⟩ := h
  obtain rfl := (hfixed l.var (var_mem_scope hl) x).1 hx
  exact ⟨l, hl, hallowed⟩

lemma Open.holds (h : c.Open dom) : c.Holds values := by
  obtain ⟨l, hl, -, -, -, hpossible, -⟩ := h
  exact holds_of_possible hfixed ⟨l, hl, hpossible⟩

end Fixed

/-- When nothing is left to do, all values of the domains below the greatest one satisfy the
constraint. -/
lemma Met.holds {values : VarId → Int} (h : c.Met dom) (hclause : c.clause ≠ [])
    (hmem : ∀ v ∈ c.scope, values v ∈ dom v)
    (hbelow : ∀ v ∈ c.scope, values v < Value.greatest) : c.Holds values := by
  rcases h with ⟨l, hl, hcertain⟩ | ⟨-, hlast⟩
  · exact ⟨l, hl, hcertain _ (hmem _ (var_mem_scope hl))⟩
  · have hl := var_mem_scope (List.getLast_mem hclause)
    have hgreatest := hlast _ (List.getLast?_eq_some_getLast hclause) _ (hmem _ hl)
    exact absurd hgreatest (ne_of_lt (hbelow _ hl))

/-- What the walk over the literals says of the domains. -/
def Tells (c : Disjunction) (dom : VarId → IntervalSet) : State → Prop
  | .satisfied => ∃ l ∈ c.clause, ∀ x, x ∈ dom l.var → x ∈ l.allowed
  | .undecided => c.Open dom
  | .unit l => l ∈ c.clause ∧ ((∃ x, x ∈ dom l.var ∧ x ∈ l.allowed) ∨
      (∀ k ∈ c.clause, ∀ x, x ∈ dom k.var → x ∉ k.allowed) ∧ c.clause.getLast? = some l)

/-- The walk over the rest of the literals, of which those seen are false but for the one
that was found. -/
lemma scan_spec {store : Store} {seen rest : Clause} {found : Option Literal}
    (hclause : c.clause ≠ []) (hdistinct : c.clause.Distinct) (hc : c.clause = seen ++ rest)
    (hseen : FalseBut store found seen)
    (hfound : ∀ k, found = some k → k ∈ seen ∧ ∃ x, x ∈ store.domain k.var ∧ x ∈ k.allowed) :
    c.Tells store.domain (c.scan store rest found) := by
  induction rest generalizing seen found with
  | nil =>
    rw [List.append_nil] at hc
    rw [← hc] at hseen hfound
    rw [scan.eq_def]
    cases hf : found with
    | some l =>
      obtain ⟨hl, hpossible⟩ := hfound l hf
      exact ⟨hl, .inl hpossible⟩
    | none =>
      dsimp only
      rw [List.getLast?_eq_getLast_of_ne_nil hclause]
      refine ⟨List.getLast_mem hclause, .inr ⟨fun k hk => hseen k hk (by simp [hf]), ?_⟩⟩
      exact List.getLast?_eq_getLast_of_ne_nil hclause
  | cons k rest ih =>
    rw [scan.eq_def]
    dsimp only
    have hk : k ∈ c.clause := by simp [hc]
    have hc' : c.clause = (seen ++ [k]) ++ rest := by rw [hc, List.append_assoc]; rfl
    split
    · -- the literal is true
      rename_i hsub
      exact ⟨k, hk, IntervalSet.isSubset_iff.1 hsub⟩
    · split
      · -- it may become true: the walk ends at the second such literal and remembers the first
        rename_i hpossible
        have hpossible := IntervalSet.intersects_iff.1 hpossible
        cases hf : found with
        | some k' =>
          obtain ⟨hk', hpossible'⟩ := hfound k' hf
          refine ⟨k', by simp [hc, hk'], k, hk, ?_, hpossible', hpossible⟩
          rw [Clause.Distinct, hc, List.map_append, List.nodup_append'] at hdistinct
          exact fun e => hdistinct.2.2 (List.mem_map_of_mem hk')
            (e ▸ List.mem_map_of_mem List.mem_cons_self)
        | none =>
          subst hf
          refine ih hc' (hseen.found k) fun k' hk' => ?_
          cases hk'
          exact ⟨List.mem_append_right _ (List.mem_singleton_self _), hpossible⟩
      · rename_i hdisjoint
        exact ih hc' (hseen.passed hdisjoint) fun k' hk' =>
          ⟨List.mem_append_left _ (hfound k' hk').1, (hfound k' hk').2⟩

/-- The walk over all literals. -/
lemma tells_scan (store : Store) (hclause : c.clause ≠ []) (hdistinct : c.clause.Distinct) :
    c.Tells store.domain (c.scan store c.clause none) :=
  scan_spec hclause hdistinct (List.nil_append _).symm falseBut_nil (by simp)

variable {s : Space} (w : s.WellFormed) (hscope : ∀ v ∈ c.scope, s.store.has v = true)

include w hscope in
lemma settles_propagate (hp : p.index < s.memory.activities.size) (hclause : c.clause ≠ [])
    (hdistinct : c.clause.Distinct) :
    Settles p own s (c.propagate p) fun _ t =>
      t.memory.activity p = .passive ∧ c.Met t.store.domain ∨
        t.memory.activity p = s.memory.activity p ∧ c.Open t.store.domain := by
  have htells := tells_scan s.store hclause hdistinct
  rw [propagate]
  refine settles_store ?_
  split
  · rename_i hscan
    rw [hscan] at htells
    refine (settles_setPassive w hp).mono fun _ u _ hu => .inl ⟨hu.2, .inl ?_⟩
    rw [hu.1]
    exact htells
  · rename_i hscan
    rw [hscan] at htells
    exact settles_pure w (.inr ⟨rfl, htells⟩)
  · rename_i l hscan
    rw [hscan] at htells
    obtain ⟨hl, hcase⟩ := htells
    have hrestrict : Settles p own s (discard (restrictTo p l.var l.allowed)) fun _ t =>
        t.memory = s.memory ∧ Store.Restricted l.allowed l.var s.store t.store :=
      settles_discard ((settles_restrictTo w (hscope _ (var_mem_scope hl)) l.allowed).mono
        fun _ _ _ h => ⟨h.1, h.2.2⟩)
    refine hrestrict.bind fun _ t ht htmem => ?_
    have hp' : p.index < t.memory.activities.size := by rwa [htmem.1]
    refine (settles_setPassive (ht.wellFormed w) hp').mono fun _ u _ hu => .inl ⟨hu.2, ?_⟩
    rw [hu.1]
    rcases htmem.2 with hmem | ⟨hnone, hgreatest⟩
    · exact .inl ⟨l, hl, fun x hx => ((hmem x).1 hx).2⟩
    · rcases hcase with ⟨x, hx, hx'⟩ | ⟨hfalse, hlast⟩
      · exact absurd hx' (hnone x hx)
      · refine .inr ⟨fun k hk x hx => hfalse k hk x ((ht.shrinks w).domain _ x hx),
          fun k hk => ?_⟩
        rw [hlast] at hk
        cases hk
        exact hgreatest

include w hscope in
/-- A call changes no domain when nothing is left to do. -/
lemma quiet_of_met (hclause : c.clause ≠ []) (hdistinct : c.clause.Distinct)
    (h : c.Met s.store.domain) : ∃ t, c.propagate p s = .ok () t ∧ t.store = s.store := by
  have htells := tells_scan s.store hclause hdistinct
  have hends : Ends (c.propagate p) s (fun _ t => t.store = s.store) fun _ _ => False := by
    rw [propagate]
    refine ends_bind_get ?_
    split
    · exact ends_modify rfl
    · exact ends_pure rfl
    · rename_i l hscan
      have hfalse := (false_of_scan (List.nil_append _).symm falseBut_nil (by simp) hscan).2
      rw [hscan] at htells
      obtain ⟨hl, hcase⟩ := htells
      have hhas := hscope _ (var_mem_scope hl)
      have hrestrict : ∃ b, restrictTo p l.var l.allowed s = .ok b s := by
        rcases h with ⟨k, hk, hall⟩ | ⟨hnone, hlast⟩
        · -- a literal that is certain is the one that has to hold
          obtain ⟨x, hx⟩ := w.store.domain_nonempty (hscope _ (var_mem_scope hk))
          by_cases hkl : k = l
          · exact ⟨_, run_onStore (Store.restrictTo_of_mem w.store hhas (hkl ▸ hall))⟩
          · exact absurd (hall x hx) (hfalse k hk hkl x hx)
        · rcases hcase with ⟨x, hx, hx'⟩ | ⟨-, hl'⟩
          · exact absurd hx' (hnone l hl x hx)
          · have hgreatest := hlast l hl'
            obtain ⟨x, hx⟩ := w.store.domain_nonempty hhas
            refine ⟨_, run_onStore (Store.restrictTo_of_greatest w.store hhas hgreatest ?_)⟩
            exact hgreatest x hx ▸ hnone l hl x hx
      obtain ⟨b, hb⟩ := hrestrict
      rw [Ends, bind_of_ok (discard_of_ok hb)]
      rfl
  obtain ⟨_, t, ht, hstore⟩ := hends.exists_ok
  exact ⟨t, ht, hstore⟩

end Disjunction

end FiniteDomain
