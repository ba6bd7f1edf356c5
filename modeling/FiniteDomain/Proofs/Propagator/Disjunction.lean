import Mathlib.Tactic
import FiniteDomain.Proofs.Filter
import FiniteDomain.Proofs.Store.Explanation

/-!
Why restrictions to a set may narrow a domain.

Membership and disjunctions restrict one variable to a set.  The single requests that
this takes are all satisfied by the values of the set.

* `Member.Justified`, `Disjunction.Justified`: the grounds of a request, with
  `Member.Justified.holds` and `Disjunction.Justified.holds`: a solution within the
  domains satisfies it;
* `Member.explains_explain`, `Disjunction.explains_explain`: the explanations are
  valid;
* `Disjunction.false_of_scan`: the literal that has to hold is the only one that can;
* `Member.yields_propagate`, `Disjunction.yields_propagate`: the propagators make
  justified requests only.
-/

namespace FiniteDomain

variable {dom dom' : VarId → IntervalSet} {v : VarId} {op : Operation} {s : Store} {p : Nat}
  {r : Request}

/-! ### Membership -/

namespace Member

variable {c : Member}

/-- The request is on the variable, and all allowed values satisfy it. -/
def Justified (c : Member) : Grounds := fun dom v op =>
  v = c.var ∧ ∀ x, x ∈ dom v → x ∈ c.allowed → op.Holds x

lemma var_mem_scope : c.var ∈ c.scope := List.mem_singleton_self _

lemma Justified.mono (hsub : ∀ u ∈ c.scope, ∀ x, x ∈ dom' u → x ∈ dom u)
    (h : c.Justified dom v op) : c.Justified dom' v op := by
  obtain ⟨rfl, hall⟩ := h
  exact ⟨rfl, fun x hx => hall x (hsub _ var_mem_scope x hx)⟩

lemma Justified.mem_scope (h : c.Justified dom v op) : v ∈ c.scope := h.1 ▸ var_mem_scope

lemma Justified.holds {values : VarId → Int} (hin : ∀ u ∈ c.scope, values u ∈ dom u)
    (hc : c.Holds values) (h : c.Justified dom v op) : op.Holds (values v) := by
  obtain ⟨rfl, hall⟩ := h
  exact hall _ (hin _ var_mem_scope) hc

/-- The allowed values explain every request. -/
lemma explains_explain (w : s.WellFormed) (site : s.Site p r)
    (hJ : c.Justified (fun v => s.domainAt v p) r.var r.operation) :
    s.Explains (.member c) p r (c.explain s) := by
  obtain ⟨hvar, hall⟩ := hJ
  refine ⟨fun l hl => ?_, fun l hl => absurd hl List.not_mem_nil,
    ⟨_, rfl, hvar.symm, fun k hk hin => ?_⟩, fun ρ hρ hc => ?_⟩
  · rcases List.mem_singleton.1 hl with rfl
    exact hvar ▸ site.has
  · exact site.kept k hin (hall k hin (IntervalSet.mem_inter.1 hk).2)
  · refine Explanation.holds_iff.2 (.inr ⟨_, rfl, ?_⟩)
    exact IntervalSet.mem_inter.2 ⟨w.value_mem_initial hρ (hvar ▸ site.has), hc⟩

open FiniteDomain.Filter in
/-- The propagator makes justified requests only. -/
lemma yields_propagate {p : PropId} {s : Space} (w : s.WellFormed)
    (hvar : s.store.has c.var = true) (hp : p.index < s.memory.activities.size) :
    Yields c.Justified p [] s (c.propagate p) fun _ _ => True := by
  rw [propagate]
  refine (yields_discard (yields_restrictTo w hvar fun t op _ hall => ⟨rfl, hall⟩)).bind
    fun _ t ht _ => ?_
  refine (yields_setPassive (ht.wellFormed w) ?_).mono fun _ _ _ _ => trivial
  rw [ht.memory.size_activities]
  exact hp

end Member

/-! ### Disjunctions -/

namespace Disjunction

variable {c : Disjunction}

/-- All literals on other variables are false, and the values that the literals on
this one allow satisfy the request. -/
def Justified (c : Disjunction) : Grounds := fun dom v op =>
  (∃ l ∈ c.clause, l.var = v) ∧
    (∀ l ∈ c.clause, l.var ≠ v → ∀ x, x ∈ dom l.var → x ∉ l.allowed) ∧
    ∀ l ∈ c.clause, l.var = v → ∀ x, x ∈ dom v → x ∈ l.allowed → op.Holds x

lemma var_mem_scope {l : Literal} (hl : l ∈ c.clause) : l.var ∈ c.scope :=
  List.mem_map_of_mem hl

lemma Justified.mem_scope (h : c.Justified dom v op) : v ∈ c.scope := by
  obtain ⟨⟨l, hl, rfl⟩, -⟩ := h
  exact var_mem_scope hl

lemma Justified.mono (hsub : ∀ u ∈ c.scope, ∀ x, x ∈ dom' u → x ∈ dom u)
    (h : c.Justified dom v op) : c.Justified dom' v op :=
  ⟨h.1, fun l hl hne x hx => h.2.1 l hl hne x (hsub _ (var_mem_scope hl) x hx),
    fun l hl hv x hx => h.2.2 l hl hv x (hsub _ h.mem_scope x hx)⟩

lemma Justified.holds {values : VarId → Int} (hin : ∀ u ∈ c.scope, values u ∈ dom u)
    (hc : c.Holds values) (h : c.Justified dom v op) : op.Holds (values v) := by
  obtain ⟨l, hl, hmem⟩ := hc
  by_cases hv : l.var = v
  · subst hv
    exact h.2.2 l hl rfl _ (hin _ (var_mem_scope hl)) hmem
  · exact absurd hmem (h.2.1 l hl hv _ (hin _ (var_mem_scope hl)))

/-- The clause explains every request. -/
lemma explains_explain (hscope : ∀ v ∈ c.scope, s.has v = true) (site : s.Site p r)
    (hJ : c.Justified (fun v => s.domainAt v p) r.var r.operation) :
    s.Explains (.disjunction c.clause) p r (c.explain r) := by
  obtain ⟨⟨l₀, hl₀, hvar₀⟩, hfalse, hall⟩ := hJ
  have hparted : Explanation.Parted r.var c.clause (c.explain r) := Explanation.parted_partition _ _
  obtain ⟨d, hd, hdmem⟩ := hparted.exists_pivot hl₀ hvar₀
  refine ⟨fun l hl => ?_, fun l hl k hk hin => ?_, ⟨_, hd, rfl, fun k hk hin => ?_⟩,
    fun ρ _ hc => ?_⟩
  · rcases Explanation.mem_clause.1 hl with hl | hl
    · exact hscope _ (var_mem_scope ((hparted.literals l).1 hl).1)
    · rw [hd] at hl
      cases hl
      exact site.has
  · obtain ⟨hl, hne⟩ := (hparted.literals l).1 hl
    exact hfalse l hl hne k hin hk
  · obtain ⟨l, hl, hvar, hk⟩ := (hdmem k).1 hk
    exact site.kept k hin (hall l hl hvar k hin hk)
  · obtain ⟨l, hl, hmem⟩ := hc
    rw [Explanation.holds_iff]
    by_cases hv : l.var = r.var
    · exact .inr ⟨_, hd, (hdmem _).2 ⟨l, hl, hv, hv ▸ hmem⟩⟩
    · exact .inl ⟨l, (hparted.literals l).2 ⟨hl, hv⟩, hmem⟩

/-- All literals but the one that was found are false. -/
def FalseBut (store : Store) (found : Option Literal) (seen : Clause) : Prop :=
  ∀ k ∈ seen, found ≠ some k → ∀ x, x ∈ store.domain k.var → x ∉ k.allowed

lemma falseBut_nil {store : Store} {found : Option Literal} : FalseBut store found [] :=
  fun _ hk => absurd hk List.not_mem_nil

/-- The walk comes by a literal that can hold. -/
lemma FalseBut.found {store : Store} {seen : Clause} (h : FalseBut store none seen) (k : Literal) :
    FalseBut store (some k) (seen ++ [k]) := by
  intro k' hk' hne
  rcases List.mem_append.1 hk' with hk' | hk'
  · exact h k' hk' (Option.some_ne_none k').symm
  · exact absurd (congrArg some (List.mem_singleton.1 hk').symm) hne

/-- The walk comes by a literal that is false. -/
lemma FalseBut.passed {store : Store} {seen : Clause} {found : Option Literal}
    (h : FalseBut store found seen) {k : Literal}
    (hdisjoint : ¬ (store.domain k.var).intersects k.allowed = true) :
    FalseBut store found (seen ++ [k]) := by
  intro k' hk' hne x hx hmem
  rcases List.mem_append.1 hk' with hk' | hk'
  · exact h k' hk' hne x hx hmem
  · rw [List.mem_singleton] at hk'
    subst hk'
    exact hdisjoint (IntervalSet.intersects_iff.2 ⟨x, hx, hmem⟩)

/-- The walk over the literals singles out the only one that can hold; when none can,
it is the last one. -/
lemma false_of_scan {store : Store} {seen rest : Clause} {found : Option Literal} {l : Literal}
    (hc : c.clause = seen ++ rest) (hseen : FalseBut store found seen)
    (hfound : ∀ k, found = some k → k ∈ seen)
    (h : c.scan store rest found = .unit l) :
    l ∈ c.clause ∧ ∀ k ∈ c.clause, k ≠ l → ∀ x, x ∈ store.domain k.var → x ∉ k.allowed := by
  induction rest generalizing seen found with
  | nil =>
    rw [List.append_nil] at hc
    subst hc
    cases found with
    | some k =>
      simp only [scan, State.unit.injEq] at h
      subst h
      exact ⟨hfound k rfl, fun k' hk' hne => hseen k' hk' fun he => hne (Option.some.inj he).symm⟩
    | none =>
      simp only [scan] at h
      split at h
      · rename_i k hk
        cases h
        exact ⟨List.mem_of_getLast? hk, fun k' hk' _ => hseen k' hk' nofun⟩
      · cases h
  | cons k rest ih =>
    rw [scan.eq_def] at h
    dsimp only at h
    have hc' : c.clause = (seen ++ [k]) ++ rest := by rw [hc, List.append_assoc]; rfl
    split at h
    · cases h
    · split at h
      · cases found with
        | some k' => cases h
        | none =>
          refine ih hc' (hseen.found k) (fun k' hk' => ?_) h
          cases hk'
          exact List.mem_append_right _ (List.mem_singleton_self _)
      · rename_i hdisjoint
        exact ih hc' (hseen.passed hdisjoint)
          (fun k' hk' => List.mem_append_left _ (hfound k' hk')) h

open FiniteDomain.Filter in
/-- The propagator makes justified requests only. -/
lemma yields_propagate {p : PropId} {s : Space} (w : s.WellFormed)
    (hscope : ∀ v ∈ c.scope, s.store.has v = true) (hp : p.index < s.memory.activities.size) :
    Yields c.Justified p [] s (c.propagate p) fun _ _ => True := by
  rw [propagate]
  refine yields_store ?_
  split
  · exact (yields_setPassive w hp).mono fun _ _ _ _ => trivial
  · exact yields_pure w trivial
  · rename_i l hscan
    obtain ⟨hl, hfalse⟩ := false_of_scan (List.nil_append _).symm falseBut_nil (by simp) hscan
    have hrestrict : Yields c.Justified p [] s (restrictTo p l.var l.allowed) _ :=
      yields_restrictTo w (hscope _ (var_mem_scope hl)) fun t op ht hall => by
        have htsub := (ht.shrinks w.store).domain
        have hout : ∀ k ∈ c.clause, k ≠ l → ∀ x, x ∈ t.domain k.var → x ∉ k.allowed :=
          fun k hk hne x hx => hfalse k hk hne x (htsub _ x hx)
        refine ⟨⟨l, hl, rfl⟩, fun k hk hne => hout k hk ?_, fun k hk hvar x hx hmem => ?_⟩
        · rintro rfl
          exact hne rfl
        · by_cases hkl : k = l
          · exact hall x hx (hkl ▸ hmem)
          · exact absurd hmem (hout k hk hkl x (hvar ▸ hx))
    refine (yields_discard hrestrict).bind fun _ t ht _ => ?_
    refine (yields_setPassive (ht.wellFormed w) ?_).mono fun _ _ _ _ => trivial
    rw [ht.memory.size_activities]
    exact hp

end Disjunction

end FiniteDomain
