import Mathlib.Tactic
import FiniteDomain.Proofs.Filter
import FiniteDomain.Proofs.Store.Explanation

/-!
Why the maximum may narrow a domain.

All requests are for bounds.  Those of the right-hand side follow from the bounds of
the elements, an upper bound of an element follows from the right-hand side, and a
lower bound of an element from the right-hand side once no other element can reach
it.

* `Maximum.Justified`: the grounds of each kind of request, and
  `Maximum.Justified.mono`: they are not lost when domains shrink;
* `Maximum.Justified.holds`: a solution within the domains satisfies the request;
* `Maximum.explains_explain`: the explanations are valid;
* `Maximum.Single`: one element is the maximum, and `Maximum.yields_channel`,
  `Maximum.yields_agree`: then it takes over the bounds of the right-hand side;
* `Maximum.yields_propagate`: the propagator makes justified requests only.
-/

namespace FiniteDomain

namespace Maximum

variable {c : Maximum} {dom dom' : VarId → IntervalSet} {v : VarId} {op : Operation}

/-- The grounds of a request. -/
def Justified (c : Maximum) : Grounds := fun dom v op =>
  match op with
  | .atLeast k =>
    v = c.rhs ∧ (∃ u ∈ c.array, ∀ x, x ∈ dom u → k ≤ x) ∨
      v ≠ c.rhs ∧ v ∈ c.array ∧ (∀ x, x ∈ dom c.rhs → k ≤ x) ∧
        ∀ u ∈ c.array, u ≠ v → ∀ x, x ∈ dom u → x < k
  | .atMost k =>
    v = c.rhs ∧ (∀ u ∈ c.array, ∀ x, x ∈ dom u → x ≤ k) ∨
      v ≠ c.rhs ∧ v ∈ c.array ∧ ∀ x, x ∈ dom c.rhs → x ≤ k
  | .differs _ | .equals _ => False

lemma mem_scope_of_mem (hv : v ∈ c.array) : v ∈ c.scope := List.mem_append_left _ hv

lemma rhs_mem_scope : c.rhs ∈ c.scope := List.mem_append_right _ (List.mem_singleton_self _)

/-- Grounds are not lost when domains shrink. -/
lemma Justified.mono (hsub : ∀ u ∈ c.scope, ∀ x, x ∈ dom' u → x ∈ dom u)
    (h : c.Justified dom v op) : c.Justified dom' v op := by
  have helem : ∀ u ∈ c.array, ∀ x, x ∈ dom' u → x ∈ dom u :=
    fun u hu => hsub u (mem_scope_of_mem hu)
  have hrhs := hsub c.rhs rhs_mem_scope
  cases op with
  | atLeast k =>
    rcases h with ⟨hv, u, hu, hlow⟩ | ⟨hv, hmem, hlow, hrest⟩
    · exact .inl ⟨hv, u, hu, fun x hx => hlow x (helem u hu x hx)⟩
    · exact .inr ⟨hv, hmem, fun x hx => hlow x (hrhs x hx),
        fun u hu hne x hx => hrest u hu hne x (helem u hu x hx)⟩
  | atMost k =>
    rcases h with ⟨hv, hup⟩ | ⟨hv, hmem, hup⟩
    · exact .inl ⟨hv, fun u hu x hx => hup u hu x (helem u hu x hx)⟩
    · exact .inr ⟨hv, hmem, fun x hx => hup x (hrhs x hx)⟩
  | differs k => exact h
  | equals k => exact h

lemma Justified.mem_scope (h : c.Justified dom v op) : v ∈ c.scope := by
  cases op with
  | atLeast k =>
    rcases h with ⟨hv, -⟩ | ⟨-, hmem, -⟩
    · exact hv ▸ rhs_mem_scope
    · exact mem_scope_of_mem hmem
  | atMost k =>
    rcases h with ⟨hv, -⟩ | ⟨-, hmem, -⟩
    · exact hv ▸ rhs_mem_scope
    · exact mem_scope_of_mem hmem
  | differs k => exact h.elim
  | equals k => exact h.elim

/-- A solution within the domains satisfies every justified request. -/
lemma Justified.holds {values : VarId → Int} (hin : ∀ u ∈ c.scope, values u ∈ dom u)
    (hc : c.Holds values) (h : c.Justified dom v op) : op.Holds (values v) := by
  obtain ⟨hle, u, hu, heq⟩ := hc
  have helem : ∀ u ∈ c.array, values u ∈ dom u := fun u hu => hin u (mem_scope_of_mem hu)
  have hrhs := hin c.rhs rhs_mem_scope
  cases op with
  | atLeast k =>
    rcases h with ⟨rfl, u', hu', hlow⟩ | ⟨hv, hmem, hlow, hrest⟩
    · exact Int.le_trans (hlow _ (helem u' hu')) (hle u' hu')
    · -- the greatest element can only be this one
      have huv : u = v := by
        by_contra hne
        have h₁ := hrest u hu hne _ (helem u hu)
        have h₂ := hlow _ hrhs
        omega
      subst huv
      rw [Operation.Holds, heq]
      exact hlow _ hrhs
  | atMost k =>
    rcases h with ⟨rfl, hup⟩ | ⟨hv, hmem, hup⟩
    · rw [Operation.Holds, ← heq]
      exact hup u hu _ (helem u hu)
    · exact Int.le_trans (hle v hmem) (hup _ hrhs)
  | differs k => exact h.elim
  | equals k => exact h.elim

/-! ### Explanations -/

section Explain

variable {s : Store} {p : Nat} {k : Int} {cause : Option PropId} {r : Request}

/-- The literals on elements that reach a bound before a position. -/
lemma foldl_atMost (vs : List VarId) (e : Explanation) :
    (vs.foldl (fun e v => if k ≤ s.lowerAt v p then e.add v (atMost s v (k - 1)) else e) e).pivot
        = e.pivot ∧
      ∀ l, l ∈ (vs.foldl (fun e v =>
          if k ≤ s.lowerAt v p then e.add v (atMost s v (k - 1)) else e) e).literals ↔
        l ∈ e.literals ∨ ∃ v ∈ vs, k ≤ s.lowerAt v p ∧ l = ⟨v, atMost s v (k - 1)⟩ := by
  rw [Explanation.foldl_literals _
    (fun v => if k ≤ s.lowerAt v p then [⟨v, atMost s v (k - 1)⟩] else [])
    (fun e v => by split <;> simp [Explanation.add])]
  refine ⟨rfl, fun l => ?_⟩
  rw [List.mem_append, List.mem_flatMap]
  refine or_congr_right (exists_congr fun v => and_congr_right fun _ => ?_)
  split <;> simp_all

/-- The literals on some of the elements, as far as they are possible at all. -/
lemma foldl_atLeast {P : VarId → Prop} [DecidablePred P]
    (step : Explanation → VarId → Explanation)
    (hstep : ∀ e v, step e v = if P v then e.addNonempty v (atLeast s v k) else e)
    (vs : List VarId) (e : Explanation) :
    (vs.foldl step e).pivot = e.pivot ∧
      ∀ l, l ∈ (vs.foldl step e).literals ↔ l ∈ e.literals ∨
        ∃ v ∈ vs, P v ∧ (∃ j, j ∈ atLeast s v k) ∧ l = ⟨v, atLeast s v k⟩ := by
  rw [Explanation.foldl_literals step
    (fun v => if P v then if (atLeast s v k).isEmpty then [] else [⟨v, atLeast s v k⟩] else [])
    (fun e v => by rw [hstep]; split <;> simp [Explanation.addNonempty_eq])]
  refine ⟨rfl, fun l => ?_⟩
  rw [List.mem_append, List.mem_flatMap]
  refine or_congr_right (exists_congr fun v => and_congr_right fun _ => ?_)
  rw [← IntervalSet.isEmpty_eq_false_iff]
  split
  · cases h : (atLeast s v k).isEmpty <;> simp_all
  · simp_all

variable (w : s.WellFormed) (hscope : ∀ v ∈ c.scope, s.has v = true)

include w hscope in
/-- A lower bound of the right-hand side is explained by the elements that reach it. -/
lemma explains_atLeast_rhs (site : s.Site p ⟨c.rhs, .atLeast k, cause⟩)
    (hJ : ∃ u ∈ c.array, ∀ x, x ∈ s.domainAt u p → k ≤ x) :
    s.Explains (.maximum c) p ⟨c.rhs, .atLeast k, cause⟩
      (c.array.foldl (fun e v =>
          if k ≤ s.lowerAt v p then e.add v (atMost s v (k - 1)) else e)
        (({} : Explanation).addPivot c.rhs (atLeast s c.rhs k))) := by
  obtain ⟨hpivot, hlits⟩ := foldl_atMost (s := s) (p := p) (k := k) c.array
    (({} : Explanation).addPivot c.rhs (atLeast s c.rhs k))
  refine Store.explains_of_literals w site hpivot (fun j => IntervalSet.mem_atLeast)
    (fun l hl => ?_) fun ρ hρ hc hno => ?_
  · rcases (hlits l).1 hl with hl | ⟨v, hv, hlow, rfl⟩
    · cases hl
    refine ⟨hscope v (mem_scope_of_mem hv), fun j hj hin => ?_⟩
    have h₁ := (IntervalSet.mem_atMost.1 hj).2
    have h₂ := IntervalSet.lower_le hin
    rw [Store.lowerAt] at hlow
    dsimp only at h₂
    omega
  · obtain ⟨u, hu, hlow⟩ := hJ
    have huhas := hscope u (mem_scope_of_mem hu)
    have hlow : k ≤ s.lowerAt u p := hlow _ (IntervalSet.lower_mem (w.domainAt_nonempty huhas))
    have hval : ¬ s.value ρ u ≤ k - 1 := fun hle =>
      hno _ ((hlits _).2 (.inr ⟨u, hu, hlow, rfl⟩))
        (IntervalSet.mem_atMost.2 ⟨w.value_mem_initial hρ huhas, hle⟩)
    have hle : s.value ρ u ≤ s.value ρ c.rhs := hc.1 u hu
    rw [Operation.Holds]
    dsimp only
    omega

include w in
lemma lt_of_not_holds {ρ : VarId → Int} (hρ : s.Initial ρ) (hv : s.has v = true)
    (hno : (∃ j, j ∈ atLeast s v k) → ¬ (⟨v, atLeast s v k⟩ : Literal).Holds (s.value ρ)) :
    s.value ρ v < k := by
  by_contra hge
  have hmem : s.value ρ v ∈ atLeast s v k :=
    IntervalSet.mem_atLeast.2 ⟨w.value_mem_initial hρ hv, Int.not_lt.1 hge⟩
  exact hno ⟨_, hmem⟩ hmem

include w hscope in
/-- An upper bound of the right-hand side is explained by all elements. -/
lemma explains_atMost_rhs (site : s.Site p ⟨c.rhs, .atMost k, cause⟩)
    (hJ : ∀ u ∈ c.array, ∀ x, x ∈ s.domainAt u p → x ≤ k) :
    s.Explains (.maximum c) p ⟨c.rhs, .atMost k, cause⟩
      (c.array.foldl (fun e v => e.addNonempty v (atLeast s v (k + 1)))
        (({} : Explanation).addPivot c.rhs (atMost s c.rhs k))) := by
  obtain ⟨hpivot, hlits⟩ := foldl_atLeast (s := s) (k := k + 1) (P := fun _ => True)
    (fun e v => e.addNonempty v (atLeast s v (k + 1))) (fun e v => (if_pos trivial).symm) c.array
    (({} : Explanation).addPivot c.rhs (atMost s c.rhs k))
  refine Store.explains_of_literals w site hpivot (fun j => IntervalSet.mem_atMost)
    (fun l hl => ?_) fun ρ hρ hc hno => ?_
  · rcases (hlits l).1 hl with hl | ⟨v, hv, -, -, rfl⟩
    · cases hl
    refine ⟨hscope v (mem_scope_of_mem hv), fun j hj hin => ?_⟩
    have h₁ := (IntervalSet.mem_atLeast.1 hj).2
    have h₂ := hJ v hv j hin
    omega
  · obtain ⟨u, hu, heq⟩ := hc.2
    have hlt : s.value ρ u < k + 1 := lt_of_not_holds w hρ (hscope u (mem_scope_of_mem hu))
      fun hne => hno _ ((hlits _).2 (.inr ⟨u, hu, trivial, hne, rfl⟩))
    rw [Operation.Holds, ← heq]
    omega

include w hscope in
/-- A lower bound of an element is explained by the right-hand side and by the other
elements. -/
lemma explains_atLeast (site : s.Site p ⟨v, .atLeast k, cause⟩)
    (hrhs : ∀ x, x ∈ s.domainAt c.rhs p → k ≤ x)
    (hrest : ∀ u ∈ c.array, u ≠ v → ∀ x, x ∈ s.domainAt u p → x < k) :
    s.Explains (.maximum c) p ⟨v, .atLeast k, cause⟩
      ((c.array.foldl (fun e u => if u ≠ v then e.addNonempty u (atLeast s u k) else e)
        (({} : Explanation).add c.rhs (atMost s c.rhs (k - 1)))).addPivot
          v (atLeast s v k)) := by
  obtain ⟨hpivot, hlits⟩ := foldl_atLeast (s := s) (k := k) (P := fun u => u ≠ v)
    (fun e u => if u ≠ v then e.addNonempty u (atLeast s u k) else e) (fun _ _ => rfl) c.array
    (({} : Explanation).add c.rhs (atMost s c.rhs (k - 1)))
  rw [Explanation.addPivot_of_none (hpivot.trans rfl)]
  have hrhshas := hscope c.rhs rhs_mem_scope
  refine Store.explains_of_literals w site rfl (fun j => IntervalSet.mem_atLeast)
    (fun l hl => ?_) fun ρ hρ hc hno => ?_
  · rcases (hlits l).1 hl with hl | ⟨u, hu, hne, -, rfl⟩
    · rcases List.mem_singleton.1 hl with rfl
      refine ⟨hrhshas, fun j hj hin => ?_⟩
      have h₁ := (IntervalSet.mem_atMost.1 hj).2
      have h₂ := hrhs j hin
      omega
    · refine ⟨hscope u (mem_scope_of_mem hu), fun j hj hin => ?_⟩
      have h₁ := (IntervalSet.mem_atLeast.1 hj).2
      have h₂ := hrest u hu hne j hin
      omega
  · obtain ⟨u, hu, heq⟩ := hc.2
    have hmany : ¬ s.value ρ c.rhs ≤ k - 1 := by
      intro hle
      refine hno ⟨c.rhs, atMost s c.rhs (k - 1)⟩
        ((hlits _).2 (.inl (List.mem_singleton_self _))) ?_
      exact IntervalSet.mem_atMost.2 ⟨w.value_mem_initial hρ hrhshas, hle⟩
    have huv : u = v := by
      by_contra hne
      have hlt : s.value ρ u < k := lt_of_not_holds w hρ (hscope u (mem_scope_of_mem hu))
        fun hne' => hno _ ((hlits _).2 (.inr ⟨u, hu, hne, hne', rfl⟩))
      omega
    subst huv
    rw [Operation.Holds]
    dsimp only
    omega

include w hscope in
/-- An upper bound of an element is explained by the right-hand side. -/
lemma explains_atMost (site : s.Site p ⟨v, .atMost k, cause⟩) (hv : v ∈ c.array)
    (hrhs : ∀ x, x ∈ s.domainAt c.rhs p → x ≤ k) :
    s.Explains (.maximum c) p ⟨v, .atMost k, cause⟩
      ((({} : Explanation).add c.rhs (atLeast s c.rhs (k + 1))).addPivot v (atMost s v k)) := by
  rw [Explanation.addPivot_of_none rfl]
  have hrhshas := hscope c.rhs rhs_mem_scope
  refine Store.explains_of_literals w site rfl (fun j => IntervalSet.mem_atMost)
    (fun l hl => ?_) fun ρ hρ hc hno => ?_
  · rcases List.mem_singleton.1 hl with rfl
    refine ⟨hrhshas, fun j hj hin => ?_⟩
    have h₁ := (IntervalSet.mem_atLeast.1 hj).2
    have h₂ := hrhs j hin
    omega
  · have hfew : ¬ k + 1 ≤ s.value ρ c.rhs := by
      intro hle
      refine hno ⟨c.rhs, atLeast s c.rhs (k + 1)⟩ (List.mem_singleton_self _) ?_
      exact IntervalSet.mem_atLeast.2 ⟨w.value_mem_initial hρ hrhshas, hle⟩
    have hle : s.value ρ v ≤ s.value ρ c.rhs := hc.1 v hv
    rw [Operation.Holds]
    dsimp only
    omega

include w hscope in
/-- The explanations of the maximum are valid. -/
lemma explains_explain (site : s.Site p r)
    (hJ : c.Justified (fun v => s.domainAt v p) r.var r.operation) :
    s.Explains (.maximum c) p r (c.explain s p r) := by
  obtain ⟨v, op, cause⟩ := r
  cases op with
  | atLeast k =>
    simp only [explain, site.below_eq w]
    rcases hJ with ⟨hv, hJ⟩ | ⟨hv, -, hrhs, hrest⟩
    · have hv : v = c.rhs := hv
      subst hv
      rw [if_pos rfl]
      exact explains_atLeast_rhs w hscope site hJ
    · rw [if_neg hv]
      exact explains_atLeast w hscope site hrhs hrest
  | atMost k =>
    simp only [explain, site.above_eq w]
    rcases hJ with ⟨hv, hJ⟩ | ⟨hv, hmem, hrhs⟩
    · have hv : v = c.rhs := hv
      subst hv
      rw [if_pos rfl]
      exact explains_atMost_rhs w hscope site hJ
    · rw [if_neg hv]
      exact explains_atMost w hscope site hmem hrhs
  | differs k => exact hJ.elim
  | equals k => exact hJ.elim

end Explain

/-! ### Runs -/

section Runs

open FiniteDomain.Filter

variable {p : PropId} {s : Space} (w : s.WellFormed) (hscope : ∀ v ∈ c.scope, s.store.has v = true)

include w hscope in
/-- A walk over the elements finds their bounds. -/
lemma yields_survey {cap : Int} (hcap : ∀ x, x ∈ s.store.domain c.rhs → x ≤ cap)
    {vs : List VarId} (hvs : ∀ v ∈ vs, v ∈ c.array) (found : Survey) :
    Yields c.Justified p [] s (survey p cap vs found) fun result t =>
      (result.lower = found.lower ∨
        ∃ u ∈ vs, ∀ x, x ∈ t.store.domain u → result.lower ≤ x) ∧
      found.upper ≤ result.upper ∧
      ∀ u ∈ vs, ∀ x, x ∈ t.store.domain u → x ≤ result.upper := by
  induction vs generalizing s found with
  | nil =>
    refine yields_pure w ⟨.inl rfl, Int.le_refl _, ?_⟩
    exact fun u hu => absurd hu List.not_mem_nil
  | cons v vs ih =>
    have hv : v ∈ c.array := hvs v List.mem_cons_self
    rw [survey]
    have happly : Yields c.Justified p [] s (apply p v (.atMost cap)) _ :=
      yields_apply w (hscope v (mem_scope_of_mem hv)) fun hx => by
        refine .inr ⟨?_, hv, hcap⟩
        rintro rfl
        obtain ⟨x, hx, hno⟩ := hx
        exact hno (hcap x hx)
    refine happly.bind fun changed t ht _ => ?_
    obtain ⟨wt, htscope, htsub⟩ := mem_of_ran w hscope ht
    refine yields_store ?_
    have hrest := ih wt htscope (fun x hx => hcap x (htsub c.rhs x hx))
      (fun u hu => hvs u (List.mem_cons_of_mem _ hu))
      ⟨found.changed || changed, max found.lower (t.store.lower v),
        max found.upper (t.store.upper v)⟩
    refine hrest.mono fun result u hu hdone => ?_
    have husub := (hu.shrinks wt).domain
    obtain ⟨hlow, hup, hall⟩ := hdone
    dsimp only at hlow hup
    refine ⟨?_, by omega, fun u' hu' x hx => ?_⟩
    · rcases hlow with hlow | ⟨u', hu', hlow⟩
      · rcases Int.le_total (t.store.lower v) found.lower with hle | hle
        · exact .inl (by omega)
        · refine .inr ⟨v, List.mem_cons_self, fun x hx => ?_⟩
          have : t.store.lower v ≤ x := wt.store.lower_le (husub v x hx)
          omega
      · exact .inr ⟨u', List.mem_cons_of_mem _ hu', hlow⟩
    · rcases List.mem_cons.1 hu' with rfl | hu'
      · have : x ≤ t.store.upper u' := wt.store.le_upper (husub u' x hx)
        omega
      · exact hall u' hu' x hx

/-- No other element can reach the right-hand side. -/
def Single (c : Maximum) (dom : VarId → IntervalSet) (v : VarId) : Prop :=
  v ∈ c.array ∧ ∀ u ∈ c.array, u ≠ v → ∀ x, x ∈ dom u → ∀ y, y ∈ dom c.rhs → x < y

/-- No other element can reach this one. -/
def Dominates (c : Maximum) (dom : VarId → IntervalSet) (v : VarId) : Prop :=
  ∀ u ∈ c.array, u ≠ v → ∀ x, x ∈ dom u → ∀ y, y ∈ dom v → x < y

lemma Single.mono (h : c.Single dom v) (hsub : ∀ u x, x ∈ dom' u → x ∈ dom u) :
    c.Single dom' v :=
  ⟨h.1, fun u hu hne x hx y hy => h.2 u hu hne x (hsub u x hx) y (hsub _ y hy)⟩

lemma Dominates.mono (h : c.Dominates dom v) (hsub : ∀ u x, x ∈ dom' u → x ∈ dom u) :
    c.Dominates dom' v :=
  fun u hu hne x hx y hy => h u hu hne x (hsub u x hx) y (hsub _ y hy)

include w hscope in
/-- The element takes over the bounds of the right-hand side. -/
lemma yields_bounds_of_single (h : c.Single s.store.domain v) :
    Yields c.Justified p [] s
      (Filter.updateBounds p v (s.store.lower c.rhs) (s.store.upper c.rhs)) fun _ t =>
        ∀ x, x ∈ t.store.domain v → s.store.lower c.rhs ≤ x := by
  have hrhs := hscope c.rhs rhs_mem_scope
  have hlow : ∀ x, x ∈ s.store.domain c.rhs → s.store.lower c.rhs ≤ x :=
    fun x hx => w.store.lower_le hx
  have hup : ∀ x, x ∈ s.store.domain c.rhs → x ≤ s.store.upper c.rhs :=
    fun x hx => w.store.le_upper hx
  have hle : s.store.lower c.rhs ≤ s.store.upper c.rhs := hlow _ (w.store.upper_mem hrhs)
  refine (yields_updateBounds w (hscope v (mem_scope_of_mem h.1)) hle (fun t ht hx => ?_)
    fun t ht hx => ?_).mono fun _ t _ hdone x hx => (hdone.2 x hx).1
  · have htsub := (ht.shrinks w.store).domain
    refine .inr ⟨?_, h.1, fun x hx => hlow x (htsub _ x hx), fun u hu hne' x hx => ?_⟩
    · rintro rfl
      obtain ⟨x, hx, hlt⟩ := hx
      exact absurd (hlow x (htsub _ x hx)) (Int.not_le.2 hlt)
    · exact h.2 u hu hne' x (htsub u x hx) _ (w.store.lower_mem hrhs)
  · have htsub := (ht.shrinks w.store).domain
    refine .inr ⟨?_, h.1, fun x hx => hup x (htsub _ x hx)⟩
    rintro rfl
    obtain ⟨x, hx, hlt⟩ := hx
    exact absurd (hup x (htsub _ x hx)) (Int.not_le.2 hlt)

include w hscope in
/-- The right-hand side takes over the bounds of the element. -/
lemma yields_bounds_of_dominates (h : c.Single s.store.domain v)
    (hdom : c.Dominates s.store.domain v) :
    Yields c.Justified p [] s
      (Filter.updateBounds p c.rhs (s.store.lower v) (s.store.upper v)) fun _ _ => True := by
  have hv := hscope v (mem_scope_of_mem h.1)
  have hlow : ∀ x, x ∈ s.store.domain v → s.store.lower v ≤ x :=
    fun x hx => w.store.lower_le hx
  have hup : ∀ x, x ∈ s.store.domain v → x ≤ s.store.upper v :=
    fun x hx => w.store.le_upper hx
  have hle : s.store.lower v ≤ s.store.upper v := hlow _ (w.store.upper_mem hv)
  refine (yields_updateBounds w (hscope c.rhs rhs_mem_scope) hle (fun t ht _ => ?_)
    fun t ht _ => ?_).mono fun _ _ _ _ => trivial
  · have htsub := (ht.shrinks w.store).domain
    exact .inl ⟨rfl, v, h.1, fun x hx => hlow x (htsub v x hx)⟩
  · have htsub := (ht.shrinks w.store).domain
    refine .inl ⟨rfl, fun u hu x hx => ?_⟩
    by_cases huv : u = v
    · rw [huv] at hx
      exact hup x (htsub v x hx)
    · exact Int.le_of_lt (hdom u hu huv x (htsub u x hx) _ (w.store.upper_mem hv))

include w hscope in
lemma yields_agree (h : c.Single s.store.domain v) (hdom : c.Dominates s.store.domain v)
    (n : Nat) : Yields c.Justified p [] s (c.agree p v n) fun _ _ => True := by
  induction n generalizing s with
  | zero => exact yields_exhausted w rfl
  | succ n ih =>
    rw [agree]
    refine yields_store ?_
    split
    · exact yields_pure w trivial
    refine (yields_discard (yields_bounds_of_dominates w hscope h hdom)).bind fun _ t ht _ => ?_
    obtain ⟨wt, htscope, htsub⟩ := mem_of_ran w hscope ht
    refine yields_store ?_
    refine (yields_discard (yields_bounds_of_single wt htscope (h.mono htsub))).bind
      fun _ u hu _ => ?_
    obtain ⟨wu, huscope, husub⟩ := mem_of_ran wt htscope hu
    exact ih wu huscope ((h.mono htsub).mono husub) ((hdom.mono htsub).mono husub)

include w hscope in
lemma yields_channel (hp : p.index < s.memory.activities.size) (h : c.Single s.store.domain v) :
    Yields c.Justified p [] s (c.channel p v) fun _ _ => True := by
  rw [channel]
  refine yields_store ?_
  refine (yields_discard (yields_bounds_of_single w hscope h)).bind fun _ t ht hlow => ?_
  obtain ⟨wt, htscope, htsub⟩ := mem_of_ran w hscope ht
  have hdom : c.Dominates t.store.domain v := by
    intro u hu hne x hx y hy
    have hmem := w.store.lower_mem (hscope c.rhs rhs_mem_scope)
    exact Int.lt_of_lt_of_le (h.2 u hu hne x (htsub u x hx) _ hmem) (hlow y hy)
  refine yields_get ?_
  split
  · refine (yields_setPassive wt ?_).mono fun _ _ _ _ => trivial
    rw [ht.memory.size_activities]
    exact hp
  · exact yields_agree wt htscope (h.mono htsub) hdom _

/-- A single element that can reach the lower bound of the right-hand side. -/
lemma single_of_reaching {store : Store} {bound : Int} (w : store.WellFormed)
    (h : c.reaching store bound = [v])
    (hbound : ∀ x, x ∈ store.domain c.rhs → bound ≤ x) : c.Single store.domain v := by
  have hmem : ∀ u, u ∈ c.reaching store bound ↔ u ∈ c.array ∧ bound ≤ store.upper u := by
    intro u
    rw [reaching, List.mem_filter, decide_eq_true_eq]
  rw [h] at hmem
  refine ⟨((hmem v).1 (List.mem_singleton_self v)).1, fun u hu hne x hx y hy => ?_⟩
  have hlt : ¬ bound ≤ store.upper u := fun hle => hne (List.mem_singleton.1 ((hmem u).2 ⟨hu, hle⟩))
  have h₁ : x ≤ store.upper u := w.le_upper hx
  have h₂ := hbound y hy
  omega

include w hscope in
lemma yields_rounds (hp : p.index < s.memory.activities.size) (n : Nat) :
    Yields c.Justified p [] s (c.rounds p n) fun _ _ => True := by
  induction n generalizing s with
  | zero => exact yields_exhausted w rfl
  | succ n ih =>
    rw [rounds]
    refine yields_store ?_
    refine (yields_survey w hscope (fun x hx => w.store.le_upper hx) (fun v hv => hv) {}).bind
      fun found t ht hfound => ?_
    obtain ⟨wt, htscope, htsub⟩ := mem_of_ran w hscope ht
    obtain ⟨hlow, -, hup⟩ := hfound
    have hrhs := htscope c.rhs rhs_mem_scope
    refine (yields_apply wt hrhs fun hx => ?_).bind fun raised u hu humem => ?_
    · refine .inl ⟨rfl, hlow.resolve_left fun hleast => ?_⟩
      -- the bound at the start is no bound
      obtain ⟨x, hx, hno⟩ := hx
      have hge := (wt.store.domain_inRange hrhs x hx).1
      rw [hleast] at hno
      exact hno hge
    obtain ⟨wu, huscope, husub⟩ := mem_of_ran wt htscope hu
    have hurhs := huscope c.rhs rhs_mem_scope
    refine (yields_apply wu hurhs fun _ => .inl ⟨rfl, fun u' hu' x hx =>
      hup u' hu' x (husub u' x hx)⟩).bind fun lowered t' ht' _ => ?_
    obtain ⟨wt', htscope', htsub'⟩ := mem_of_ran wu huscope ht'
    have hp' : p.index < t'.memory.activities.size := by
      rw [ht'.memory.size_activities, hu.memory.size_activities, ht.memory.size_activities]
      exact hp
    refine yields_store ?_
    split
    · rename_i v hreach
      refine yields_channel wt' htscope' hp'
        (single_of_reaching wt'.store hreach fun x hx => ?_)
      have h₁ : found.lower ≤ x := humem.2 x (htsub' c.rhs x hx)
      have h₂ : t'.store.lower c.rhs ≤ x := wt'.store.lower_le hx
      omega
    · split
      · exact ih wt' htscope' hp'
      · exact yields_pure wt' trivial

include w hscope in
/-- The propagator makes justified requests only. -/
lemma yields_propagate (hp : p.index < s.memory.activities.size) :
    Yields c.Justified p [] s (c.propagate p) fun _ _ => True := by
  rw [propagate]
  exact yields_get (yields_rounds w hscope hp _)

end Runs

end Maximum

end FiniteDomain
