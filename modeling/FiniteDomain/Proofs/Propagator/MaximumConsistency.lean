import Mathlib.Tactic
import FiniteDomain.Proofs.Propagator.Rest
import FiniteDomain.Proofs.Store.Kept

/-!
What the maximum leaves to each variable.

A call from scratch brings the bounds of the elements and of the right-hand side together.  If
all of them are ranges without holes, that is all there is to find out: each value that is left
occurs in a choice of values with the right maximum, and without such a choice the call fails.

* `IntervalSet.IsRange`: a set without holes, with `Maximum.isRange_narrowing`: requests for
  bounds make no holes;
* `Maximum.Tight`: how the bounds agree, with `Maximum.Met.balanced` and
  `Maximum.Balanced.tight`: both ways in which a call may end are of this kind;
* `Maximum.Solution`: a choice of values of the domains with the right maximum;
* `Maximum.solution_of_reaching`: a value that one element and the right-hand side share makes
  a solution of values below it, and `Maximum.Balanced.exists_solution`: so there is one for
  each value;
* `Maximum.propagate_bounds_consistent`: the two together.
-/

namespace FiniteDomain

namespace IntervalSet

/-- All integers between the least and the greatest member are members. -/
def IsRange (d : IntervalSet) : Prop := ∀ x, d.lower ≤ x → x ≤ d.upper → x ∈ d

instance (d : IntervalSet) : Decidable d.IsRange :=
  inferInstanceAs (Decidable (∀ x, d.lower ≤ x → x ≤ d.upper → x ∈ d))

/-- The part of a range that satisfies a bound is a range. -/
lemma IsRange.of_mem_iff {d d' : IntervalSet} {P : Int → Prop} (h : d.IsRange)
    (hne : ∃ x, x ∈ d') (hmem : ∀ x, x ∈ d' ↔ x ∈ d ∧ P x)
    (hP : ∀ x y z, P x → P z → x ≤ y → y ≤ z → P y) : d'.IsRange := by
  intro x hlo hhi
  obtain ⟨hlower, hPlo⟩ := (hmem _).1 (lower_mem hne)
  obtain ⟨hupper, hPhi⟩ := (hmem _).1 (upper_mem hne)
  refine (hmem x).2 ⟨h x ?_ ?_, hP _ x _ hPlo hPhi hlo hhi⟩
  · exact (lower_le hlower).trans hlo
  · exact hhi.trans (le_upper hupper)

end IntervalSet

namespace Maximum

variable {c : Maximum} {dom : VarId → IntervalSet} {v : VarId} {x : Int} {values : VarId → Int}

/-! ### How the bounds agree -/

/-- The greatest upper bound of the elements is that of the right-hand side, no lower bound is
above that of the right-hand side, and the only element that can reach the right-hand side has
its bounds. -/
structure Tight (c : Maximum) (dom : VarId → IntervalSet) : Prop where
  capped : ∀ v ∈ c.array, (dom v).upper ≤ (dom c.rhs).upper
  reached : ∃ v ∈ c.array, (dom v).upper = (dom c.rhs).upper
  raised : ∀ v ∈ c.array, (dom v).lower ≤ (dom c.rhs).lower
  only : ∀ v ∈ c.array, (∀ u ∈ c.array, u ≠ v → (dom u).upper < (dom c.rhs).lower) →
    (dom v).lower = (dom c.rhs).lower ∧ (dom v).upper = (dom c.rhs).upper

section Agreement

variable (hne : ∀ u ∈ c.scope, ∃ y, y ∈ dom u)

include hne

lemma lower_le_upper (hv : v ∈ c.scope) : (dom v).lower ≤ (dom v).upper :=
  IntervalSet.lower_le (IntervalSet.upper_mem (hne v hv))

/-- When the maximum is met, the bounds agree. -/
lemma Met.balanced (h : c.Met dom) : c.Balanced dom := by
  obtain ⟨k, hrhs, ⟨u, hu, hfix⟩, hall⟩ := h
  have hlower := hrhs _ (IntervalSet.lower_mem (hne _ rhs_mem_scope))
  have hupper := hrhs _ (IntervalSet.upper_mem (hne _ rhs_mem_scope))
  have hulower := hfix _ (IntervalSet.lower_mem (hne u (mem_scope_of_mem hu)))
  have huupper := hfix _ (IntervalSet.upper_mem (hne u (mem_scope_of_mem hu)))
  have hle : ∀ v ∈ c.array, (dom v).lower ≤ k ∧ (dom v).upper ≤ k := fun v hv =>
    ⟨hall v hv _ (IntervalSet.lower_mem (hne v (mem_scope_of_mem hv))),
      hall v hv _ (IntervalSet.upper_mem (hne v (mem_scope_of_mem hv)))⟩
  refine ⟨fun v hv => ?_, fun v hv => ?_, ⟨u, hu, ?_⟩, fun _ v hv hothers => ?_⟩
  · rw [hupper]
    exact (hle v hv).2
  · rw [hlower]
    exact (hle v hv).1
  · rw [hupper, huupper]
  · -- the element that is fixed can be reached by no other one
    have huv : u = v := by
      by_contra hne'
      have hlt := hothers u hu hne'
      omega
    subst huv
    rw [hlower, hulower]

/-- Bounds that agree do so to the limit, if the elements are different. -/
lemma Balanced.tight (h : c.Balanced dom) (hnodup : c.array.Nodup) : c.Tight dom := by
  obtain ⟨u, hu, hreached⟩ := h.reached
  refine ⟨h.capped, ⟨u, hu, (h.capped u hu).antisymm hreached⟩, h.raised,
    fun v hv hothers => ⟨?_, ?_⟩⟩
  · exact (h.raised v hv).antisymm (h.single hnodup v hv hothers)
  · have hrhs := lower_le_upper hne rhs_mem_scope
    have huv : u = v := by
      by_contra hne'
      have hlt := hothers u hu hne'
      omega
    subst huv
    exact (h.capped u hu).antisymm hreached

end Agreement

/-! ### Choices of values -/

/-- A choice of values of the domains of which the right-hand side has the greatest. -/
structure Solution (c : Maximum) (dom : VarId → IntervalSet) (values : VarId → Int) : Prop where
  mem : ∀ v ∈ c.scope, values v ∈ dom v
  holds : c.Holds values

/-- No request with grounds takes a value of a solution away. -/
lemma spares_solution : Grounds.Spares c.Justified c.scope c.Solution where
  mem h := h.mem
  moved h hmem := ⟨hmem, h.holds⟩
  holds h hJ := ⟨hJ.mem_scope, hJ.holds h.mem h.holds⟩

/-- One element takes the value of the right-hand side, and the others take values that are not
greater. -/
lemma solution_of_reaching {rest : VarId → Int} {u : VarId} {y : Int} (hrhs : c.rhs ∉ c.array)
    (hy : y ∈ dom c.rhs) (hu : u ∈ c.array) (hyu : y ∈ dom u)
    (hrest : ∀ v ∈ c.array, rest v ∈ dom v ∧ rest v ≤ y) :
    c.Solution dom (Function.update (Function.update rest u y) c.rhs y) := by
  have harray : ∀ v ∈ c.array, Function.update (Function.update rest u y) c.rhs y v
      = if v = u then y else rest v := by
    intro v hv
    have hvrhs : v ≠ c.rhs := fun heq => hrhs (heq ▸ hv)
    rw [Function.update_of_ne hvrhs, Function.update_apply]
  refine ⟨fun v hv => ?_, fun v hv => ?_, u, hu, ?_⟩
  · rcases List.mem_append.1 hv with hv | hv
    · rw [harray v hv]
      split
      · rwa [‹v = u›]
      · exact (hrest v hv).1
    · rwa [List.mem_singleton.1 hv, Function.update_self]
  · rw [harray v hv, Function.update_self]
    split
    · exact le_refl y
    · exact (hrest v hv).2
  · rw [harray u hu, if_pos rfl, Function.update_self]

section Supported

variable (hnodup : c.scope.Nodup) (hne : ∀ u ∈ c.scope, ∃ y, y ∈ dom u)
  (hrange : ∀ u ∈ c.scope, (dom u).IsRange)

include hnodup hne hrange in
/-- Each value of ranges whose bounds agree occurs in a solution.  A value that the right-hand
side has too is the maximum; one below can be left to an element that some other one exceeds. -/
lemma Balanced.exists_solution (h : c.Balanced dom) (hv : v ∈ c.scope) (hx : x ∈ dom v) :
    ∃ values, c.Solution dom values ∧ values v = x := by
  have hrhs : c.rhs ∉ c.array := fun hmem =>
    List.disjoint_of_nodup_append hnodup hmem (List.mem_singleton_self _)
  -- an element that reaches a value of the right-hand side has it
  have htakes : ∀ u ∈ c.array, ∀ y ∈ dom c.rhs, y ≤ (dom u).upper → y ∈ dom u :=
    fun u hu y hy hle =>
    hrange u (mem_scope_of_mem hu) y ((h.raised u hu).trans (IntervalSet.lower_le hy)) hle
  have hlowest : ∀ y ∈ dom c.rhs, ∀ u ∈ c.array, (dom u).lower ∈ dom u ∧ (dom u).lower ≤ y :=
    fun y hy u hu => ⟨IntervalSet.lower_mem (hne u (mem_scope_of_mem hu)),
      (h.raised u hu).trans (IntervalSet.lower_le hy)⟩
  rcases List.mem_append.1 hv with hv | hv
  swap
  · rcases List.mem_singleton.1 hv with rfl
    obtain ⟨u, hu, hreached⟩ := h.reached
    have hxu := htakes u hu x hx ((IntervalSet.le_upper hx).trans hreached)
    exact ⟨_, solution_of_reaching hrhs hx hu hxu (hlowest x hx), Function.update_self ..⟩
  have hvrhs : v ≠ c.rhs := fun heq => hrhs (heq ▸ hv)
  have hxupper : x ≤ (dom c.rhs).upper := (IntervalSet.le_upper hx).trans (h.capped v hv)
  by_cases hlow : (dom c.rhs).lower ≤ x
  · have hxrhs : x ∈ dom c.rhs := hrange _ rhs_mem_scope x hlow hxupper
    refine ⟨_, solution_of_reaching hrhs hxrhs hv hx (hlowest x hxrhs), ?_⟩
    rw [Function.update_of_ne hvrhs, Function.update_self]
  · obtain ⟨u, hu, huv, hreach⟩ : ∃ u ∈ c.array, u ≠ v ∧ (dom c.rhs).lower ≤ (dom u).upper := by
      by_contra hnone
      have hle := h.single (List.nodup_append.1 hnodup).1 v hv fun u hu huv =>
        not_le.1 fun hreach => hnone ⟨u, hu, huv, hreach⟩
      exact hlow (hle.trans (IntervalSet.lower_le hx))
    have hleast := IntervalSet.lower_mem (hne _ rhs_mem_scope)
    have hrest : ∀ w ∈ c.array, Function.update (fun w => (dom w).lower) v x w ∈ dom w ∧
        Function.update (fun w => (dom w).lower) v x w ≤ (dom c.rhs).lower := by
      intro w hw
      rw [Function.update_apply]
      split
      · rename_i hwv
        exact ⟨hwv ▸ hx, le_of_not_ge hlow⟩
      · exact hlowest _ hleast w hw
    refine ⟨_, solution_of_reaching hrhs hleast hu (htakes u hu _ hleast hreach) hrest, ?_⟩
    rw [Function.update_of_ne hvrhs, Function.update_of_ne huv.symm, Function.update_self]

end Supported

/-! ### Runs -/

section Runs

variable {s t : Store} {cause : Option PropId} (w : s.WellFormed)
  (hroots : (c.scope.map s.root).Nodup)

include w hroots in
/-- Requests for bounds make no holes. -/
lemma isRange_narrowing (hrange : ∀ v ∈ c.scope, (s.domain v).IsRange)
    (hrun : Store.Narrowing c.Justified cause s t) : ∀ v ∈ c.scope, (t.domain v).IsRange := by
  induction hrun with
  | refl => exact hrange
  | @step t u op rop d hrun hu hJ he ih =>
    have hsh := hrun.shrinks w
    have hstep := Store.shrinks_narrow (r := ⟨u, op, cause⟩) hsh.wellFormed hu he
    intro v hv
    by_cases hvu : v = u
    · subst hvu
      have hne := hstep.wellFormed.domain_nonempty ((hstep.has v).trans hu)
      refine (ih v hv).of_mem_iff hne (fun x => Store.mem_domain_narrow hsh.wellFormed hu he) ?_
      intro x y z hx hz hxy hyz
      cases op with
      | atLeast k => exact le_trans hx hxy
      | atMost k => exact le_trans hyz hz
      | differs k => exact hJ.elim
      | equals k => exact hJ.elim
    · have hroot : t.root v ≠ t.root u := by
        rw [hsh.root, hsh.root]
        exact fun heq => hvu (List.inj_on_of_nodup_map hroots hv hJ.mem_scope heq)
      rw [Store.domain_narrow_of_root_ne hsh.wellFormed hroot]
      exact ih v hv

end Runs

/-- Let the elements and the right-hand side be on different roots.  A call from scratch that
ends without an inconsistency leaves bounds that agree.  If all domains are ranges, it fails
exactly if no choice of their values has the right maximum, and otherwise leaves each variable
exactly the values that it has in such a choice. -/
theorem propagate_bounds_consistent {s : Space} {p : PropId} (w : s.WellFormed)
    (hscope : ∀ v ∈ c.scope, s.store.has v = true) (hroots : (c.scope.map s.store.root).Nodup)
    (harray : c.array ≠ []) (hp : p.index < s.memory.activities.size) :
    Ends (c.propagate p) s
      (fun _ t => c.Tight t.store.domain ∧
        ((∀ v ∈ c.scope, (s.store.domain v).IsRange) →
          (∃ values, c.Solution s.store.domain values) ∧
            ∀ v ∈ c.scope, ∀ x, x ∈ t.store.domain v ↔
              ∃ values, c.Solution s.store.domain values ∧ values v = x))
      fun stop _ => (∃ i, stop = .inconsistent i) ∧
        ¬ ∃ values, c.Solution s.store.domain values := by
  have hindep : (Propagator.maximum c).Independent s.store := hroots
  have hnodup : c.scope.Nodup := hindep.nodup
  have hsettles : Filter.Settles p [] s (c.propagate p) fun _ t => c.Reaches p s t :=
    settles_propagate w hscope hp harray
  refine ((yields_propagate w hscope hp).and hsettles).mono ?_ ?_
  · rintro _ t ⟨⟨hran, -⟩, -, hreaches⟩
    obtain ⟨wt, hscope', -⟩ := Filter.mem_of_ran w hscope hran
    have hne : ∀ v ∈ c.scope, ∃ x, x ∈ t.store.domain v := fun v hv =>
      wt.store.domain_nonempty (hscope' v hv)
    have hbalanced : c.Balanced t.store.domain := by
      rcases hreaches with ⟨-, hmet⟩ | ⟨-, hbalanced⟩
      · exact (hmet hindep.apart).balanced hne
      · exact hbalanced
    refine ⟨hbalanced.tight hne (List.nodup_append.1 hnodup).1, fun hrange => ?_⟩
    have hrange' := isRange_narrowing w.store hroots hrange hran.store
    exact hran.store.mem_iff_exists spares_solution w.store hroots rhs_mem_scope
      (hscope _ rhs_mem_scope) fun v hv x hx => hbalanced.exists_solution hnodup hne hrange' hv hx
  · rintro stop t ⟨hstopped, i, rfl⟩
    exact ⟨⟨i, rfl⟩, hstopped.1.not_exists spares_solution w.store hroots⟩

/-- Two variables, a view on a third one, and a variable that only one of them reaches. -/
def rangedSpace : Space where
  store :=
    let s := (Store.addRoot {} (.ofRange 0 3)).2
    let s := (s.addRoot (.ofRange 2 6)).2
    let s := (s.addRoot (.ofRange 0 9)).2
    let s := (s.addView ⟨.atMost 5, ⟨2⟩⟩).2
    (s.addRoot (.ofRange 4 8)).2
  memory := ({} : Memory).addActivity

/-- The two variables and the view have the last variable as their maximum. -/
theorem propagate_bounds_consistent_ranged :
    Ends (propagate ⟨[⟨0⟩, ⟨1⟩, ⟨3⟩], ⟨4⟩⟩ ⟨0⟩) rangedSpace
      (fun _ t => Tight ⟨[⟨0⟩, ⟨1⟩, ⟨3⟩], ⟨4⟩⟩ t.store.domain ∧
        (∃ values, Solution ⟨[⟨0⟩, ⟨1⟩, ⟨3⟩], ⟨4⟩⟩ rangedSpace.store.domain values) ∧
        ∀ v ∈ scope ⟨[⟨0⟩, ⟨1⟩, ⟨3⟩], ⟨4⟩⟩, ∀ x, x ∈ t.store.domain v ↔
          ∃ values, Solution ⟨[⟨0⟩, ⟨1⟩, ⟨3⟩], ⟨4⟩⟩ rangedSpace.store.domain values ∧
            values v = x)
      fun stop _ => (∃ i, stop = .inconsistent i) ∧
        ¬ ∃ values, Solution ⟨[⟨0⟩, ⟨1⟩, ⟨3⟩], ⟨4⟩⟩ rangedSpace.store.domain values := by
  have hroots := ((Store.wellFormed_empty.addRoot (d := .ofRange 0 3) ⟨0, by decide⟩
    (by decide)).addRoot (d := .ofRange 2 6) ⟨2, by decide⟩ (by decide)).addRoot
    (d := .ofRange 0 9) ⟨0, by decide⟩ (by decide)
  have hview := @Store.WellFormed.addView _ hroots ⟨.atMost 5, ⟨2⟩⟩ (by decide) nofun
  have hstore := hview.addRoot (d := .ofRange 4 8) ⟨4, by decide⟩ (by decide)
  have hspace : rangedSpace.WellFormed := ⟨hstore, Memory.wellFormed_empty.addActivity⟩
  have h := @propagate_bounds_consistent ⟨[⟨0⟩, ⟨1⟩, ⟨3⟩], ⟨4⟩⟩ rangedSpace ⟨0⟩ hspace (by decide)
    (by decide) (by decide) (by decide)
  refine h.mono (fun _ t ht => ⟨ht.1, ht.2 ?_⟩) fun _ _ h => h
  decide

end Maximum

end FiniteDomain
