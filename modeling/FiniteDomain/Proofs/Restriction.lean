import Mathlib.Tactic
import FiniteDomain.Proofs.Propagator.Disjunction
import FiniteDomain.Proofs.Store.Intersection

/-!
Restrictions as intersections.

A variable is restricted to a set by raising its lower bound, lowering its upper bound and
removing single values.  As long as some value of the domain is allowed, none of these requests
is refused, and they leave the intersection.  If no value is allowed, a bound just above the
domain is asked for, which is refused and changes nothing.  There is no such bound above the
greatest of all values: a domain that has it, and no allowed value, is cut down to it instead.

* `Store.Separates`: a restriction takes all values that are not allowed;
* `Store.Intersected`: what a granted restriction left and changed;
* `Store.restrictTo_of_meets`, `Store.restrictTo_of_disjoint`: the two cases;
* `Filter.ends_confine`: a propagator that restricts a variable and is done then;
* `Space.restriction_intersects`: restrictions in spaces with a reachable store, for which
  `Space.restriction_leaves_greatest` shows that the greatest value matters.
-/

namespace FiniteDomain

namespace Store

variable {cause : Option PropId} {s t : Store} {v : VarId} {allowed : IntervalSet} {b : Bool}

/-- Some value of the variable is allowed, or there is a bound above all its values. -/
def Separates (s : Store) (v : VarId) (allowed : IntervalSet) : Prop :=
  (∃ x, x ∈ s.domain v ∧ x ∈ allowed) ∨ Value.greatest ∉ s.domain v

/-- A granted restriction left the variable its allowed values, and the other roots all their
values.  It says whether a value was not allowed, and if there was none, nothing changed. -/
structure Intersected (v : VarId) (allowed : IntervalSet) (s t : Store) (b : Bool) : Prop where
  changed : b = true ↔ ¬ ∀ x, x ∈ s.domain v → x ∈ allowed
  domain : t.domain v = s.domain v ∩ allowed
  others : ∀ u, s.root u ≠ s.root v → t.domain u = s.domain u
  silent : b = false → t = s

variable (w : s.WellFormed) (hv : s.has v = true)

include w hv

/-- When some value is allowed, the restriction is granted, and leaves the intersection. -/
lemma restrictTo_of_meets (h : ∃ x, x ∈ s.domain v ∧ x ∈ allowed) :
    ∃ b t, restrictTo cause v allowed s = .ok b t ∧ Intersected v allowed s t b := by
  obtain ⟨x, hx, hmem⟩ := h
  have hends : Ends (restrictTo cause v allowed) s _ _ := ends_restrictTo w hv allowed
  cases hrun : restrictTo cause v allowed s with
  | error i t => exact absurd hmem (Ends.of_error hrun hends x hx)
  | ok b t =>
    obtain ⟨htouched, hleft⟩ := Ends.of_ok hrun hends
    have hdomain := hleft.resolve_right fun hnone => hnone.1 x hx hmem
    refine ⟨b, t, rfl, ⟨fun hb hall => ?_, fun hno => ?_⟩, ?_, htouched.frame,
      htouched.unchanged⟩
    · obtain ⟨y, hy, hlost⟩ := htouched.lost hb
      exact hlost ((hdomain y).2 ⟨hy, hall y hy⟩)
    · by_contra hb
      refine hno fun y hy => ?_
      rw [← htouched.unchanged (Bool.not_eq_true _ ▸ hb)] at hdomain hy
      exact ((hdomain y).1 hy).2
    · ext y
      rw [hdomain, IntervalSet.mem_inter]

/-- When no value is allowed, the bound just above the domain is refused. -/
lemma restrictTo_of_disjoint (hno : ∀ x, x ∈ s.domain v → x ∉ allowed)
    (hbelow : Value.greatest ∉ s.domain v) :
    ∃ t, restrictTo cause v allowed s = .error ⟨.crossed, v⟩ t ∧ t.trail = s.trail ∧
      ∀ u, t.domain u = s.domain u := by
  have hupper := w.upper_mem hv
  have hlt : s.upper v < Value.greatest := by
    refine Int.lt_iff_le_and_ne.2 ⟨(w.domain_inRange hv _ hupper).2, fun he => hbelow ?_⟩
    rwa [← he]
  have habove : ∀ x, x ∈ s.domain v → ¬ (Operation.atLeast (Value.above (s.upper v))).Holds x := by
    intro x hx hle
    rw [Value.above_of_lt hlt] at hle
    exact Int.not_le.2 (Int.lt_add_one_of_le (w.le_upper hx)) hle
  exact ⟨_, (restrictTo_eq_apply hno).trans (apply_of_not_holds w hv habove), rfl, fun _ => rfl⟩

/-- A restriction that is granted leaves no value that is not allowed. -/
lemma ends_restrictTo_of_separates (h : s.Separates v allowed) :
    Ends (restrictTo cause v allowed) s (fun _ t => ∀ x, x ∈ t.domain v → x ∈ allowed)
      fun _ _ => True := by
  by_cases hmeets : ∃ x, x ∈ s.domain v ∧ x ∈ allowed
  · obtain ⟨b, t, hrun, hleft⟩ := restrictTo_of_meets w hv hmeets
    rw [Ends, hrun]
    intro x hx
    rw [hleft.domain] at hx
    exact (IntervalSet.mem_inter.1 hx).2
  · obtain ⟨t, hrun, -⟩ := restrictTo_of_disjoint w hv
      (fun x hx hmem => hmeets ⟨x, hx, hmem⟩) (h.resolve_left hmeets)
    rw [Ends, hrun]
    trivial

end Store

/-! ### Propagators that restrict a variable -/

variable {s : Space} {p : PropId} {v : VarId} {allowed : IntervalSet}

namespace Filter

/-- A propagator that restricts a variable, and is done then, leaves no value that is not
allowed. -/
lemma ends_confine (w : s.store.WellFormed) (hv : s.store.has v = true)
    (h : s.store.Separates v allowed) :
    Ends (do discard (restrictTo p v allowed); setPassive p) s
      (fun _ t => ∀ x, x ∈ t.store.domain v → x ∈ allowed) fun _ _ => True := by
  have hstore : Ends (Store.restrictTo (some p) v allowed) s.store _ _ :=
    Store.ends_restrictTo_of_separates w hv h
  have hrestrict : Ends (restrictTo p v allowed) s
      (fun _ t => ∀ x, x ∈ t.store.domain v → x ∈ allowed) fun _ _ => True := by
    simp only [Ends, restrictTo, onStore] at hstore ⊢
    cases hrun : Store.restrictTo (some p) v allowed s.store with
    | ok b t =>
      rw [hrun] at hstore
      exact hstore
    | error i t => trivial
  exact Ends.bind (ends_discard hrestrict) fun _ _ ht => ends_modify ht

end Filter

/-- When a literal has to hold, its variable is restricted. -/
lemma Disjunction.propagate_of_unit {c : Disjunction} {l : Literal}
    (hscan : c.scan s.store c.clause none = .unit l) :
    c.propagate p s =
      (do discard (Filter.restrictTo p l.var l.allowed); Filter.setPassive p : Filter Unit) s := by
  have hstore : Filter.store s = .ok s.store s := rfl
  rw [Disjunction.propagate, bind_of_ok hstore, hscan]

namespace Space

/-- In each space with a reachable store, restricting a variable to a set is intersection with
the set, on roots and through any chain of views.  If some value of the domain is allowed, the
restriction is granted and says whether another one was not.  If none is, and the greatest of
all values is not in the domain either, it is refused in the name of the variable, and no domain
and no entry of the trail changes.  So a membership, or a disjunction of which one literal has
to hold, leaves only allowed values of the variable that it restricts when it is granted. -/
theorem restriction_intersects (h : s.store.Reachable) :
    (∀ (cause : Option PropId) (v : VarId) (allowed : IntervalSet), s.store.has v = true →
      ((∃ x, x ∈ s.store.domain v ∧ x ∈ allowed) →
        ∃ b t, Store.restrictTo cause v allowed s.store = .ok b t ∧
          Store.Intersected v allowed s.store t b) ∧
      ((∀ x, x ∈ s.store.domain v → x ∉ allowed) → Value.greatest ∉ s.store.domain v →
        ∃ t, Store.restrictTo cause v allowed s.store = .error ⟨.crossed, v⟩ t ∧
          t.trail = s.store.trail ∧ ∀ u, t.domain u = s.store.domain u)) ∧
    (∀ (p : PropId) (c : Member) (t : Space), s.store.has c.var = true →
      s.store.Separates c.var c.allowed → c.propagate p s = .ok () t →
      ∀ x, x ∈ t.store.domain c.var → x ∈ c.allowed) ∧
    ∀ (p : PropId) (c : Disjunction) (l : Literal) (t : Space),
      (∀ v ∈ c.scope, s.store.has v = true) → c.scan s.store c.clause none = .unit l →
      s.store.Separates l.var l.allowed → c.propagate p s = .ok () t →
      ∀ x, x ∈ t.store.domain l.var → x ∈ l.allowed := by
  obtain ⟨past, h⟩ := h
  have w := h.wellFormed
  refine ⟨fun cause v allowed hv => ⟨Store.restrictTo_of_meets w hv,
    Store.restrictTo_of_disjoint w hv⟩, fun p c t hv hsep hrun => ?_,
    fun p c l t hscope hscan hsep hrun => ?_⟩
  · exact Ends.of_ok hrun (Filter.ends_confine w hv hsep)
  · obtain ⟨hl, -⟩ := Disjunction.false_of_scan (List.nil_append _).symm
      Disjunction.falseBut_nil (by simp) hscan
    rw [Disjunction.propagate_of_unit hscan] at hrun
    exact Ends.of_ok hrun (Filter.ends_confine w (hscope _ (Disjunction.var_mem_scope hl)) hsep)

/-- A root and the negation of a comparison of it. -/
def viewedSpace : Space where
  store :=
    let s := (Store.addRoot {} (.ofRange 0 10)).2
    let s := (s.addView ⟨.atMost 4, ⟨0⟩⟩).2
    (s.addView ⟨.negation, ⟨1⟩⟩).2

/-- The root is restricted to a set with holes and to one that it is disjoint from, and the
negation to 1, also by a clause that can only hold there. -/
theorem restriction_intersects_viewed :
    (∃ b t, Store.restrictTo none ⟨0⟩ (.ofList [2, 5, 7, 12]) viewedSpace.store = .ok b t ∧
      Store.Intersected ⟨0⟩ (.ofList [2, 5, 7, 12]) viewedSpace.store t b) ∧
    (∃ t, Store.restrictTo none ⟨0⟩ (.ofRange 20 30) viewedSpace.store =
      .error ⟨.crossed, ⟨0⟩⟩ t ∧ t.trail = viewedSpace.store.trail ∧
        ∀ u, t.domain u = viewedSpace.store.domain u) ∧
    (∃ t, Member.propagate ⟨⟨2⟩, .ofRange 1 5⟩ ⟨0⟩ viewedSpace = .ok () t ∧
      ∀ x, x ∈ t.store.domain ⟨2⟩ → x ∈ IntervalSet.ofRange 1 5) ∧
    ∃ t, Disjunction.propagate ⟨[⟨⟨2⟩, .ofRange 1 5⟩, ⟨⟨0⟩, .ofRange 20 30⟩]⟩ ⟨0⟩ viewedSpace =
        .ok () t ∧
      ∀ x, x ∈ t.store.domain ⟨2⟩ → x ∈ IntervalSet.ofRange 1 5 := by
  have h : viewedSpace.store.Reachable := by
    refine ⟨[], .addView (.addView (.addRoot .empty ⟨0, by decide⟩ (by decide)) rfl nofun) rfl
      fun _ y hy => ?_⟩
    have hy := Booleans.mem_toSet.1 hy
    omega
  obtain ⟨hstore, hmember, hdisjunction⟩ := restriction_intersects h
  obtain ⟨t, ht⟩ := exists_of_result? (s := viewedSpace)
    (f := Member.propagate ⟨⟨2⟩, .ofRange 1 5⟩ ⟨0⟩) (a := ()) (by decide +kernel)
  obtain ⟨u, hu⟩ := exists_of_result? (s := viewedSpace) (a := ())
    (f := Disjunction.propagate ⟨[⟨⟨2⟩, .ofRange 1 5⟩, ⟨⟨0⟩, .ofRange 20 30⟩]⟩ ⟨0⟩)
    (by decide +kernel)
  have hsep : viewedSpace.store.Separates ⟨2⟩ (.ofRange 1 5) := .inl ⟨1, by decide, by decide⟩
  refine ⟨(hstore none ⟨0⟩ _ (by decide)).1 ⟨2, by decide, by decide⟩,
    (hstore none ⟨0⟩ _ (by decide)).2 (fun x hx hmem => ?_) (by decide),
    ⟨t, ht, hmember ⟨0⟩ _ t (by decide) hsep ht⟩,
    u, hu, hdisjunction ⟨0⟩ _ ⟨⟨2⟩, .ofRange 1 5⟩ u (by decide) (by rfl) hsep hu⟩
  have hle : x ≤ 10 := IntervalSet.le_upper hx
  have hge := (IntervalSet.mem_ofRange.1 hmem).1
  omega

/-- A root that can take the greatest of all values is granted a restriction to a set that it
is disjoint from, as a request and as a membership. -/
theorem restriction_leaves_greatest :
    let s : Space := { store := (Store.addRoot {} (.ofRange 0 Value.greatest)).2 }
    s.store.Reachable ∧ (∀ x, x ∈ s.store.domain ⟨0⟩ → x ∉ IntervalSet.ofRange (-5) (-1)) ∧
      (∃ t, Store.restrictTo none ⟨0⟩ (.ofRange (-5) (-1)) s.store = .ok true t ∧
        t.domain ⟨0⟩ = {Value.greatest}) ∧
      ∃ t, Member.propagate ⟨⟨0⟩, .ofRange (-5) (-1)⟩ ⟨0⟩ s = .ok () t ∧
        Value.greatest ∈ t.store.domain ⟨0⟩ ∧ Value.greatest ∉ IntervalSet.ofRange (-5) (-1) := by
  intro s
  refine ⟨⟨[], .addRoot .empty ⟨0, by decide⟩ (by decide)⟩, fun x hx hmem => ?_,
    ⟨_, rfl, by decide +kernel⟩, _, rfl, by decide +kernel, by decide⟩
  have hge : 0 ≤ x := IntervalSet.lower_le hx
  have hlt := (IntervalSet.mem_ofRange.1 hmem).2
  omega

end Space

end FiniteDomain
