import Mathlib.Tactic
import FiniteDomain.Proofs.Store.Explanation

/-!
Why counting may narrow a domain.

How often the counted value is taken lies between the number of variables that are
fixed to it and the number of those that still have it.  All that the propagator
does rests on these two numbers, read off the domains.

* `tally`: the number of variables with a property, and `length_le_tally`,
  `tally_le_length`, which compare it with lists of places;
* `Count.Justified`: the grounds of each kind of request, and
  `Count.Justified.mono`: they are not lost when domains shrink;
* `Count.Justified.holds`: a solution within the domains satisfies the request;
* `Count.explains_explain`: the explanations are valid.
-/

namespace FiniteDomain

/-! ### Counting -/

open Classical in
/-- The number of variables in a list with a property. -/
noncomputable def tally (vs : List VarId) (P : VarId → Prop) : Nat :=
  vs.countP fun v => decide (P v)

section Tally

variable {vs : List VarId} {P Q : VarId → Prop} {places : List Nat}

lemma tally_mono (h : ∀ v ∈ vs, P v → Q v) : tally vs P ≤ tally vs Q :=
  List.countP_mono_left fun v hv hP => by simpa using h v hv (by simpa using hP)

lemma tally_le : tally vs P ≤ vs.length := List.countP_le_length

/-- A variable that has only the weaker property makes a difference. -/
lemma tally_lt {v : VarId} (h : ∀ u ∈ vs, P u → Q u) (hv : v ∈ vs) (hP : ¬ P v) (hQ : Q v) :
    tally vs P < tally vs Q := by
  obtain ⟨front, back, rfl⟩ := List.append_of_mem hv
  have hfront : tally front P ≤ tally front Q :=
    tally_mono fun u hu => h u (List.mem_append_left _ hu)
  have hback : tally back P ≤ tally back Q :=
    tally_mono fun u hu => h u (List.mem_append_right _ (List.mem_cons_of_mem _ hu))
  simp only [tally, List.countP_append, List.countP_cons, hP, hQ, decide_true, decide_false,
    if_true, Bool.false_eq_true, if_false] at *
  omega

lemma length_filter_eq_tally [DecidablePred P] :
    (vs.filter fun v => decide (P v)).length = tally vs P := by
  rw [← List.countP_eq_length_filter]
  exact List.countP_congr fun v _ => by simp only [decide_eq_true_eq]

open Classical in
/-- The count over the places of a list. -/
lemma tally_eq_countP_range (vs : List VarId) (P : VarId → Prop) :
    tally vs P = (List.range vs.length).countP
      fun i => (vs[i]?).any fun v => decide (P v) := by
  induction vs using List.reverseRecOn with
  | nil => rfl
  | append_singleton vs v ih =>
    rw [tally, List.countP_append, ← tally, ih, List.length_append, List.length_singleton,
      List.range_succ, List.countP_append, List.countP_singleton, List.countP_singleton]
    congr 1
    · refine List.countP_congr fun i hi => ?_
      rw [List.getElem?_append_left (List.mem_range.1 hi)]
    · simp

/-- Different places whose variables have the property. -/
lemma length_le_tally (hnodup : places.Nodup)
    (h : ∀ i ∈ places, ∃ v, vs[i]? = some v ∧ P v) : places.length ≤ tally vs P := by
  classical
  rw [tally_eq_countP_range, List.countP_eq_length_filter]
  refine (List.Nodup.subperm hnodup fun i hi => ?_).length_le
  obtain ⟨v, hv, hP⟩ := h i hi
  refine List.mem_filter.2 ⟨List.mem_range.2 (List.getElem?_eq_some_iff.1 hv).1, ?_⟩
  rw [Option.any_eq_true]
  exact ⟨v, hv, decide_eq_true hP⟩

/-- Places at which all variables with the property are found. -/
lemma tally_le_length (h : ∀ i v, vs[i]? = some v → P v → i ∈ places) :
    tally vs P ≤ places.length := by
  classical
  rw [tally_eq_countP_range, List.countP_eq_length_filter]
  refine (List.Nodup.subperm (List.nodup_range.filter _) fun i hi => ?_).length_le
  obtain ⟨v, hv, hP⟩ := (Option.any_eq_true _ _).1 (List.mem_filter.1 hi).2
  exact h i v hv (of_decide_eq_true hP)

/-- A variable without the property can be left out. -/
lemma tally_le_ne (vs : List VarId) {v : VarId} (hv : ¬ P v) :
    tally vs P ≤ tally vs fun u => P u ∧ u ≠ v :=
  tally_mono fun _ _ hu => ⟨hu, fun heq => hv (heq ▸ hu)⟩

/-- A variable with the property need not be added. -/
lemma tally_or_eq_le (vs : List VarId) {v : VarId} (hv : P v) :
    tally vs (fun u => P u ∨ u = v) ≤ tally vs P :=
  tally_mono fun _ _ hu => hu.elim id fun heq => heq ▸ hv

end Tally

namespace Count

variable {c : Count} {dom dom' : VarId → IntervalSet} {v : VarId} {op : Operation}

/-- What the constraint says, with the count of the solution. -/
lemma holds_iff {values : VarId → Int} :
    c.Holds values ↔ (tally c.vars fun u => values u = c.value : Int) = values c.card := by
  rw [Holds, length_filter_eq_tally]

/-- The variable is fixed to the counted value. -/
def Fixed (c : Count) (dom : VarId → IntervalSet) (u : VarId) : Prop :=
  ∀ x, x ∈ dom u → x = c.value

/-- The grounds of a request.  Bounds of the cardinality are the two numbers; a
variable has to take the value if there are too few without it, and must not take it
if there were too many with it. -/
def Justified (c : Count) : Grounds := fun dom v op =>
  match op with
  | .atLeast k => v = c.card ∧ k ≤ tally c.vars (c.Fixed dom)
  | .atMost k => v = c.card ∧ (tally c.vars fun u => c.value ∈ dom u : Int) ≤ k
  | .equals k => k = c.value ∧ v ∈ c.vars ∧ ∃ n, (∀ x, x ∈ dom c.card → x = n) ∧
      (tally c.vars fun u => c.value ∈ dom u ∧ u ≠ v : Int) < n
  | .differs k => k = c.value ∧ v ∈ c.vars ∧ ∃ n, (∀ x, x ∈ dom c.card → x = n) ∧
      n < (tally c.vars fun u => c.Fixed dom u ∨ u = v : Int)

lemma mem_scope_of_mem (hv : v ∈ c.vars) : v ∈ c.scope := List.mem_append_left _ hv

lemma card_mem_scope : c.card ∈ c.scope := List.mem_append_right _ (List.mem_singleton_self _)

lemma Fixed.mono (hsub : ∀ x, x ∈ dom' v → x ∈ dom v) (h : c.Fixed dom v) : c.Fixed dom' v :=
  fun x hx => h x (hsub x hx)

/-- Grounds are not lost when domains shrink. -/
lemma Justified.mono (hsub : ∀ u ∈ c.scope, ∀ x, x ∈ dom' u → x ∈ dom u)
    (h : c.Justified dom v op) : c.Justified dom' v op := by
  have hvars : ∀ u ∈ c.vars, ∀ x, x ∈ dom' u → x ∈ dom u :=
    fun u hu => hsub u (mem_scope_of_mem hu)
  have hcard : ∀ x, x ∈ dom' c.card → x ∈ dom c.card :=
    hsub c.card card_mem_scope
  cases op with
  | atLeast k =>
    have hle : tally c.vars (c.Fixed dom) ≤ tally c.vars (c.Fixed dom') :=
      tally_mono fun u hu => Fixed.mono (hvars u hu)
    exact ⟨h.1, by have := h.2; omega⟩
  | atMost k =>
    have hle : tally c.vars (fun u => c.value ∈ dom' u) ≤ tally c.vars fun u => c.value ∈ dom u :=
      tally_mono fun u hu => hvars u hu _
    exact ⟨h.1, by have := h.2; omega⟩
  | equals k =>
    obtain ⟨hk, hv, n, hn, hlt⟩ := h
    have hle : tally c.vars (fun u => c.value ∈ dom' u ∧ u ≠ v)
        ≤ tally c.vars fun u => c.value ∈ dom u ∧ u ≠ v :=
      tally_mono fun u hu hx => ⟨hvars u hu _ hx.1, hx.2⟩
    exact ⟨hk, hv, n, fun x hx => hn x (hcard x hx), by omega⟩
  | differs k =>
    obtain ⟨hk, hv, n, hn, hlt⟩ := h
    have hle : tally c.vars (fun u => c.Fixed dom u ∨ u = v)
        ≤ tally c.vars fun u => c.Fixed dom' u ∨ u = v :=
      tally_mono fun u hu hx => hx.imp_left (Fixed.mono (hvars u hu))
    exact ⟨hk, hv, n, fun x hx => hn x (hcard x hx), by omega⟩

lemma Justified.mem_scope (h : c.Justified dom v op) : v ∈ c.scope := by
  cases op with
  | atLeast k => exact h.1 ▸ card_mem_scope
  | atMost k => exact h.1 ▸ card_mem_scope
  | equals k => exact mem_scope_of_mem h.2.1
  | differs k => exact mem_scope_of_mem h.2.1

/-- A solution within the domains satisfies every justified request. -/
lemma Justified.holds {values : VarId → Int} (hin : ∀ u ∈ c.scope, values u ∈ dom u)
    (hc : c.Holds values) (h : c.Justified dom v op) : op.Holds (values v) := by
  have hvars : ∀ u ∈ c.vars, values u ∈ dom u := fun u hu => hin u (mem_scope_of_mem hu)
  have hcard : values c.card ∈ dom c.card :=
    hin c.card card_mem_scope
  rw [holds_iff] at hc
  cases op with
  | atLeast k =>
    obtain ⟨rfl, hk⟩ := h
    have hle : tally c.vars (c.Fixed dom) ≤ tally c.vars fun u => values u = c.value :=
      tally_mono fun u hu hfix => hfix _ (hvars u hu)
    rw [Operation.Holds]
    omega
  | atMost k =>
    obtain ⟨rfl, hk⟩ := h
    have hle : tally c.vars (fun u => values u = c.value) ≤ tally c.vars fun u => c.value ∈ dom u :=
      tally_mono fun u hu hval => hval ▸ hvars u hu
    rw [Operation.Holds]
    omega
  | equals k =>
    obtain ⟨rfl, hv, n, hn, hlt⟩ := h
    by_contra hne
    have hle : tally c.vars (fun u => values u = c.value)
        ≤ tally c.vars fun u => c.value ∈ dom u ∧ u ≠ v := by
      refine tally_mono fun u hu hval => ⟨hval ▸ hvars u hu, ?_⟩
      rintro rfl
      exact hne hval
    have := hn _ hcard
    omega
  | differs k =>
    obtain ⟨rfl, hv, n, hn, hlt⟩ := h
    intro heq
    have hle : tally c.vars (fun u => c.Fixed dom u ∨ u = v)
        ≤ tally c.vars fun u => values u = c.value := by
      refine tally_mono fun u hu hx => ?_
      rcases hx with hfix | rfl
      · exact hfix _ (hvars u hu)
      · exact heq
    have := hn _ hcard
    omega

/-! ### Explanations -/

section Explain

variable {s : Store} {p : Nat} {r : Request}

/-- A variable is fixed to the value before a position if both bounds are. -/
lemma fixed_iff (w : s.WellFormed) (hv : s.has v = true) :
    c.Fixed (fun u => s.domainAt u p) v ↔
      s.lowerAt v p = c.value ∧ s.upperAt v p = c.value := by
  have hne := w.domainAt_nonempty (q := p) hv
  constructor
  · intro h
    exact ⟨h _ (IntervalSet.lower_mem hne), h _ (IntervalSet.upper_mem hne)⟩
  · rintro ⟨hlo, hhi⟩ x hx
    have h₁ := IntervalSet.lower_le hx
    have h₂ := IntervalSet.le_upper hx
    simp only [Store.lowerAt, Store.upperAt] at hlo hhi h₁ h₂
    omega

/-- The literals on variables fixed to the value. -/
lemma explainByFixed_spec (except : Option VarId) (e : Explanation) (w : s.WellFormed)
    (hscope : ∀ v ∈ c.vars, s.has v = true) :
    (c.explainByFixed s p except e).pivot = e.pivot ∧
      ∀ l, l ∈ (c.explainByFixed s p except e).literals ↔ l ∈ e.literals ∨
        ∃ v ∈ c.vars, (some v ≠ except ∧ c.Fixed (fun u => s.domainAt u p) v) ∧
          l = ⟨v, c.others s v⟩ := by
  have heq : c.explainByFixed s p except e = ⟨e.literals ++ c.vars.flatMap fun v =>
      if some v ≠ except ∧ s.lowerAt v p = c.value ∧ s.upperAt v p = c.value
        then [⟨v, c.others s v⟩] else [], e.pivot⟩ := by
    refine Explanation.foldl_literals _ _ (fun e v => ?_) c.vars e
    split
    · rfl
    · rw [List.append_nil]
  rw [heq]
  refine ⟨rfl, fun l => ?_⟩
  simp only [List.mem_append, List.mem_flatMap]
  refine or_congr Iff.rfl (exists_congr fun v => and_congr_right fun hv => ?_)
  rw [fixed_iff w (hscope v hv)]
  split <;> simp_all

/-- The literals on variables that lost the value. -/
lemma explainByExcluded_spec (s : Store) (except : Option VarId) (e : Explanation) :
    (c.explainByExcluded s p except e).pivot = e.pivot ∧
      ∀ l, l ∈ (c.explainByExcluded s p except e).literals ↔ l ∈ e.literals ∨
        ∃ v ∈ c.vars, (some v ≠ except ∧ c.value ∉ s.domainAt v p) ∧
          c.value ∈ s.initial v ∧ l = ⟨v, c.only s v⟩ := by
  have heq : c.explainByExcluded s p except e = ⟨e.literals ++ c.vars.flatMap fun v =>
      if some v ≠ except ∧ c.value ∉ s.domainAt v p
        then if (c.only s v).isEmpty then [] else [⟨v, c.only s v⟩] else [], e.pivot⟩ := by
    refine Explanation.foldl_literals _ _ (fun e v => ?_) c.vars e
    split
    · rw [Explanation.addNonempty_eq]
    · rw [List.append_nil]
  have honly : ∀ v, (c.only s v).isEmpty = false ↔ c.value ∈ s.initial v := by
    intro v
    rw [IntervalSet.isEmpty_eq_false_iff, only]
    constructor
    · rintro ⟨x, hx⟩
      obtain ⟨hx, hlo, hhi⟩ := IntervalSet.mem_between.1 hx
      rwa [show c.value = x by omega]
    · intro h
      exact ⟨_, IntervalSet.mem_between.2 ⟨h, Int.le_refl _, Int.le_refl _⟩⟩
  rw [heq]
  refine ⟨rfl, fun l => ?_⟩
  simp only [List.mem_append, List.mem_flatMap]
  refine or_congr Iff.rfl (exists_congr fun v => and_congr_right fun hv => ?_)
  rw [← honly]
  split
  · cases hempty : (c.only s v).isEmpty <;> simp_all
  · simp_all

variable {ρ : VarId → Int}

/-- A solution that satisfies none of the literals on fixed variables takes the value
wherever they are fixed. -/
lemma value_eq_of_fixed (w : s.WellFormed) (hρ : s.Initial ρ) (hv : s.has v = true)
    (h : ¬ (⟨v, c.others s v⟩ : Literal).Holds (s.value ρ)) : s.value ρ v = c.value := by
  by_contra hne
  exact h (IntervalSet.mem_erase.2 ⟨w.value_mem_initial hρ hv, hne⟩)

/-- One that satisfies none of the literals on variables without the value does not
take it there. -/
lemma value_ne_of_excluded (w : s.WellFormed) (hρ : s.Initial ρ) (hv : s.has v = true)
    (h : c.value ∈ s.initial v → ¬ (⟨v, c.only s v⟩ : Literal).Holds (s.value ρ)) :
    s.value ρ v ≠ c.value := by
  intro heq
  have hmem := w.value_mem_initial hρ hv
  exact h (heq ▸ hmem) (IntervalSet.mem_between.2 ⟨hmem, heq.ge, heq.le⟩)

variable (w : s.WellFormed) (hscope : ∀ v ∈ c.scope, s.has v = true) {k n : Int}
  {cause : Option PropId}

include w hscope in
/-- A lower bound of the cardinality is explained by the variables that are fixed. -/
lemma explains_atLeast (site : s.Site p ⟨c.card, .atLeast k, cause⟩)
    (hk : k ≤ tally c.vars (c.Fixed fun u => s.domainAt u p)) :
    s.Explains (.count c) p ⟨c.card, .atLeast k, cause⟩ (c.explainByFixed s p none
      (({} : Explanation).addPivot c.card ((s.initial c.card).atLeast k))) := by
  have hvars : ∀ v ∈ c.vars, s.has v = true := fun v hv => hscope v (mem_scope_of_mem hv)
  obtain ⟨hpivot, hlits⟩ := explainByFixed_spec (p := p) none
    (({} : Explanation).addPivot c.card ((s.initial c.card).atLeast k)) w hvars
  refine Store.explains_of_literals w site hpivot (fun j => IntervalSet.mem_atLeast)
    (fun l hl => ?_) fun ρ hρ hc hno => ?_
  · rcases (hlits l).1 hl with hl | ⟨u, hu, ⟨-, hfix⟩, rfl⟩
    · cases hl
    · exact ⟨hvars u hu, fun j hj hin => (IntervalSet.mem_erase.1 hj).2 (hfix j hin)⟩
  · have hc := holds_iff.1 hc
    have hle : tally c.vars (c.Fixed fun u => s.domainAt u p)
        ≤ tally c.vars fun u => s.value ρ u = c.value := by
      refine tally_mono fun u hu hfix => value_eq_of_fixed w hρ (hvars u hu) (hno _ ?_)
      exact (hlits _).2 (.inr ⟨u, hu, ⟨by simp, hfix⟩, rfl⟩)
    rw [Operation.Holds]
    dsimp only
    omega

include w hscope in
/-- An upper bound of the cardinality is explained by the variables without the
value. -/
lemma explains_atMost (site : s.Site p ⟨c.card, .atMost k, cause⟩)
    (hk : (tally c.vars fun u => c.value ∈ s.domainAt u p : Int) ≤ k) :
    s.Explains (.count c) p ⟨c.card, .atMost k, cause⟩ (c.explainByExcluded s p none
      (({} : Explanation).addPivot c.card ((s.initial c.card).atMost k))) := by
  have hvars : ∀ v ∈ c.vars, s.has v = true := fun v hv => hscope v (mem_scope_of_mem hv)
  obtain ⟨hpivot, hlits⟩ := explainByExcluded_spec (c := c) (p := p) s none
    (({} : Explanation).addPivot c.card ((s.initial c.card).atMost k))
  refine Store.explains_of_literals w site hpivot (fun j => IntervalSet.mem_atMost)
    (fun l hl => ?_) fun ρ hρ hc hno => ?_
  · rcases (hlits l).1 hl with hl | ⟨u, hu, ⟨-, hout⟩, -, rfl⟩
    · cases hl
    · refine ⟨hvars u hu, fun j hj hin => hout ?_⟩
      obtain ⟨-, hlo, hhi⟩ := IntervalSet.mem_between.1 hj
      rwa [show c.value = j by omega]
  · have hc := holds_iff.1 hc
    have hle : tally c.vars (fun u => s.value ρ u = c.value)
        ≤ tally c.vars fun u => c.value ∈ s.domainAt u p := by
      refine tally_mono fun u hu hval => ?_
      by_contra hout
      refine value_ne_of_excluded w hρ (hvars u hu) (fun hinit => hno _ ?_) hval
      exact (hlits _).2 (.inr ⟨u, hu, ⟨by simp, hout⟩, hinit, rfl⟩)
    rw [Operation.Holds]
    dsimp only
    omega

include w hscope in
/-- That a variable takes the value is explained by the cardinality and the other
variables without the value. -/
lemma explains_equals (site : s.Site p ⟨v, .equals c.value, cause⟩)
    (hn : ∀ x, x ∈ s.domainAt c.card p → x = n)
    (hlt : (tally c.vars fun u => c.value ∈ s.domainAt u p ∧ u ≠ v : Int) < n) :
    s.Explains (.count c) p ⟨v, .equals c.value, cause⟩
      ((c.explainByExcluded s p (some v)
        (({} : Explanation).add c.card ((s.initial c.card).atMost (n - 1)))).addPivot v
          (c.only s v)) := by
  have hvars : ∀ v ∈ c.vars, s.has v = true := fun v hv => hscope v (mem_scope_of_mem hv)
  have hcard : s.has c.card = true :=
    hscope _ card_mem_scope
  obtain ⟨hpivot, hlits⟩ := explainByExcluded_spec (c := c) (p := p) s (some v)
    (({} : Explanation).add c.card ((s.initial c.card).atMost (n - 1)))
  rw [Explanation.addPivot_of_none (hpivot.trans rfl)]
  refine Store.explains_of_literals w site rfl (fun j => ?_) (fun l hl => ?_)
    fun ρ hρ hc hno => ?_
  · rw [only, IntervalSet.mem_between, Operation.Holds]
    exact and_congr_right fun _ => ⟨fun h => by omega, fun h => by omega⟩
  · rcases (hlits l).1 hl with hl | ⟨u, hu, ⟨-, hout⟩, -, rfl⟩
    · rcases List.mem_singleton.1 hl with rfl
      refine ⟨hcard, fun j hj hin => ?_⟩
      have := hn j hin
      have := (IntervalSet.mem_atMost.1 hj).2
      omega
    · refine ⟨hvars u hu, fun j hj hin => hout ?_⟩
      obtain ⟨-, hlo, hhi⟩ := IntervalSet.mem_between.1 hj
      rwa [show c.value = j by omega]
  · have hc := holds_iff.1 hc
    have hmany : n ≤ s.value ρ c.card := by
      by_contra hlt
      refine hno ⟨c.card, (s.initial c.card).atMost (n - 1)⟩
        ((hlits _).2 (.inl (List.mem_singleton_self _))) ?_
      exact IntervalSet.mem_atMost.2 ⟨w.value_mem_initial hρ hcard, by dsimp only; omega⟩
    by_contra hval
    have hle : tally c.vars (fun u => s.value ρ u = c.value)
        ≤ tally c.vars fun u => c.value ∈ s.domainAt u p ∧ u ≠ v := by
      refine tally_mono fun u hu huval => ?_
      have huv : u ≠ v := by
        rintro rfl
        exact hval huval
      refine ⟨?_, huv⟩
      by_contra hout
      refine value_ne_of_excluded w hρ (hvars u hu) (fun hinit => hno _ ?_) huval
      exact (hlits _).2 (.inr ⟨u, hu, ⟨by simpa using huv, hout⟩, hinit, rfl⟩)
    omega

include w hscope in
/-- That a variable does not take the value is explained by the cardinality and the
other variables that are fixed. -/
lemma explains_differs (site : s.Site p ⟨v, .differs c.value, cause⟩)
    (hn : ∀ x, x ∈ s.domainAt c.card p → x = n)
    (hlt : n < (tally c.vars fun u => c.Fixed (fun u => s.domainAt u p) u ∨ u = v : Int)) :
    s.Explains (.count c) p ⟨v, .differs c.value, cause⟩
      ((c.explainByFixed s p (some v)
        (({} : Explanation).add c.card ((s.initial c.card).atLeast (n + 1)))).addPivot v
          (c.others s v)) := by
  have hvars : ∀ v ∈ c.vars, s.has v = true := fun v hv => hscope v (mem_scope_of_mem hv)
  have hcard : s.has c.card = true :=
    hscope _ card_mem_scope
  obtain ⟨hpivot, hlits⟩ := explainByFixed_spec (p := p) (some v)
    (({} : Explanation).add c.card ((s.initial c.card).atLeast (n + 1))) w hvars
  rw [Explanation.addPivot_of_none (hpivot.trans rfl)]
  refine Store.explains_of_literals w site rfl (fun j => IntervalSet.mem_erase)
    (fun l hl => ?_) fun ρ hρ hc hno => ?_
  · rcases (hlits l).1 hl with hl | ⟨u, hu, ⟨-, hfix⟩, rfl⟩
    · rcases List.mem_singleton.1 hl with rfl
      refine ⟨hcard, fun j hj hin => ?_⟩
      have := hn j hin
      have := (IntervalSet.mem_atLeast.1 hj).2
      omega
    · exact ⟨hvars u hu, fun j hj hin => (IntervalSet.mem_erase.1 hj).2 (hfix j hin)⟩
  · have hc := holds_iff.1 hc
    have hfew : s.value ρ c.card ≤ n := by
      by_contra hlt
      refine hno ⟨c.card, (s.initial c.card).atLeast (n + 1)⟩
        ((hlits _).2 (.inl (List.mem_singleton_self _))) ?_
      exact IntervalSet.mem_atLeast.2 ⟨w.value_mem_initial hρ hcard, by dsimp only; omega⟩
    intro hval
    have hle : tally c.vars (fun u => c.Fixed (fun u => s.domainAt u p) u ∨ u = v)
        ≤ tally c.vars fun u => s.value ρ u = c.value := by
      refine tally_mono fun u hu hor => ?_
      by_cases huv : u = v
      · rw [huv]
        exact hval
      · refine value_eq_of_fixed w hρ (hvars u hu) (hno _ ?_)
        exact (hlits _).2 (.inr ⟨u, hu, ⟨by simpa using huv, hor.resolve_right huv⟩, rfl⟩)
    omega

include w hscope in
/-- The explanations of counting are valid.  The number of variables has to be a
value, since the propagator counts in values. -/
lemma explains_explain (hlen : (c.vars.length : Int) ≤ Value.greatest) (site : s.Site p r)
    (hJ : c.Justified (fun v => s.domainAt v p) r.var r.operation) :
    s.Explains (.count c) p r (c.explain s p r) := by
  have hcard : s.has c.card = true :=
    hscope _ card_mem_scope
  have hbyscope : s.Explains (.count c) p r (s.explainByScope p r c.scope) :=
    Store.explains_explainByScope w site hscope hJ.mem_scope fun ρ _ hc hin => hJ.holds hin hc
  obtain ⟨v, op, cause⟩ := r
  cases op with
  | atLeast k =>
    obtain ⟨hvar, hk⟩ := hJ
    have hvar : v = c.card := hvar
    subst hvar
    simp only [explain, if_true]
    exact explains_atLeast w hscope site hk
  | atMost k =>
    obtain ⟨hvar, hk⟩ := hJ
    have hvar : v = c.card := hvar
    subst hvar
    simp only [explain, if_true]
    exact explains_atMost w hscope site hk
  | equals k =>
    simp only [explain]
    split
    case isFalse => exact hbyscope
    rename_i hcase
    obtain ⟨-, rfl⟩ := hcase
    obtain ⟨-, -, n, hn, hlt⟩ := hJ
    have hlow : s.lowerAt c.card p = n :=
      hn _ (IntervalSet.lower_mem (w.domainAt_nonempty hcard))
    -- the cardinality is positive, so that there is a value below it
    rw [hlow, Value.below_of_gt (by rw [Value.least]; omega)]
    exact explains_equals w hscope site hn hlt
  | differs k =>
    simp only [explain]
    split
    case isFalse => exact hbyscope
    rename_i hcase
    obtain ⟨-, rfl⟩ := hcase
    obtain ⟨-, -, n, hn, hlt⟩ := hJ
    have hup : s.upperAt c.card p = n :=
      hn _ (IntervalSet.upper_mem (w.domainAt_nonempty hcard))
    -- the cardinality is less than the number of variables, which is a value
    dsimp only at hlt
    have hle : tally c.vars (fun u => c.Fixed (fun u => s.domainAt u p) u ∨ u = v)
        ≤ c.vars.length := tally_le
    rw [hup, Value.above_of_lt (by omega)]
    exact explains_differs w hscope site hn hlt

end Explain

end Count

end FiniteDomain
