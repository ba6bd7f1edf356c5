import Mathlib.Tactic
import FiniteDomain.Proofs.Propagator.Forcing

/-!
What a propagator answers when it is asked for entailment.

The answer is read off the bounds of the domains, whether the propagator is at rest or not, and
it is right about all choices of values from them.  It is only undetermined while something is
left to choose.

A constraint that no values of the domains satisfy always leaves its propagator something to
narrow: the bounds that disprove it are grounds for a request that does not hold.  So on domains
where all requests with grounds hold already, no propagator reports that its constraint is
violated.

* `Entailment.Decides`: an answer that is right, and given when all variables are fixed;
* `Count.decides`, `Maximum.decides`, `Member.decides`, `Disjunction.decides`: one propagator
  each, and `Propagator.decides`: all of them;
* `Count.not_violated`, `Maximum.not_violated`, `Member.not_violated`,
  `Disjunction.not_violated`: one propagator each;
* `Propagator.not_violated_of_closed`: all of them.
-/

namespace FiniteDomain

variable {s : Store}

/-- An answer about a property of the values of some variables is right.  If it is that the
property holds, then all choices from the domains have it; if it is that the property is violated,
then none has; and it is one of the two when all variables are fixed. -/
structure Entailment.Decides (answer : Entailment) (s : Store) (scope : List VarId)
    (P : (VarId → Int) → Prop) : Prop where
  holds : answer = .holds → ∀ values, (∀ v ∈ scope, values v ∈ s.domain v) → P values
  violated : answer = .violated → ∀ values, (∀ v ∈ scope, values v ∈ s.domain v) → ¬ P values
  fixed : (∀ v ∈ scope, s.isFixed v = true) → answer ≠ .undetermined

/-- A variable that is fixed has the same value as both bounds. -/
lemma Store.WellFormed.bounds_of_isFixed (w : s.WellFormed) {v : VarId} (hv : s.has v = true)
    (hfixed : s.isFixed v = true) : s.upper v = s.lower v :=
  (w.isFixed_iff hv).1 hfixed _ (w.upper_mem hv)

lemma Store.WellFormed.bounds_of_mem (w : s.WellFormed) {v : VarId} {x : Int}
    (hx : x ∈ s.domain v) : s.lower v ≤ x ∧ x ≤ s.upper v :=
  ⟨w.lower_le hx, w.le_upper hx⟩

/-! ### Counting -/

namespace Count

variable {c : Count} {v : VarId}

/-- A variable takes the value if it has no other one. -/
lemma takes_iff (w : s.WellFormed) (hv : s.has v = true) :
    c.takes s v = true ↔ c.Fixed s.domain v := by
  rw [takes, Bool.and_eq_true, beq_iff_eq, w.isFixed_iff hv]
  constructor
  · rintro ⟨hfix, hlow⟩ x hx
    exact (hfix x hx).trans hlow
  · intro h
    have hlow : s.lower v = c.value := h _ (w.lower_mem hv)
    exact ⟨fun x hx => (h x hx).trans hlow.symm, hlow⟩

variable (w : s.WellFormed) (hscope : ∀ v ∈ c.scope, s.has v = true)

include w hscope in
lemma length_takes : (c.vars.filter (c.takes s)).length = tally c.vars (c.Fixed s.domain) := by
  rw [← List.countP_eq_length_filter]
  refine List.countP_congr fun v hv => ?_
  rw [takes_iff w (hscope v (mem_scope_of_mem hv))]
  simp only [decide_eq_true_eq]

include w hscope in
lemma length_contains :
    (c.vars.filter fun v => c.takes s v || s.contains v c.value).length =
      tally c.vars fun v => c.value ∈ s.domain v := by
  rw [← List.countP_eq_length_filter]
  refine List.countP_congr fun v hv => ?_
  have hv := hscope v (mem_scope_of_mem hv)
  rw [Bool.or_eq_true, takes_iff w hv, w.contains_iff]
  simp only [decide_eq_true_eq]
  refine ⟨fun h => h.elim (fun hfix => ?_) id, .inr⟩
  obtain ⟨x, hx⟩ := w.domain_nonempty hv
  rwa [← hfix x hx]

include w hscope in
/-- The cardinality lies between the number of variables that have to take the value and the
number of those that can. -/
lemma not_violated (hclosed : Grounds.Closed c.Justified s.domain) :
    c.entailment s ≠ .violated := by
  have hcard := hscope _ (card_mem_scope (c := c))
  have hleast : (tally c.vars (c.Fixed s.domain) : Int) ≤ s.upper c.card :=
    hclosed c.card (.atLeast _) ⟨rfl, le_rfl⟩ _ (w.upper_mem hcard)
  have hmost : s.lower c.card ≤ (tally c.vars fun u => c.value ∈ s.domain u : Int) :=
    hclosed c.card (.atMost _) ⟨rfl, le_rfl⟩ _ (w.lower_mem hcard)
  rw [entailment, length_takes w hscope, length_contains w hscope]
  rw [if_neg (by omega)]
  split <;> nofun

/-- Whatever values the variables take, those that have to take the counted one do, and no others
than those that can. -/
lemma tally_bounds {values : VarId → Int} (hmem : ∀ v ∈ c.scope, values v ∈ s.domain v) :
    tally c.vars (c.Fixed s.domain) ≤ tally c.vars (fun v => values v = c.value) ∧
      tally c.vars (fun v => values v = c.value) ≤ tally c.vars fun v => c.value ∈ s.domain v :=
  ⟨tally_mono fun v hv hfix => hfix _ (hmem v (mem_scope_of_mem hv)),
    tally_mono fun v hv heq => heq ▸ hmem v (mem_scope_of_mem hv)⟩

include w hscope in
/-- When the two numbers agree, they are the count of every choice of values. -/
lemma decides : (c.entailment s).Decides s c.scope fun values => c.Holds values := by
  rw [entailment, length_takes w hscope, length_contains w hscope]
  refine ⟨fun hanswer values hmem => ?_, fun hanswer values hmem => ?_, fun hfixed => ?_⟩
  · obtain ⟨hleast, hmost⟩ := tally_bounds hmem
    obtain ⟨hlower, hupper⟩ := w.bounds_of_mem (hmem _ card_mem_scope)
    split at hanswer
    case isTrue => cases hanswer
    split at hanswer
    case isFalse => cases hanswer
    rename_i hpossible hagree
    have hcard := w.bounds_of_isFixed (hscope _ card_mem_scope) hagree.1
    rw [holds_iff]
    omega
  · obtain ⟨hleast, hmost⟩ := tally_bounds hmem
    obtain ⟨hlower, hupper⟩ := w.bounds_of_mem (hmem _ card_mem_scope)
    split at hanswer
    case isFalse => split at hanswer <;> cases hanswer
    rw [holds_iff]
    omega
  · -- a fixed variable that can take the value has to
    have hagree : tally c.vars (c.Fixed s.domain) = tally c.vars fun v => c.value ∈ s.domain v := by
      refine le_antisymm (tally_mono fun v hv hfix => ?_) (tally_mono fun v hv hx y hy => ?_)
      all_goals have hhas := hscope v (mem_scope_of_mem hv)
      · exact hfix _ (w.lower_mem hhas) ▸ w.lower_mem hhas
      · have heq := (w.isFixed_iff hhas).1 (hfixed v (mem_scope_of_mem hv))
        exact (heq y hy).trans (heq _ hx).symm
    have hcard := hfixed c.card card_mem_scope
    rw [hagree, if_pos (c := _ ∧ _) ⟨hcard, rfl⟩]
    split <;> nofun

end Count

/-! ### The maximum -/

namespace Maximum

variable {c : Maximum}

lemma le_foldl_max (ks : List Int) (k : Int) :
    k ≤ ks.foldl max k ∧ ∀ x ∈ ks, x ≤ ks.foldl max k := by
  induction ks generalizing k with
  | nil => exact ⟨le_rfl, nofun⟩
  | cons x ks ih =>
    obtain ⟨hle, hall⟩ := ih (max k x)
    exact ⟨(le_max_left k x).trans hle,
      List.forall_mem_cons.2 ⟨(le_max_right k x).trans hle, hall⟩⟩

/-- No element lies above the maximum, and some element reaches it. -/
lemma not_violated (w : s.WellFormed) (hscope : ∀ v ∈ c.scope, s.has v = true)
    (hclosed : Grounds.Closed c.Justified s.domain) : c.entailment s ≠ .violated := by
  have hrhs := hscope _ (rhs_mem_scope (c := c))
  have habove : ¬ (c.array.any fun v => decide (s.upper c.rhs < s.lower v)) = true := by
    simp only [List.any_eq_true, decide_eq_true_iff]
    rintro ⟨v, hv, hlt⟩
    have hle : s.lower v ≤ s.upper c.rhs :=
      hclosed c.rhs (.atLeast (s.lower v))
        (.inl ⟨rfl, v, hv, fun x hx => w.lower_le hx⟩) _ (w.upper_mem hrhs)
    omega
  have hbelow : s.lower c.rhs ≤ (c.array.map s.upper).foldl max Value.least := by
    refine hclosed c.rhs (.atMost _) (.inl ⟨rfl, fun u hu x hx => ?_⟩) _ (w.lower_mem hrhs)
    exact (w.le_upper hx).trans
      ((le_foldl_max _ _).2 _ (List.mem_map_of_mem (f := s.upper) hu))
  rw [entailment]
  rw [if_neg habove, if_neg (by omega)]
  split
  · nofun
  · split <;> nofun

lemma foldl_max_eq_or_mem (ks : List Int) (k : Int) : ks.foldl max k = k ∨ ks.foldl max k ∈ ks := by
  induction ks generalizing k with
  | nil => exact .inl rfl
  | cons x ks ih =>
    rw [List.foldl_cons]
    rcases ih (max k x) with heq | hmem
    · rw [heq]
      exact (max_choice k x).imp_right fun h => List.mem_cons.2 (.inl h)
    · exact .inr (List.mem_cons_of_mem _ hmem)

/-- What the greatest upper bound reaches, some element reaches. -/
lemma exists_le_upper (w : s.WellFormed) (hscope : ∀ v ∈ c.scope, s.has v = true)
    (hne : c.array ≠ []) {k : Int} (hk : k ≤ (c.array.map s.upper).foldl max Value.least) :
    ∃ v ∈ c.array, k ≤ s.upper v := by
  rcases foldl_max_eq_or_mem (c.array.map s.upper) Value.least with heq | hmem
  · obtain ⟨v, hv⟩ := List.exists_mem_of_ne_nil _ hne
    have hhas := hscope v (mem_scope_of_mem hv)
    have hrange := (w.domain_inRange hhas _ (w.upper_mem hhas)).1
    exact ⟨v, hv, (hk.trans_eq heq).trans hrange⟩
  · obtain ⟨v, hv, heq⟩ := List.mem_map.1 hmem
    exact ⟨v, hv, hk.trans_eq heq.symm⟩

variable (w : s.WellFormed) (hscope : ∀ v ∈ c.scope, s.has v = true)

include w hscope

/-- No element exceeds the upper bound of the maximum, which is its value, and one has it. -/
lemma holds_of_entailment (hanswer : c.entailment s = .holds) {values : VarId → Int}
    (hmem : ∀ v ∈ c.scope, values v ∈ s.domain v) : c.Holds values := by
  simp only [entailment, List.any_eq_true, decide_eq_true_eq, Bool.and_eq_true, beq_iff_eq]
    at hanswer
  split at hanswer
  case isTrue => cases hanswer
  split at hanswer
  case isTrue => cases hanswer
  split at hanswer
  case isTrue => cases hanswer
  split at hanswer
  case isFalse => cases hanswer
  rename_i hcapped hreached
  obtain ⟨hfixed, u, hu, hufixed, hlow⟩ := hreached
  have hrhs := w.bounds_of_isFixed (hscope _ rhs_mem_scope) hfixed
  have hbrhs := w.bounds_of_mem (hmem _ rhs_mem_scope)
  refine ⟨fun v hv => ?_, u, hu, ?_⟩
  · have hle : s.upper v ≤ s.upper c.rhs := not_lt.1 fun hlt => hcapped ⟨v, hv, hlt⟩
    have := w.bounds_of_mem (hmem v (mem_scope_of_mem hv))
    omega
  · have := w.bounds_of_mem (hmem u (mem_scope_of_mem hu))
    have := w.bounds_of_isFixed (hscope u (mem_scope_of_mem hu)) hufixed
    omega

omit hscope in
/-- An element lies above the maximum, or none can reach it. -/
lemma not_holds_of_entailment (hanswer : c.entailment s = .violated) {values : VarId → Int}
    (hmem : ∀ v ∈ c.scope, values v ∈ s.domain v) : ¬ c.Holds values := by
  simp only [entailment, List.any_eq_true, decide_eq_true_eq, Bool.and_eq_true, beq_iff_eq]
    at hanswer
  have hbrhs := w.bounds_of_mem (hmem _ rhs_mem_scope)
  rintro ⟨hall, u, hu, heq⟩
  split at hanswer
  case isTrue habove =>
    obtain ⟨v, hv, hlt⟩ := habove
    have := hall v hv
    have := w.bounds_of_mem (hmem v (mem_scope_of_mem hv))
    omega
  split at hanswer
  case isTrue hbelow =>
    have hle := (le_foldl_max _ Value.least).2 _ (List.mem_map_of_mem (f := s.upper) hu)
    have := w.bounds_of_mem (hmem u (mem_scope_of_mem hu))
    omega
  split at hanswer
  · cases hanswer
  · split at hanswer <;> cases hanswer

/-- When everything is fixed, an element that reaches the maximum and does not exceed it has its
value. -/
lemma entailment_of_fixed (hne : c.array ≠ []) (hfixed : ∀ v ∈ c.scope, s.isFixed v = true) :
    c.entailment s ≠ .undetermined := by
  have hsame : ∀ v ∈ c.scope, s.upper v = s.lower v :=
    fun v hv => w.bounds_of_isFixed (hscope v hv) (hfixed v hv)
  have hrhs := hsame c.rhs rhs_mem_scope
  simp only [entailment, List.any_eq_true, decide_eq_true_eq, Bool.and_eq_true, beq_iff_eq]
  split
  case isTrue => nofun
  rename_i habove
  split
  case isTrue => nofun
  rename_i hbelow
  have hcapped : ∀ v ∈ c.array, s.upper v ≤ s.upper c.rhs := by
    intro v hv
    rw [hsame v (mem_scope_of_mem hv)]
    exact not_lt.1 fun hlt => habove ⟨v, hv, hlt⟩
  rw [if_neg fun ⟨v, hv, hlt⟩ => absurd (hcapped v hv) (not_le.2 hlt)]
  obtain ⟨u, hu, hle⟩ := exists_le_upper w hscope hne (not_lt.1 hbelow)
  have husame := hsame u (mem_scope_of_mem hu)
  have := hcapped u hu
  rw [if_pos (c := _ ∧ _) ⟨hfixed _ rhs_mem_scope, u, hu, hfixed u (mem_scope_of_mem hu), by omega⟩]
  nofun

lemma decides (hne : c.array ≠ []) :
    (c.entailment s).Decides s c.scope fun values => c.Holds values :=
  ⟨fun hanswer _ => holds_of_entailment w hscope hanswer,
    fun hanswer _ => not_holds_of_entailment w hanswer, entailment_of_fixed w hscope hne⟩

end Maximum

/-! ### Restrictions to a set -/

/-- A single value is allowed or not. -/
lemma IntervalSet.isSubset_of_intersects {d allowed : IntervalSet} (hne : ∃ x, x ∈ d)
    (hfixed : d.isFixed = true)
    (h : d.intersects allowed = true) : d.isSubset allowed = true := by
  obtain ⟨x, hx, hallowed⟩ := IntervalSet.intersects_iff.1 h
  have heq := (IntervalSet.isFixed_iff hne).1 hfixed
  exact IntervalSet.isSubset_iff.2 fun y hy => (heq y hy).trans (heq x hx).symm ▸ hallowed

lemma Member.decides {c : Member} (w : s.WellFormed) (hvar : s.has c.var = true) :
    (c.entailment s).Decides s c.scope fun values => c.Holds values := by
  simp only [entailment]
  refine ⟨fun hanswer values hmem => ?_, fun hanswer values hmem hholds => ?_, fun hfixed => ?_⟩
  · split at hanswer
    case isTrue hsub => exact IntervalSet.isSubset_iff.1 hsub _ (hmem _ var_mem_scope)
    split at hanswer <;> cases hanswer
  · split at hanswer
    case isTrue => cases hanswer
    split at hanswer
    case isTrue => cases hanswer
    rename_i hno
    exact hno (IntervalSet.intersects_iff.2 ⟨_, hmem _ var_mem_scope, hholds⟩)
  · split
    case isTrue => nofun
    rename_i hsub
    rw [if_neg fun h => hsub (IntervalSet.isSubset_of_intersects (w.domain_nonempty hvar)
      (w.isFixed_eq _ ▸ hfixed _ var_mem_scope) h)]
    nofun

lemma Disjunction.decides {c : Disjunction} (w : s.WellFormed)
    (hscope : ∀ v ∈ c.scope, s.has v = true) :
    (c.entailment s).Decides s c.scope fun values => c.Holds values := by
  simp only [entailment, List.any_eq_true]
  refine ⟨fun hanswer values hmem => ?_, fun hanswer values hmem => ?_, fun hfixed => ?_⟩
  · split at hanswer
    case isTrue hcertain =>
      obtain ⟨l, hl, hsub⟩ := hcertain
      exact ⟨l, hl, IntervalSet.isSubset_iff.1 hsub _ (hmem _ (var_mem_scope hl))⟩
    split at hanswer <;> cases hanswer
  · rintro ⟨l, hl, hholds⟩
    split at hanswer
    case isTrue => cases hanswer
    split at hanswer
    case isTrue => cases hanswer
    rename_i hno
    exact hno ⟨l, hl, IntervalSet.intersects_iff.2 ⟨_, hmem _ (var_mem_scope hl), hholds⟩⟩
  · split
    case isTrue => nofun
    rename_i hcertain
    rw [if_neg fun ⟨l, hl, h⟩ => hcertain ⟨l, hl, IntervalSet.isSubset_of_intersects
      (w.domain_nonempty (hscope _ (var_mem_scope hl)))
      (w.isFixed_eq _ ▸ hfixed _ (var_mem_scope hl)) h⟩]
    nofun

/-- The variable has only values that are allowed. -/
lemma Member.not_violated {c : Member} (hclosed : Grounds.Closed c.Justified s.domain) :
    c.entailment s ≠ .violated := by
  rw [entailment]
  rw [if_pos (IntervalSet.isSubset_iff.2 (mem_of_closed hclosed))]
  nofun

/-- Some literal is possible: if all others are false, then the values of the last variable are
allowed. -/
lemma Disjunction.not_violated {c : Disjunction} (w : s.WellFormed)
    (hscope : ∀ v ∈ c.scope, s.has v = true) (hne : c.clause ≠ [])
    (hclosed : Grounds.Closed c.Justified s.domain) : c.entailment s ≠ .violated := by
  obtain ⟨l, hl⟩ := List.exists_mem_of_ne_nil _ hne
  have hpossible : (c.clause.any fun l => (s.domain l.var).intersects l.allowed) = true := by
    by_contra hfalse
    simp only [List.any_eq_true, IntervalSet.intersects_iff, not_exists, not_and] at hfalse
    obtain ⟨x, hx⟩ := w.domain_nonempty (hscope l.var (var_mem_scope hl))
    obtain ⟨l', hl', hvar, hmem⟩ :=
      exists_of_closed hclosed ⟨l, hl, rfl⟩ (fun l' hl' _ k hk => hfalse l' hl' k hk) x hx
    exact hfalse l' hl' x (hvar ▸ hx) hmem
  rw [entailment]
  rw [if_pos hpossible]
  split <;> nofun

/-! ### All propagators -/

/-- Every answer is right, except that observers never give one. -/
lemma Propagator.decides {q : Propagator} (w : s.WellFormed)
    (hscope : ∀ v ∈ q.scope, s.has v = true) (hproper : q.Proper) (hq : ¬ q.IsObserver) :
    (q.entailment s).Decides s q.scope fun values => q.constraint.Holds values := by
  cases q with
  | count c sets => exact Count.decides w hscope
  | maximum c => exact Maximum.decides w hscope hproper
  | member c => exact Member.decides w (hscope _ Member.var_mem_scope)
  | disjunction c => exact Disjunction.decides w hscope
  | observer o => exact absurd ⟨o, rfl⟩ hq

/-- On domains where the propagator has nothing left to do, it does not report a violation. -/
lemma Propagator.not_violated_of_closed {q : Propagator} {m : Memory} (w : s.WellFormed)
    (hfits : q.Fits s m) (hproper : q.Proper) (hclosed : Grounds.Closed q.Justified s.domain) :
    q.entailment s ≠ .violated := by
  cases q with
  | count c sets => exact Count.not_violated w hfits.1 hclosed
  | maximum c => exact Maximum.not_violated w hfits hclosed
  | member c => exact Member.not_violated hclosed
  | disjunction c => exact Disjunction.not_violated w hfits hproper.1 hclosed
  | observer o => nofun

end FiniteDomain
