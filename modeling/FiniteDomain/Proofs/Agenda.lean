import Mathlib.Tactic
import FiniteDomain.Agenda

/-!
Propagators that wait.

All that matters of an agenda is which propagators wait, and that each waits once.

* `Agenda.perm_waiting_enqueue`, `Agenda.perm_waiting_pop`: who waits after a propagator
  asked to be called, and after the next one was taken;
* `Agenda.WellFormed.enqueue`, `Agenda.WellFormed.pop`: the agenda stays in order;
* `Agenda.WellFormed.clear_eq`: after all were sent away, the agenda is as a new one;
* `Agenda.pop_eq_none_iff`: the next propagator is missing only if none waits;
* `Agenda.Bounded`: the agenda of some first propagators, and `Agenda.Bounded.length_le`:
  there are no more that wait.
-/

namespace FiniteDomain

namespace Agenda

variable {a a' : Agenda} {p p' : PropId} {q r : Priority} {n : Nat}

lemma contains_iff_mem_present : a.contains p = true ↔ p ∈ a.present := by
  rw [contains, List.contains_iff_mem]

lemma WellFormed.contains_iff (w : a.WellFormed) : a.contains p = true ↔ p ∈ a.waiting := by
  rw [contains_iff_mem_present, w.mem_present]

lemma not_contains_of_isEmpty (h : a.isEmpty = true) : ¬ a.contains p = true := by
  rw [isEmpty_iff.1 h p]
  exact Bool.false_ne_true

/-! ### Levels -/

lemma mem_insertLevel {rs : List Priority} : r ∈ insertLevel q rs ↔ r = q ∨ r ∈ rs := by
  induction rs with
  | nil => simp [insertLevel]
  | cons r' rs ih =>
    rw [insertLevel]
    split
    · simp
    · rw [List.mem_cons, ih, List.mem_cons, or_left_comm]

lemma pairwise_insertLevel {rs : List Priority}
    (h : rs.Pairwise fun q r => q.level < r.level) (hq : q ∉ rs) :
    (insertLevel q rs).Pairwise fun q r => q.level < r.level := by
  induction rs with
  | nil => simp [insertLevel]
  | cons r rs ih =>
    obtain ⟨hr, hrs⟩ := List.pairwise_cons.1 h
    have hne : q.level ≠ r.level :=
      fun heq => hq (Priority.level_injective heq ▸ List.mem_cons_self)
    rw [insertLevel]
    split
    · rename_i hle
      have hlt : q.level < r.level := lt_of_le_of_ne hle hne
      refine List.pairwise_cons.2 ⟨fun r' hr' => ?_, h⟩
      rcases List.mem_cons.1 hr' with rfl | hr'
      · exact hlt
      · exact hlt.trans (hr r' hr')
    · rename_i hle
      refine List.pairwise_cons.2
        ⟨fun r' hr' => ?_, ih hrs fun hmem => hq (List.mem_cons_of_mem _ hmem)⟩
      rcases mem_insertLevel.1 hr' with rfl | hr'
      · exact lt_of_not_ge hle
      · exact hr r' hr'

/-! ### A propagator that asks to be called -/

lemma perm_waiting_enqueue (h : a.contains p = false) :
    (a.enqueue p q).waiting.Perm (p :: a.waiting) := by
  have hlane := fun r => lane_enqueue (q := q) (r := r) h
  refine List.perm_iff_count.2 fun x => ?_
  cases q <;> simp [waiting, Priority.all, hlane, List.count_cons] <;> omega

lemma contains_enqueue :
    (a.enqueue p q).contains p' = true ↔ p' = p ∨ a.contains p' = true := by
  cases h : a.contains p with
  | true =>
    rw [enqueue_of_contains h]
    refine ⟨.inr, fun hp' => hp'.elim (fun hp' => ?_) id⟩
    rw [hp', h]
  | false =>
    have hpresent : (a.enqueue p q).present = p :: a.present := by
      rw [enqueue, if_neg (by simp [h])]
    rw [contains_iff_mem_present, hpresent, List.mem_cons, contains_iff_mem_present]

lemma WellFormed.enqueue (w : a.WellFormed) (p : PropId) (q : Priority) :
    (a.enqueue p q).WellFormed := by
  cases h : a.contains p with
  | true =>
    rw [enqueue_of_contains h]
    exact w
  | false =>
    have hlane := fun r => lane_enqueue (q := q) (r := r) h
    have hlevels : (a.enqueue p q).levels =
        if (a.lane q).isEmpty then insertLevel q a.levels else a.levels := by
      rw [Agenda.enqueue, if_neg (by simp [h])]
    have hmem : (a.lane q).isEmpty = true → q ∉ a.levels := by
      rw [w.mem_levels, List.isEmpty_iff]
      exact fun hnil hne => hne hnil
    have hperm := perm_waiting_enqueue (q := q) h
    refine ⟨?_, fun r => ?_, ?_, fun p' => ?_⟩
    · rw [hlevels]
      split
      · exact pairwise_insertLevel w.ascending (hmem ‹_›)
      · exact w.ascending
    · rw [hlevels, hlane]
      by_cases hr : r = q
      · subst hr
        split
        · simp [mem_insertLevel]
        · rename_i hne
          simpa [w.mem_levels] using hne
      · split
        · simp [mem_insertLevel, hr, w.mem_levels]
        · exact w.mem_levels r
    · refine hperm.nodup_iff.2 (List.nodup_cons.2 ⟨fun hp => ?_, w.nodup⟩)
      rw [← w.contains_iff, h] at hp
      cases hp
    · rw [← contains_iff_mem_present, contains_enqueue, w.contains_iff, hperm.mem_iff,
        List.mem_cons]

/-! ### The next propagator -/

/-- What the next propagator is, and what is left. -/
lemma pop_eq_some (h : a.pop = some (p, a')) : ∃ q qs ps, a.levels = q :: qs ∧
    a.lane q = p :: ps ∧ (∀ r, a'.lane r = if r = q then ps else a.lane r) ∧
      a'.levels = (if ps.isEmpty then qs else q :: qs) ∧
        a'.present = a.present.filter (· ≠ p) := by
  rw [pop] at h
  split at h
  · cases h
  · rename_i q qs hlevels
    split at h
    · cases h
    · rename_i ps hlane
      cases h
      refine ⟨q, qs, ps, hlevels, hlane, fun r => ?_, rfl, rfl⟩
      rw [← lane_withLane]
      cases r <;> rfl

lemma perm_waiting_pop (h : a.pop = some (p, a')) : a.waiting.Perm (p :: a'.waiting) := by
  obtain ⟨q, qs, ps, -, hlane, hlane', -, -⟩ := pop_eq_some h
  refine List.perm_iff_count.2 fun x => ?_
  cases q <;> simp [waiting, Priority.all, hlane', hlane, List.count_cons] <;> omega

/-- The next propagator waits no longer, and all others still do. -/
lemma contains_pop (h : a.pop = some (p, a')) :
    a'.contains p' = true ↔ a.contains p' = true ∧ p' ≠ p := by
  obtain ⟨q, qs, ps, -, -, -, -, hpresent⟩ := pop_eq_some h
  rw [contains_iff_mem_present, contains_iff_mem_present, hpresent, List.mem_filter,
    decide_eq_true_eq]

lemma WellFormed.pop (w : a.WellFormed) (h : a.pop = some (p, a')) :
    a'.WellFormed ∧ ∀ p', a'.contains p' = true ↔ a.contains p' = true ∧ p' ≠ p := by
  have hperm := perm_waiting_pop h
  have hnodup := hperm.nodup_iff.1 w.nodup
  obtain ⟨q, qs, ps, hlevels, hlane, hlane', hlevels', -⟩ := pop_eq_some h
  have hascending := w.ascending
  rw [hlevels] at hascending
  obtain ⟨hq, hqs⟩ := List.pairwise_cons.1 hascending
  have hqs' : q ∉ qs := fun hmem => lt_irrefl _ (hq q hmem)
  refine ⟨⟨?_, fun r => ?_, (List.nodup_cons.1 hnodup).2, fun p' => ?_⟩, fun p' => contains_pop h⟩
  · rw [hlevels']
    split
    · exact hqs
    · exact hascending
  · have hmem := w.mem_levels r
    rw [hlevels, List.mem_cons] at hmem
    rw [hlevels', hlane']
    by_cases hr : r = q
    · subst hr
      cases ps with
      | nil => simpa using hqs'
      | cons p' ps => simp
    · rw [if_neg hr, ← hmem]
      cases ps with
      | nil => simp [hr]
      | cons p' ps => simp
  · rw [← contains_iff_mem_present, contains_pop h, w.contains_iff, hperm.mem_iff, List.mem_cons]
    constructor
    · rintro ⟨rfl | hp', hne⟩
      · exact absurd rfl hne
      · exact hp'
    · intro hp'
      refine ⟨.inr hp', ?_⟩
      rintro rfl
      exact (List.nodup_cons.1 hnodup).1 hp'

/-- The next propagator is one that waits. -/
lemma WellFormed.contains_of_pop (w : a.WellFormed) (h : a.pop = some (p, a')) :
    a.contains p = true :=
  w.contains_iff.2 ((perm_waiting_pop h).mem_iff.2 List.mem_cons_self)

/-- When the lanes are empty, none waits. -/
lemma WellFormed.isEmpty_iff_lane (w : a.WellFormed) :
    a.isEmpty = true ↔ ∀ q, a.lane q = [] := by
  rw [isEmpty_iff]
  constructor
  · intro h q
    refine List.eq_nil_iff_forall_not_mem.2 fun p hp => Bool.false_ne_true ?_
    rw [← h p]
    exact w.contains_iff.2 (mem_waiting.2 ⟨q, hp⟩)
  · intro h p
    refine Bool.eq_false_iff.2 fun hp => ?_
    obtain ⟨q, hq⟩ := mem_waiting.1 (w.contains_iff.1 hp)
    rw [h q] at hq
    cases hq

/-- The next propagator is missing only if none waits. -/
lemma pop_eq_none_iff (w : a.WellFormed) : a.pop = none ↔ a.isEmpty = true := by
  rw [w.isEmpty_iff_lane]
  constructor
  · intro h q
    rw [pop] at h
    split at h
    · rename_i hlevels
      by_contra hne
      have := (w.mem_levels q).2 hne
      rw [hlevels] at this
      cases this
    · rename_i r rs hlevels
      split at h
      · rename_i hlane
        exact absurd hlane ((w.mem_levels r).1 (hlevels ▸ List.mem_cons_self))
      · cases h
  · intro h
    have hlevels : a.levels = [] :=
      List.eq_nil_iff_forall_not_mem.2 fun q hq => (w.mem_levels q).1 hq (h q)
    rw [pop, hlevels]

/-! ### All are sent away -/

lemma isEmpty_clear : a.clear.isEmpty = true := rfl

lemma lane_foldl_withLane {qs : List Priority} :
    (qs.foldl (fun a q => a.withLane [] q) a).lane r = if r ∈ qs then [] else a.lane r := by
  induction qs generalizing a with
  | nil => simp
  | cons q qs ih =>
    rw [List.foldl_cons, ih, lane_withLane]
    by_cases hr : r = q <;> simp [hr]

lemma eq_of_parts {b : Agenda} (hlane : ∀ q, a.lane q = b.lane q) (hpresent : a.present = b.present)
    (hlevels : a.levels = b.levels) : a = b := by
  cases a
  cases b
  cases hlane .high
  cases hlane .medium
  cases hlane .low
  cases hlane .veryLow
  cases hpresent
  cases hlevels
  rfl

/-- No propagator is left in a lane, since all lanes that are not empty are listed. -/
lemma WellFormed.clear_eq (w : a.WellFormed) : a.clear = {} := by
  refine eq_of_parts (fun q => ?_) rfl rfl
  have hlane : a.clear.lane q = (a.levels.foldl (fun a q => a.withLane [] q) a).lane q := by
    cases q <;> rfl
  have hempty : ({} : Agenda).lane q = [] := by cases q <;> rfl
  rw [hlane, lane_foldl_withLane, hempty, ite_eq_left_iff, w.mem_levels, not_not]
  exact id

/-! ### Sizes -/

/-- The agenda is in order, and only the first `n` propagators wait. -/
structure Bounded (a : Agenda) (n : Nat) : Prop where
  wellFormed : a.WellFormed
  lt : ∀ p, a.contains p = true → p.index < n

lemma bounded_empty (n : Nat) : Bounded {} n :=
  ⟨wellFormed_empty, fun p hp => by cases hp⟩

lemma Bounded.mono {m : Nat} (h : a.Bounded n) (hle : n ≤ m) : a.Bounded m :=
  ⟨h.wellFormed, fun p hp => (h.lt p hp).trans_le hle⟩

lemma Bounded.enqueue (h : a.Bounded n) (hp : p.index < n) (q : Priority) :
    (a.enqueue p q).Bounded n := by
  refine ⟨h.wellFormed.enqueue p q, fun p' hp' => ?_⟩
  rcases contains_enqueue.1 hp' with rfl | hp'
  · exact hp
  · exact h.lt p' hp'

lemma Bounded.pop (h : a.Bounded n) (hpop : a.pop = some (p, a')) : a'.Bounded n := by
  obtain ⟨w, hmem⟩ := h.wellFormed.pop hpop
  exact ⟨w, fun p' hp' => h.lt p' ((hmem p').1 hp').1⟩

lemma WellFormed.bounded_clear (w : a.WellFormed) (n : Nat) : a.clear.Bounded n := by
  rw [w.clear_eq]
  exact bounded_empty n

/-- No more propagators wait than there are. -/
lemma Bounded.length_le (h : a.Bounded n) : a.waiting.length ≤ n := by
  have hnodup : (a.waiting.map PropId.index).Nodup := by
    refine h.wellFormed.nodup.map fun p p' heq => ?_
    cases p
    cases p'
    exact congrArg PropId.mk heq
  have hsub : a.waiting.map PropId.index ⊆ List.range n := by
    intro i hi
    obtain ⟨p, hp, rfl⟩ := List.mem_map.1 hi
    exact List.mem_range.2 (h.lt p (h.wellFormed.contains_iff.2 hp))
  have := (List.Nodup.subperm hnodup hsub).length_le
  rwa [List.length_map, List.length_range] at this

end Agenda

end FiniteDomain
