import Mathlib.Tactic
import FiniteDomain.Proofs.Store.Assignment

/-!
Stores in the course of time.

Whatever happens to a store, the variables stay, with their initial domains, and so
do the updates made before the first checkpoint.

* `Store.Continues`: what one store keeps of an earlier one;
* `Store.Continues.value`, `Store.Continues.initial_of`: assignments of the later
  store as assignments of the earlier one;
* `Store.Shrinks.continues`, `Store.continues_mark`, `Store.continues_restore`,
  `Store.continues_restore_of_le`, `Store.Extends.continues`: all changes of a store keep that much.
-/

namespace FiniteDomain

namespace Store

variable {s t u : Store} {v : VarId} {ρ : VarId → Int} {p level : Nat}

/-- The later store `t` has the variables of `s`, and the updates before its first
checkpoint. -/
structure Continues (s t : Store) : Prop where
  has : ∀ v, s.has v = true → t.has v = true
  isRoot : ∀ v, s.IsRoot v → t.IsRoot v
  root : ∀ v, s.has v = true → t.root v = s.root v
  chain : ∀ v, s.has v = true → t.chain v = s.chain v
  initial : ∀ v, s.has v = true → t.initial v = s.initial v
  fact : ∀ (p : Nat) (u : Update), s.trail.entries[p]? = some u → s.isRootLevel p = true →
    t.trail.entries[p]? = some u ∧ t.isRootLevel p = true

lemma Continues.refl (s : Store) : s.Continues s :=
  ⟨fun _ => id, fun _ => id, fun _ _ => rfl, fun _ _ => rfl, fun _ _ => rfl,
    fun _ _ h h' => ⟨h, h'⟩⟩

lemma Continues.trans (h : s.Continues t) (h' : t.Continues u) : s.Continues u where
  has v hv := h'.has v (h.has v hv)
  isRoot v hv := h'.isRoot v (h.isRoot v hv)
  root v hv := (h'.root v (h.has v hv)).trans (h.root v hv)
  chain v hv := (h'.chain v (h.has v hv)).trans (h.chain v hv)
  initial v hv := (h'.initial v (h.has v hv)).trans (h.initial v hv)
  fact p u hu hp := by
    obtain ⟨hu, hp⟩ := h.fact p u hu hp
    exact h'.fact p u hu hp

lemma Continues.value (h : s.Continues t) (hv : s.has v = true) :
    t.value ρ v = s.value ρ v :=
  value_congr (h.root v hv) (h.chain v hv)

lemma Continues.initial_of (h : s.Continues t) (hρ : t.Initial ρ) : s.Initial ρ := by
  intro v hv
  rw [← h.initial v hv.has]
  exact hρ v (h.isRoot v hv)

/-- Only the variables and the trail matter. -/
lemma continues_of_eq (hvars : t.vars = s.vars) (htrail : t.trail = s.trail) :
    s.Continues t := by
  obtain ⟨vars, trail, failure, raised⟩ := s
  obtain ⟨vars', trail', failure', raised'⟩ := t
  cases hvars
  cases htrail
  exact ⟨fun _ => id, fun _ => id, fun _ _ => rfl, fun _ _ => rfl, fun _ _ => rfl,
    fun _ _ h h' => ⟨h, h'⟩⟩

lemma isRootLevel_iff : s.isRootLevel p = true ↔
    s.trail.level = 0 ∨ p < s.trail.extent 0 := by
  rw [isRootLevel, Bool.or_eq_true, beq_iff_eq, decide_eq_true_eq]

lemma Shrinks.continues (h : s.Shrinks t) (hroot : ∀ v, s.IsRoot v → t.IsRoot v) :
    s.Continues t where
  has v hv := by rw [h.has]; exact hv
  isRoot := hroot
  root v _ := h.root v
  chain v _ := h.chain v
  initial v _ := by
    rw [initial_eq_domainAt, initial_eq_domainAt, h.domainAt v 0 (Nat.zero_le _)]
  fact p u hu hp := by
    refine ⟨by rw [h.entry p (Array.getElem?_eq_some_iff.1 hu).1, hu], ?_⟩
    rw [isRootLevel_iff] at hp ⊢
    rw [h.level]
    rcases Nat.eq_zero_or_pos s.trail.level with hzero | hpos
    · exact .inl hzero
    · rw [h.extent 0 hpos]
      exact hp

variable {J : Grounds} {cause : Option PropId}

lemma Narrowing.isRoot_iff (h : Narrowing J cause s t) (v : VarId) :
    t.IsRoot v ↔ s.IsRoot v := by
  induction h with
  | refl => exact Iff.rfl
  | step _ _ _ _ ih => rw [(maps_narrow _ _ _ _).isRoot, ih]

lemma Narrowing.continues (w : s.WellFormed) (h : Narrowing J cause s t) : s.Continues t :=
  (h.shrinks w).continues fun v => (h.isRoot_iff v).2

lemma Refused.continues (w : s.WellFormed) (h : Refused J cause s t) : s.Continues t := by
  obtain ⟨hn, -, -, -⟩ := h
  exact (hn.continues w).trans (continues_of_eq rfl rfl)

lemma continues_mark (s : Store) : s.Continues s.mark where
  has _ := id
  isRoot _ := id
  root _ _ := rfl
  chain _ _ := rfl
  initial _ _ := rfl
  fact p u hu hp := by
    refine ⟨hu, ?_⟩
    rw [isRootLevel_iff] at hp ⊢
    right
    change p < s.trail.mark.extent 0
    rw [Trail.extent_mark]
    rcases hp with hzero | hp
    · rw [Trail.extent_of_level_le (Nat.le_of_eq hzero)]
      exact (Array.getElem?_eq_some_iff.1 hu).1
    · exact hp

/-- Going back leaves the updates before the first checkpoint. -/
lemma continues_restore (w : s.WellFormed) (hl : level < s.trail.level) :
    s.Continues (s.restore level) := by
  have hmaps := maps_restore s level
  refine ⟨fun v hv => by rw [hmaps.has]; exact hv, fun v hv => (hmaps.isRoot v).2 hv,
    fun v _ => hmaps.root v, fun v _ => hmaps.chain v, fun v _ => initial_restore w v,
    fun p u hu hp => ?_⟩
  have hle := w.trail 0 level (Nat.zero_le _)
  have hp : p < s.trail.extent 0 := by
    rw [isRootLevel_iff] at hp
    exact hp.resolve_left (Nat.ne_of_gt (Nat.zero_lt_of_lt hl))
  refine ⟨?_, isRootLevel_iff.2 (.inr ?_)⟩
  · change (s.trail.cut level).entries[p]? = some u
    rw [Trail.getElem?_cut w.trail, if_pos (Nat.lt_of_lt_of_le hp hle), hu]
  · change p < (s.trail.cut level).extent 0
    rw [Trail.extent_cut w.trail, Nat.min_eq_left (Nat.zero_le _)]
    exact hp

/-- Going back to the current level, or to one that there is not, leaves all updates. -/
lemma continues_restore_of_le (w : s.WellFormed) (hl : s.trail.level ≤ level) :
    s.Continues (s.restore level) := by
  have hmaps := maps_restore s level
  refine ⟨fun v hv => by rw [hmaps.has]; exact hv, fun v hv => (hmaps.isRoot v).2 hv,
    fun v _ => hmaps.root v, fun v _ => hmaps.chain v, fun v _ => initial_restore w v,
    fun p u hu hp => ⟨?_, ?_⟩⟩
  · change (s.trail.cut level).entries[p]? = some u
    rw [Trail.getElem?_cut w.trail, Trail.extent_of_level_le hl]
    exact (if_pos (Array.getElem?_eq_some_iff.1 hu).1).trans hu
  · rw [isRootLevel_iff] at hp ⊢
    change (s.trail.cut level).level = 0 ∨ p < (s.trail.cut level).extent 0
    rw [Trail.level_cut_eq_min, Trail.extent_cut w.trail, Nat.min_eq_right hl, Nat.zero_min]
    exact hp

lemma Extends.continues (w : s.WellFormed) (h : s.Extends t) (htrail : t.trail = s.trail) :
    s.Continues t where
  has _ := h.has
  isRoot v hv := (h.isRoot hv.has).2 hv
  root _ := h.root
  chain _ := h.chain
  initial _ := h.initial w
  fact p u hu hp := by
    rw [htrail]
    refine ⟨hu, ?_⟩
    rw [isRootLevel_iff] at hp ⊢
    rw [htrail]
    exact hp

end Store

end FiniteDomain
