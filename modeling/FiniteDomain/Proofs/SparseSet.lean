import Mathlib.Tactic
import FiniteDomain.SparseSet

/-!
Insertion into sparse sets and removal from them.

Both operations exchange two places of `dense`.  The exchange keeps the two arrays
inverse to each other, and moves only elements whose membership does not depend on
which of the two places they stand at.

* `SparseSet.WellFormed.swap`: an exchange keeps a set well-formed;
* `SparseSet.WellFormed.insert`, `SparseSet.contains_insert`: insertion adds the
  one element, if it is below the capacity;
* `SparseSet.WellFormed.remove`, `SparseSet.contains_remove`: removal takes the one
  element away;
* `SparseSet.insert_fst`, `SparseSet.remove_fst`: whether membership changed;
* `SparseSet.size_eq_of_contains`, `SparseSet.size_eq_add`: sizes by members.
-/

namespace FiniteDomain

namespace SparseSet

variable {s : SparseSet} {i j e e' p : Nat}

/-! ### Exchanging two places -/

lemma capacity_swap : (s.swap i j).capacity = s.capacity := by
  rw [swap]
  split
  · simp [capacity]
  · rfl

lemma size_swap : (s.swap i j).size = s.size := by
  rw [swap]
  split <;> rfl

lemma getElem?_dense_swap (hi : i < s.dense.size) (hj : j < s.dense.size) :
    (s.swap i j).dense[p]? =
      if j = p then some s.dense[i] else if i = p then some s.dense[j] else s.dense[p]? := by
  rw [swap, dif_pos ⟨hi, hj⟩, Array.getElem?_swap]

lemma getElem?_positions_swap (w : s.WellFormed) (hi : i < s.dense.size)
    (hj : j < s.dense.size) :
    (s.swap i j).positions[e]? =
      if s.dense[i] = e then some j else if s.dense[j] = e then some i else s.positions[e]? := by
  have hlt : ∀ k (hk : k < s.dense.size), s.dense[k] < s.positions.size := fun k hk =>
    (Array.getElem?_eq_some_iff.1 (w.positions_dense k _ (Array.getElem?_eq_getElem hk))).1
  rw [swap, dif_pos ⟨hi, hj⟩]
  simp only [Array.getElem?_setIfInBounds, Array.size_setIfInBounds, if_pos (hlt i hi),
    if_pos (hlt j hj)]

/-- Different places hold different elements. -/
lemma WellFormed.dense_injective (w : s.WellFormed) (hi : i < s.dense.size)
    (hj : j < s.dense.size) (h : s.dense[i] = s.dense[j]) : i = j := by
  have h₁ := w.positions_dense i _ (Array.getElem?_eq_getElem hi)
  have h₂ := w.positions_dense j _ (Array.getElem?_eq_getElem hj)
  rw [h, h₂] at h₁
  exact (Option.some.inj h₁).symm

lemma WellFormed.swap (w : s.WellFormed) (hi : i < s.dense.size) (hj : j < s.dense.size) :
    (s.swap i j).WellFormed := by
  have hcap : (s.swap i j).dense.size = s.dense.size := capacity_swap
  constructor
  case size_le => rw [size_swap, hcap]; exact w.size_le
  case same_size =>
    rw [hcap, ← w.same_size, SparseSet.swap, dif_pos ⟨hi, hj⟩]
    simp
  case dense_positions =>
    intro e p hp
    rw [getElem?_positions_swap w hi hj] at hp
    rw [getElem?_dense_swap hi hj]
    split at hp
    · rename_i he
      cases hp
      rw [if_pos rfl, he]
    · rename_i hne
      split at hp
      · rename_i he
        cases hp
        rw [if_neg fun hji => hne (by subst hji; exact he), if_pos rfl, he]
      · rename_i hne'
        have hd := w.dense_positions e p hp
        obtain ⟨hlt, hpe⟩ := Array.getElem?_eq_some_iff.1 hd
        rw [if_neg fun hjp => hne' (by subst hjp; exact hpe),
          if_neg fun hip => hne (by subst hip; exact hpe), hd]
  case positions_dense =>
    intro p e hd
    rw [getElem?_dense_swap hi hj] at hd
    rw [getElem?_positions_swap w hi hj]
    split at hd
    · rename_i hjp
      cases hd
      rw [if_pos rfl, hjp]
    · rename_i hjp
      split at hd
      · rename_i hip
        cases hd
        rw [if_neg fun he => hjp ((w.dense_injective hi hj he) ▸ hip), if_pos rfl, hip]
      · rename_i hip
        obtain ⟨hlt, hpe⟩ := Array.getElem?_eq_some_iff.1 hd
        rw [if_neg fun he => hip (w.dense_injective hi hlt (he.trans hpe.symm)),
          if_neg fun he => hjp (w.dense_injective hj hlt (he.trans hpe.symm)),
          w.positions_dense p e hd]

/-! ### Members -/

lemma contains_iff : s.contains e = true ↔ ∃ p, s.positions[e]? = some p ∧ p < s.size := by
  rw [contains]
  cases s.positions[e]? <;> simp

lemma WellFormed.getElem?_positions (w : s.WellFormed) (he : e < s.capacity) :
    ∃ p, s.positions[e]? = some p ∧ p < s.dense.size := by
  have hlt : e < s.positions.size := by rw [w.same_size]; exact he
  have hp := Array.getElem?_eq_getElem hlt
  exact ⟨_, hp, (Array.getElem?_eq_some_iff.1 (w.dense_positions e _ hp)).1⟩

lemma lt_capacity_of_contains (w : s.WellFormed) (h : s.contains e = true) : e < s.capacity := by
  obtain ⟨p, hp, -⟩ := contains_iff.1 h
  rw [capacity, ← w.same_size]
  exact (Array.getElem?_eq_some_iff.1 hp).1

lemma WellFormed.nodup_dense (w : s.WellFormed) : s.dense.toList.Nodup := by
  rw [List.nodup_iff_injective_getElem]
  intro a b hab
  refine Fin.ext (w.dense_injective (by simp) (by simp) ?_)
  simpa using hab

/-- The members are listed once each. -/
lemma WellFormed.nodup_elements (w : s.WellFormed) : s.elements.Nodup :=
  w.nodup_dense.sublist (List.take_sublist _ _)

lemma length_elements (w : s.WellFormed) : s.elements.length = s.size := by
  have := w.size_le
  simp only [elements, List.length_take, Array.length_toList]
  omega

/-! ### Insertion -/

/-- Whether the element was not a member before. -/
lemma insert_fst (w : s.WellFormed) (he : e < s.capacity) :
    (s.insert e).1 = !s.contains e := by
  obtain ⟨p, hp, -⟩ := w.getElem?_positions he
  rw [insert, contains, hp]
  by_cases hlt : p < s.size <;> simp [hlt]

/-- Insertion puts the element at the first place behind the members. -/
lemma insert_snd (hp : s.positions[e]? = some p) (hlt : ¬ p < s.size) :
    (s.insert e).2 = { s.swap p s.size with size := s.size + 1 } := by
  rw [insert, hp]
  simp [hlt]

/-- There is no room for numbers from the capacity on. -/
lemma insert_of_capacity_le (w : s.WellFormed) (he : s.capacity ≤ e) :
    s.insert e = (false, s) := by
  have hnone : s.positions[e]? = none :=
    Array.getElem?_eq_none (by rw [w.same_size]; exact he)
  rw [insert, hnone]

lemma insert_of_contains (h : s.contains e = true) : (s.insert e).2 = s := by
  obtain ⟨p, hp, hlt⟩ := contains_iff.1 h
  rw [insert, hp]
  simp [hlt]

lemma WellFormed.insert (w : s.WellFormed) : (s.insert e).2.WellFormed := by
  cases hp : s.positions[e]? with
  | none => rw [SparseSet.insert, hp]; exact w
  | some p =>
    by_cases hlt : p < s.size
    · rw [insert_of_contains (contains_iff.2 ⟨p, hp, hlt⟩)]
      exact w
    · have hpd := (Array.getElem?_eq_some_iff.1 (w.dense_positions e p hp)).1
      have hsize : s.size < s.dense.size := by omega
      have ws := w.swap hpd hsize
      rw [insert_snd hp hlt]
      refine ⟨?_, ws.same_size, ws.dense_positions, ws.positions_dense⟩
      have hcap : (s.swap p s.size).dense.size = s.dense.size := capacity_swap
      rw [hcap]
      exact hsize

lemma capacity_insert : (s.insert e).2.capacity = s.capacity := by
  rw [insert]
  split
  · split
    · rfl
    · exact capacity_swap
  · rfl

lemma contains_insert (w : s.WellFormed) (he : e < s.capacity) :
    (s.insert e).2.contains e' = true ↔ e' = e ∨ s.contains e' = true := by
  obtain ⟨p, hp, hpd⟩ := w.getElem?_positions he
  by_cases hlt : p < s.size
  · have h := contains_iff.2 ⟨p, hp, hlt⟩
    rw [insert_of_contains h]
    exact ⟨.inr, fun h' => h'.elim (fun e => e ▸ h) id⟩
  · have hsize : s.size < s.dense.size := by omega
    have hpe : s.dense[p] = e := (Array.getElem?_eq_some_iff.1 (w.dense_positions e p hp)).2
    rw [insert_snd hp hlt, contains_iff, contains_iff]
    simp only [getElem?_positions_swap w hpd hsize, hpe]
    by_cases h₁ : e = e'
    · subst h₁
      simp
    · rw [if_neg h₁]
      by_cases h₂ : s.dense[s.size] = e'
      · -- the element that gives way stood behind the members, and still does
        have hpos := w.positions_dense s.size e' (by rw [Array.getElem?_eq_getElem hsize, h₂])
        have hne : p ≠ s.size := by
          intro h
          subst h
          exact h₁ (hpe.symm.trans h₂)
        simp only [if_pos h₂, hpos, Option.some.injEq, exists_eq_left', Ne.symm h₁, false_or]
        omega
      · rw [if_neg h₂]
        simp only [Ne.symm h₁, false_or]
        refine exists_congr fun q => and_congr_right fun hq => ?_
        have : q ≠ s.size := by
          intro h
          subst h
          exact h₂ (Array.getElem?_eq_some_iff.1 (w.dense_positions e' _ hq)).2
        omega

/-! ### Removal -/

/-- Whether the element was a member before. -/
lemma remove_fst : (s.remove e).1 = s.contains e := by
  rw [remove, contains]
  cases s.positions[e]? with
  | none => rfl
  | some p => by_cases hlt : p < s.size <;> simp [hlt]

/-- Removal puts the element at the last place of the members. -/
lemma remove_snd (hp : s.positions[e]? = some p) (hlt : p < s.size) :
    (s.remove e).2 = { s.swap p (s.size - 1) with size := s.size - 1 } := by
  rw [remove, hp]
  simp [hlt]

lemma remove_of_not_contains (h : s.contains e = false) : (s.remove e).2 = s := by
  rw [remove]
  rw [contains] at h
  cases hp : s.positions[e]? with
  | none => rfl
  | some p =>
    simp only [hp, decide_eq_false_iff_not] at h
    simp [h]

lemma WellFormed.remove (w : s.WellFormed) : (s.remove e).2.WellFormed := by
  cases h : s.contains e with
  | false => rw [remove_of_not_contains h]; exact w
  | true =>
    obtain ⟨p, hp, hlt⟩ := contains_iff.1 h
    have := w.size_le
    have hlast : s.size - 1 < s.dense.size := by omega
    have ws := w.swap (by omega : p < s.dense.size) hlast
    rw [remove_snd hp hlt]
    refine ⟨?_, ws.same_size, ws.dense_positions, ws.positions_dense⟩
    have hcap : (s.swap p (s.size - 1)).dense.size = s.dense.size := capacity_swap
    rw [hcap]
    exact Nat.le_of_lt hlast

lemma capacity_remove : (s.remove e).2.capacity = s.capacity := by
  rw [remove]
  split
  · split
    · exact capacity_swap
    · rfl
  · rfl

lemma contains_remove (w : s.WellFormed) :
    (s.remove e).2.contains e' = true ↔ e' ≠ e ∧ s.contains e' = true := by
  cases h : s.contains e with
  | false =>
    rw [remove_of_not_contains h]
    refine ⟨fun h' => ⟨fun he => ?_, h'⟩, And.right⟩
    rw [he, h] at h'
    cases h'
  | true =>
    obtain ⟨p, hp, hlt⟩ := contains_iff.1 h
    have := w.size_le
    have hpd : p < s.dense.size := by omega
    have hlast : s.size - 1 < s.dense.size := by omega
    have hpe : s.dense[p] = e := (Array.getElem?_eq_some_iff.1 (w.dense_positions e p hp)).2
    rw [remove_snd hp hlt, contains_iff, contains_iff]
    simp only [getElem?_positions_swap w hpd hlast, hpe]
    by_cases h₁ : e = e'
    · subst h₁
      simp
    · rw [if_neg h₁]
      by_cases h₂ : s.dense[s.size - 1] = e'
      · -- the element that gives way was the last member, and stays one
        have hpos := w.positions_dense (s.size - 1) e'
          (by rw [Array.getElem?_eq_getElem hlast, h₂])
        have hne : p ≠ s.size - 1 := by
          intro h
          subst h
          exact h₁ (hpe.symm.trans h₂)
        simp only [if_pos h₂, hpos, Option.some.injEq, exists_eq_left', ne_eq, Ne.symm h₁,
          not_false_eq_true, true_and]
        omega
      · rw [if_neg h₂]
        simp only [ne_eq, Ne.symm h₁, not_false_eq_true, true_and]
        refine exists_congr fun q => and_congr_right fun hq => ?_
        have : q ≠ s.size - 1 := by
          intro h
          subst h
          exact h₂ (Array.getElem?_eq_some_iff.1 (w.dense_positions e' _ hq)).2
        omega

/-! ### Sizes -/

section Sizes

variable {s₁ s₂ : SparseSet}

/-- Sets with the same members have the same size. -/
lemma size_eq_of_contains (w : s.WellFormed) (w₁ : s₁.WellFormed)
    (h : ∀ e, s₁.contains e = s.contains e) : s₁.size = s.size := by
  rw [← length_elements w, ← length_elements w₁]
  refine ((List.perm_ext_iff_of_nodup w₁.nodup_elements w.nodup_elements).2 fun e => ?_).length_eq
  rw [mem_elements w, mem_elements w₁, h]

lemma size_eq_zero_iff (w : s.WellFormed) : s.size = 0 ↔ ∀ e, s.contains e = false := by
  rw [← length_elements w, List.length_eq_zero_iff, List.eq_nil_iff_forall_not_mem]
  refine forall_congr' fun e => ?_
  rw [mem_elements w, Bool.not_eq_true]

/-- The size of the union of two sets without common members. -/
lemma size_eq_add (w : s.WellFormed) (w₁ : s₁.WellFormed) (w₂ : s₂.WellFormed)
    (hdisjoint : ∀ e, s₁.contains e = true → s₂.contains e = false)
    (h : ∀ e, s.contains e = true ↔ s₁.contains e = true ∨ s₂.contains e = true) :
    s.size = s₁.size + s₂.size := by
  rw [← length_elements w, ← length_elements w₁, ← length_elements w₂, ← List.length_append]
  have hnodup : (s₁.elements ++ s₂.elements).Nodup := by
    refine List.Nodup.append w₁.nodup_elements w₂.nodup_elements fun e h₁ h₂ => ?_
    rw [mem_elements w₁] at h₁
    rw [mem_elements w₂, hdisjoint e h₁] at h₂
    cases h₂
  refine ((List.perm_ext_iff_of_nodup w.nodup_elements hnodup).2 fun e => ?_).length_eq
  rw [List.mem_append, mem_elements w, mem_elements w₁, mem_elements w₂, h]

end Sizes

end SparseSet

end FiniteDomain
