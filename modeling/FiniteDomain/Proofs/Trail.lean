import Mathlib.Tactic
import FiniteDomain.Trail

/-!
Going back on a trail.

Everything that going back does to a trail depends on `Trail.extent`, the length
the trail had when a level was left.  New entries and new checkpoints do not
change the extents of the levels below, so going back below them forgets them.

* `Trail.WellFormed`: the extents grow with the level;
* `Trail.extent_push`, `Trail.extent_mark`, `Trail.extent_cut`: the extents after
  each operation;
* `Trail.cut_push`, `Trail.cut_mark_of_le`, `Trail.cut_cut`: going back after each
  operation;
* `Trail.undone_push`, `Trail.undone_cut`: what is given up.
-/

namespace FiniteDomain

namespace Trail

variable {α : Type} {t : Trail α} {a : α} {i j level : Nat}

/-- Each checkpoint was taken at a trail at least as long as at the one before. -/
def WellFormed (t : Trail α) : Prop := ∀ i j, i ≤ j → t.extent i ≤ t.extent j

lemma extent_of_level_le (h : t.level ≤ i) : t.extent i = t.length := by
  rw [extent, Array.getElem?_eq_none (by simpa [Trail.level] using h), Option.getD_none, length]

lemma WellFormed.extent_le_length (w : t.WellFormed) : t.extent i ≤ t.length := by
  rw [← extent_of_level_le (Nat.le_max_right i t.level)]
  exact w i _ (Nat.le_max_left i t.level)

lemma extent_push : (t.push a).extent i = if i < t.level then t.extent i else t.length + 1 := by
  split
  · rename_i h
    rw [extent, extent, push, Array.getElem?_eq_getElem h, Option.getD_some, Option.getD_some]
  · rename_i h
    rw [extent_of_level_le (by simpa using Nat.not_lt.1 h), length_push]

/-- A checkpoint marks the current length, which was the extent of its level
before. -/
lemma extent_mark : t.mark.extent i = t.extent i := by
  simp only [extent, mark, Array.getElem?_push]
  split
  · rename_i h
    rw [Array.getElem?_eq_none (Nat.le_of_eq h.symm), Option.getD_none, Option.getD_some]
  · rfl

lemma length_cut (w : t.WellFormed) : (t.cut level).length = t.extent level := by
  have := w.extent_le_length (i := level)
  simp only [length, cut, Array.take_eq_extract, Array.size_extract] at *
  omega

lemma level_cut_eq_min : (t.cut level).level = min level t.level := by
  simp only [Trail.level, cut, Array.take_eq_extract, Array.size_extract]
  omega

lemma level_cut (h : level ≤ t.level) : (t.cut level).level = level :=
  level_cut_eq_min.trans (Nat.min_eq_left h)

lemma getElem?_cut (w : t.WellFormed) :
    (t.cut level).entries[i]? = if i < t.extent level then t.entries[i]? else none := by
  have hle := w.extent_le_length (i := level)
  rw [length] at hle
  simp only [cut, Array.take_eq_extract, Array.getElem?_extract, Nat.zero_add, Nat.sub_zero,
    Nat.min_eq_left hle]

lemma extent_cut (w : t.WellFormed) : (t.cut level).extent i = t.extent (min i level) := by
  have hlen : (t.cut level).length = t.extent level := length_cut w
  rw [length] at hlen
  rw [extent, hlen]
  simp only [cut, Array.take_eq_extract, Array.getElem?_extract, Nat.zero_add, Nat.sub_zero]
  split
  · rename_i h
    rw [Array.getElem?_eq_getElem (by omega), Option.getD_some, Nat.min_eq_left (by omega),
      extent, Array.getElem?_eq_getElem (by omega), Option.getD_some]
  · rename_i h
    rw [Option.getD_none]
    by_cases hi : i < level
    · -- the level lies above all checkpoints
      rw [extent_of_level_le (by rw [Trail.level]; omega),
        extent_of_level_le (by rw [Trail.level]; omega)]
    · rw [Nat.min_eq_right (Nat.not_lt.1 hi)]

lemma WellFormed.push (w : t.WellFormed) : (t.push a).WellFormed := by
  intro i j hij
  rw [extent_push, extent_push]
  have := w i j hij
  have := w.extent_le_length (i := i)
  split <;> split <;> omega

lemma WellFormed.mark (w : t.WellFormed) : t.mark.WellFormed := by
  intro i j hij
  rw [extent_mark, extent_mark]
  exact w i j hij

lemma WellFormed.cut (w : t.WellFormed) : (t.cut level).WellFormed := by
  intro i j hij
  rw [extent_cut w, extent_cut w]
  exact w _ _ (by omega)

lemma wellFormed_empty : ({} : Trail α).WellFormed := by
  intro i j _
  simp [extent]

/-- Entries made after a checkpoint are forgotten below it. -/
lemma cut_push (w : t.WellFormed) (h : level < t.level) : (t.push a).cut level = t.cut level := by
  have hle := w.extent_le_length (i := level)
  rw [length] at hle
  simp only [cut, extent_push, if_pos h]
  simp only [push, Array.take_eq_extract, Array.extract_push_of_le hle]

lemma cut_mark_of_le (h : level ≤ t.level) : t.mark.cut level = t.cut level := by
  simp only [cut, extent_mark]
  rw [Trail.level] at h
  simp only [mark, Array.take_eq_extract, Array.extract_push_of_le h]

lemma cut_cut (w : t.WellFormed) (h : i ≤ j) : (t.cut j).cut i = t.cut i := by
  have hij := w i j h
  rw [cut, extent_cut w, Nat.min_eq_left h]
  simp only [cut, Array.take_eq_extract, Array.extract_extract, Nat.zero_add, Nat.min_eq_left h,
    Nat.min_eq_left hij]

/-! ### Entries given up -/

lemma undone_push (w : t.WellFormed) (h : level < t.level) :
    (t.push a).undone level = a :: t.undone level := by
  have hle := w.extent_le_length (i := level)
  rw [undone, extent_push, if_pos h, undone]
  simp only [push, Array.toList_push]
  rw [List.drop_append_of_le_length (by simpa [length] using hle), List.reverse_append,
    List.reverse_singleton, List.singleton_append]

lemma undone_mark : t.mark.undone level = t.undone level := by
  rw [undone, undone, extent_mark, mark]

lemma undone_level : t.undone t.level = [] := by
  rw [undone, extent_level, List.drop_eq_nil_of_le (by simp [length]), List.reverse_nil]

/-- Going back in two steps gives up the same entries in the same order. -/
lemma undone_cut (w : t.WellFormed) (h : i ≤ j) :
    t.undone i = t.undone j ++ (t.cut j).undone i := by
  have hij := w i j h
  rw [undone, undone, undone, extent_cut w, Nat.min_eq_left h, ← List.reverse_append]
  simp only [cut, Array.take_eq_extract, Array.toList_extract, List.extract_eq_take_drop,
    List.drop_zero, Nat.sub_zero]
  have hdrop : t.entries.toList.drop (t.extent j)
      = (t.entries.toList.drop (t.extent i)).drop (t.extent j - t.extent i) := by
    rw [List.drop_drop, Nat.add_sub_cancel' hij]
  rw [List.drop_take, hdrop, List.take_append_drop]

end Trail

end FiniteDomain
