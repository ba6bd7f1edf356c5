/-!
Sparse sets.

A set of numbers below a capacity, with insertion and removal that touch two
places of the memory only.  An array holds all numbers below the capacity, the
members first; a second one holds the place of each number in the first.
Insertion and removal swap a number with the one at the border, so the members
stand in an order that depends on the operations before.

* `SparseSet.contains`, `SparseSet.elements`: the members;
* `SparseSet.insert`, `SparseSet.remove`: whether the membership changed, and
  the set after the change;
* `SparseSet.WellFormed`: the two arrays are inverse to each other;
* `SparseSet.mem_elements`: then the list of members has just those.
-/

namespace FiniteDomain

/-- A set of numbers below a capacity. -/
structure SparseSet where
  /-- All numbers below the capacity, the members first. -/
  dense : Array Nat
  /-- The place of each number in `dense`. -/
  positions : Array Nat
  /-- The number of members. -/
  size : Nat
  deriving DecidableEq, Repr

namespace SparseSet

/-- The empty set of numbers below a capacity. -/
def empty (capacity : Nat) : SparseSet := ⟨Array.range capacity, Array.range capacity, 0⟩

/-- The numbers that can be members are those below the capacity. -/
def capacity (s : SparseSet) : Nat := s.dense.size

/-- Each array undoes the other, and the members fit in. -/
structure WellFormed (s : SparseSet) : Prop where
  size_le : s.size ≤ s.dense.size
  same_size : s.positions.size = s.dense.size
  dense_positions : ∀ e p : Nat, s.positions[e]? = some p → s.dense[p]? = some e
  positions_dense : ∀ p e : Nat, s.dense[p]? = some e → s.positions[e]? = some p

/-- Whether the number is a member. -/
def contains (s : SparseSet) (e : Nat) : Bool :=
  match s.positions[e]? with
  | some p => decide (p < s.size)
  | none => false

/-- The members, in the order of `dense`. -/
def elements (s : SparseSet) : List Nat := s.dense.toList.take s.size

/-- The set with two places of `dense` exchanged. -/
def swap (s : SparseSet) (i j : Nat) : SparseSet :=
  if h : i < s.dense.size ∧ j < s.dense.size then
    { s with
      dense := s.dense.swap i j h.1 h.2
      positions := (s.positions.setIfInBounds s.dense[j] i).setIfInBounds s.dense[i] j }
  else s

/-- Whether a number was not a member before, and the set with it. -/
def insert (s : SparseSet) (e : Nat) : Bool × SparseSet :=
  match s.positions[e]? with
  | some p =>
    if p < s.size then (false, s)
    else (true, { s.swap p s.size with size := s.size + 1 })
  | none => (false, s)

/-- Whether a number was a member before, and the set without it. -/
def remove (s : SparseSet) (e : Nat) : Bool × SparseSet :=
  match s.positions[e]? with
  | some p =>
    if p < s.size then (true, { s.swap p (s.size - 1) with size := s.size - 1 })
    else (false, s)
  | none => (false, s)

theorem contains_empty (capacity e : Nat) : (empty capacity).contains e = false := by
  simp only [contains, empty]
  split <;> simp

theorem wellFormed_empty (capacity : Nat) : WellFormed (empty capacity) where
  size_le := Nat.zero_le _
  same_size := rfl
  dense_positions e p h := by
    simp only [empty, Array.getElem?_range] at h ⊢
    grind
  positions_dense p e h := by
    simp only [empty, Array.getElem?_range] at h ⊢
    grind

/-- The members stand at the first places. -/
theorem mem_elements {s : SparseSet} (hs : s.WellFormed) {e : Nat} :
    e ∈ s.elements ↔ s.contains e = true := by
  simp only [elements, contains, List.mem_take_iff_getElem, Array.getElem_toList,
    Array.length_toList]
  constructor
  · rintro ⟨p, hp, rfl⟩
    have := hs.positions_dense p s.dense[p] (Array.getElem?_eq_getElem (by omega))
    rw [this]
    simp only [decide_eq_true_eq]
    omega
  · intro h
    split at h
    · rename_i p hp
      have hd := hs.dense_positions e p hp
      obtain ⟨hlt, he⟩ := Array.getElem?_eq_some_iff.1 hd
      exact ⟨p, by simp only [decide_eq_true_eq] at h; omega, he⟩
    · cases h

end SparseSet

end FiniteDomain
