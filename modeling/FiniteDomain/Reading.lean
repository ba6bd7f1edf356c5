import FiniteDomain.IntervalSet.Lemmas

/-!
What is asked of a domain.

A view looks at the domain of its base through three questions only: for the least value, for the
greatest, and whether a value is there.  The domain of a root answers them from its bounds and
its holes, that of a view from two flags, and neither needs the domain as a set.

* `Reading`: the answers to the three questions;
* `IntervalSet.reading`: the answers of a set;
* `Booleans`: the domain of a boolean variable, as two flags;
* `Booleans.reading_eq`: the flags answer as the set that they stand for.
-/

namespace FiniteDomain

/-- The answers to the questions about a domain. -/
structure Reading where
  lower : Int
  upper : Int
  contains : Int → Bool

namespace Reading

/-- Whether there is no other value. -/
def isFixedTo (q : Reading) (k : Int) : Bool := q.lower == k && q.upper == k

/-- The two bounds. -/
def bounds (q : Reading) : Int × Int := (q.lower, q.upper)

end Reading

/-- The answers of a set. -/
def IntervalSet.reading (d : IntervalSet) : Reading := ⟨d.lower, d.upper, d.contains⟩

/-- The domain of a boolean variable: whether it can be 0, and whether it can be 1. -/
structure Booleans where
  zero : Bool
  one : Bool
  deriving DecidableEq

namespace Booleans

/-- The subset of `{0, 1}` that the flags stand for. -/
def toSet (b : Booleans) : IntervalSet :=
  (if b.zero then {0} else ∅) ∪ (if b.one then {1} else ∅)

/-- The answers of the flags. -/
def reading (b : Booleans) : Reading where
  lower := if b.zero then 0 else 1
  upper := if b.one then 1 else 0
  contains k := k == 0 && b.zero || k == 1 && b.one

theorem mem_toSet {b : Booleans} {y : Int} :
    y ∈ b.toSet ↔ y = 0 ∧ b.zero = true ∨ y = 1 ∧ b.one = true := by
  obtain ⟨zero, one⟩ := b
  cases zero <;> cases one <;> simp [toSet]

/-- The flags answer as the set that they stand for, unless it is empty. -/
theorem reading_eq {b : Booleans} (h : ∃ y, y ∈ b.toSet) : b.reading = b.toSet.reading := by
  have hlower := IntervalSet.lower_mem h
  have hupper := IntervalSet.upper_mem h
  have hle : ∀ y, y ∈ b.toSet → b.toSet.lower ≤ y ∧ y ≤ b.toSet.upper :=
    fun y hy => ⟨IntervalSet.lower_le hy, IntervalSet.le_upper hy⟩
  simp only [mem_toSet] at hlower hupper hle
  have hcontains : (fun k : Int => k == 0 && b.zero || k == 1 && b.one) = b.toSet.contains := by
    funext k
    rw [Bool.eq_iff_iff, IntervalSet.contains_iff, mem_toSet]
    simp
  rw [reading, IntervalSet.reading, Reading.mk.injEq]
  refine ⟨?_, ?_, hcontains⟩
  · split
    · rename_i hzero
      have := hle 0 (.inl ⟨rfl, hzero⟩)
      omega
    · rename_i hzero
      exact (hlower.resolve_left fun h => hzero h.2).1.symm
  · split
    · rename_i hone
      have := hle 1 (.inr ⟨rfl, hone⟩)
      omega
    · rename_i hone
      exact (hupper.resolve_right fun h => hone h.2).1.symm

end Booleans

end FiniteDomain
