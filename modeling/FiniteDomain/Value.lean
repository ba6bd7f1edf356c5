/-!
Values of variables.

Values are integers.  The ones a program may use lie between `Value.least`
and `Value.greatest`, the range of a signed 32-bit word; since the arithmetic
here is that of the integers, no intermediate result wraps around.

* `Value.above`, `Value.below`: the neighbours of a value, which stay put at
  the two ends of the range, with `Value.above_of_lt` and `Value.below_of_gt`.
-/

namespace FiniteDomain

namespace Value

/-- The least value a program may use. -/
def least : Int := -2147483648

/-- The greatest value a program may use. -/
def greatest : Int := 2147483647

/-- The values a program may use. -/
def InRange (v : Int) : Prop := least ≤ v ∧ v ≤ greatest

instance (v : Int) : Decidable (InRange v) := inferInstanceAs (Decidable (_ ∧ _))

/-- The next value up; the greatest value has none and stands for itself. -/
def above (v : Int) : Int := min (v + 1) greatest

/-- The next value down; the least value has none and stands for itself. -/
def below (v : Int) : Int := max (v - 1) least

theorem above_of_lt {v : Int} (h : v < greatest) : above v = v + 1 := by
  simp only [above]
  omega

theorem below_of_gt {v : Int} (h : least < v) : below v = v - 1 := by
  simp only [below]
  omega

end Value

end FiniteDomain
