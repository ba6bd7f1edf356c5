import FiniteDomain.Identifier
import FiniteDomain.IntervalSet.Lemmas

/-!
Literals and clauses.

A literal says that a variable takes one of the values of a set; a clause is a
disjunction of literals.

* `Literal.Holds`, `Clause.Holds`: what they say of an assignment;
* `Clause.add`: literals on one variable are merged into one;
* `Clause.sorted`: the literals in the order of their variables, with `Clause.mem_sorted`;
* `Clause.toString`: the printed form;
* `Clause.holds_add`, `Clause.holds_addAll`, `Clause.holds_nonempty`,
  `Clause.holds_sorted`: what the operations make of the statement.
-/

namespace FiniteDomain

/-- The statement that a variable takes one of the allowed values. -/
structure Literal where
  var : VarId
  allowed : IntervalSet
  deriving DecidableEq

/-- The literal is true under an assignment of values to variables. -/
def Literal.Holds (values : VarId → Int) (l : Literal) : Prop := values l.var ∈ l.allowed

instance : ToString Literal :=
  ⟨fun l => toString l.var ++ " in " ++ toString l.allowed⟩

/-- A disjunction of literals. -/
abbrev Clause := List Literal

namespace Clause

/-- Some literal of the clause is true. -/
def Holds (values : VarId → Int) (c : Clause) : Prop := ∃ l ∈ c, l.Holds values

/-- The values that the clause allows a variable. -/
def allowed? (v : VarId) (c : Clause) : Option IntervalSet :=
  (c.find? fun l => decide (l.var = v)).map Literal.allowed

/-- The clause without the literals on a variable. -/
def without (v : VarId) (c : Clause) : Clause := c.filter fun l => decide (l.var ≠ v)

/-- The clause with one more literal, merged into the one on the same variable
if there is one. -/
def add (l : Literal) : Clause → Clause
  | [] => [l]
  | k :: c =>
    if k.var = l.var then ⟨k.var, k.allowed ∪ l.allowed⟩ :: c else k :: add l c

/-- The clause with all literals of a second one added. -/
def addAll (new c : Clause) : Clause := new.foldl (fun c l => add l c) c

/-- The clause without the literals that no value satisfies. -/
def nonempty (c : Clause) : Clause := c.filter fun l => !l.allowed.isEmpty

/-- The literals in the order of their variables. -/
def sorted (c : Clause) : Clause := c.mergeSort fun k l => k.var.ble l.var

/-- The literals with the sign of disjunction between them; without literals
the clause is false. -/
protected def toString (c : Clause) : String :=
  if c.isEmpty then "false" else " \\/ ".intercalate (c.map fun l => toString l)

theorem mem_sorted {c : Clause} {l : Literal} : l ∈ c.sorted ↔ l ∈ c := List.mem_mergeSort

/-! ### What clauses say -/

section Holds

variable {values : VarId → Int}

theorem not_holds_nil : ¬ Holds values [] := by
  rintro ⟨l, hl, -⟩
  cases hl

theorem holds_cons {l : Literal} {c : Clause} :
    Holds values (l :: c) ↔ l.Holds values ∨ Holds values c := by
  simp [Holds]

theorem holds_append {c d : Clause} :
    Holds values (c ++ d) ↔ Holds values c ∨ Holds values d := by
  simp only [Holds, List.mem_append, or_and_right, exists_or]

/-- Merging a literal in means the same as putting it in front. -/
theorem holds_add {l : Literal} {c : Clause} :
    Holds values (add l c) ↔ l.Holds values ∨ Holds values c := by
  induction c with
  | nil => rw [add, holds_cons]
  | cons k c ih =>
    rw [add]
    split
    · rename_i h
      rw [holds_cons, holds_cons, Literal.Holds, Literal.Holds, Literal.Holds,
        IntervalSet.mem_union, h, or_assoc, or_left_comm]
    · rw [holds_cons, holds_cons, ih, or_left_comm]

theorem holds_addAll {new c : Clause} :
    Holds values (addAll new c) ↔ Holds values new ∨ Holds values c := by
  induction new generalizing c with
  | nil => simp [addAll, not_holds_nil]
  | cons l new ih =>
    rw [addAll, List.foldl_cons, ← addAll, ih, holds_add, holds_cons, or_left_comm, or_assoc]

/-- Literals that no value satisfies say nothing. -/
theorem holds_nonempty {c : Clause} : Holds values c.nonempty ↔ Holds values c := by
  constructor
  · rintro ⟨l, hl, h⟩
    exact ⟨l, (List.mem_filter.1 hl).1, h⟩
  · rintro ⟨l, hl, h⟩
    refine ⟨l, List.mem_filter.2 ⟨hl, ?_⟩, h⟩
    rw [IntervalSet.isEmpty_eq_false_iff.2 ⟨_, h⟩, Bool.not_false]

theorem holds_sorted {c : Clause} : Holds values c.sorted ↔ Holds values c := by
  simp only [Holds, mem_sorted]

end Holds

end Clause

end FiniteDomain
