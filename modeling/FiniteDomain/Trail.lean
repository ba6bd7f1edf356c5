/-!
Logs with checkpoints.

A trail lists what was done, oldest first, and remembers how long it was at
each checkpoint.  Going back to a level cuts off everything that was done since
the checkpoint of that level was taken, together with that checkpoint and the
later ones.

* `Trail.push`, `Trail.mark`: a new entry, a new checkpoint;
* `Trail.level`: the number of checkpoints;
* `Trail.extent`: the length of the trail when a level was left;
* `Trail.cut`, `Trail.undone`: the trail back at a level, and the entries that
  are given up, newest first;
* `Trail.cut_level`: going back to the current level changes nothing.
-/

namespace FiniteDomain

/-- Entries, oldest first, with the length of the list at each checkpoint. -/
structure Trail (α : Type) where
  entries : Array α := #[]
  marks : Array Nat := #[]
  deriving Repr

namespace Trail

variable {α : Type}

/-- The number of entries. -/
def length (t : Trail α) : Nat := t.entries.size

/-- The number of checkpoints. -/
def level (t : Trail α) : Nat := t.marks.size

/-- The trail with one more entry. -/
def push (t : Trail α) (a : α) : Trail α := { t with entries := t.entries.push a }

/-- The trail with one more checkpoint. -/
def mark (t : Trail α) : Trail α := { t with marks := t.marks.push t.entries.size }

/-- The number of entries when the checkpoint of a level was taken; at the
current level all of them. -/
def extent (t : Trail α) (level : Nat) : Nat := t.marks[level]?.getD t.entries.size

/-- The trail as it was when the checkpoint of a level was taken. -/
def cut (t : Trail α) (level : Nat) : Trail α :=
  ⟨t.entries.take (t.extent level), t.marks.take level⟩

/-- The entries made since the checkpoint of a level was taken, newest first. -/
def undone (t : Trail α) (level : Nat) : List α :=
  (t.entries.toList.drop (t.extent level)).reverse

@[simp] theorem level_push (t : Trail α) (a : α) : (t.push a).level = t.level := rfl

@[simp] theorem length_push (t : Trail α) (a : α) : (t.push a).length = t.length + 1 := by
  simp [length, push]

@[simp] theorem level_mark (t : Trail α) : t.mark.level = t.level + 1 := by
  simp [level, mark]

theorem extent_level (t : Trail α) : t.extent t.level = t.length := by
  simp [extent, level, length]

theorem cut_level (t : Trail α) : t.cut t.level = t := by
  simp only [cut, extent_level]
  simp [length, level]

/-- Right after a checkpoint was taken, going back to it only gives it up. -/
theorem cut_mark (t : Trail α) : t.mark.cut t.level = t := by
  simp [cut, extent, level, mark]

end Trail

end FiniteDomain
