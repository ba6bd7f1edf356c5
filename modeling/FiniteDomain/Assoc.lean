/-!
Association lists in the order of first entry.

A value that comes in for a key that is already there is joined to the one
that is kept, and the key stays where it is; a new key goes to the end.

* `Assoc.join`: the entry of one pair;
* `Assoc.joinAll`: the entry of a whole list of pairs;
* `Assoc.keys_join`: a key is entered once;
* `Assoc.find?_join`: the value that is kept after an entry.
-/

namespace FiniteDomain

/-- Pairs of a key and a value, each key once, in the order of first entry. -/
abbrev Assoc (κ α : Type) := List (κ × α)

namespace Assoc

variable {κ α : Type} [DecidableEq κ]

/-- The keys of the list, in order. -/
def keys (l : Assoc κ α) : List κ := l.map Prod.fst

/-- The value kept for a key. -/
def find? (k : κ) : Assoc κ α → Option α
  | [] => none
  | (k', a) :: l => if k' = k then some a else find? k l

/-- The list after a value came in for a key. -/
def join (f : α → α → α) (k : κ) (a : α) : Assoc κ α → Assoc κ α
  | [] => [(k, a)]
  | (k', b) :: l => if k' = k then (k', f b a) :: l else (k', b) :: join f k a l

/-- The list after all pairs of a second one came in. -/
def joinAll (f : α → α → α) (new l : Assoc κ α) : Assoc κ α :=
  new.foldl (fun l p => join f p.1 p.2 l) l

theorem keys_join (f : α → α → α) (k : κ) (a : α) (l : Assoc κ α) :
    keys (join f k a l) = if k ∈ keys l then keys l else keys l ++ [k] := by
  induction l with
  | nil => simp [keys, join]
  | cons p l ih =>
    obtain ⟨k', b⟩ := p
    by_cases h : k' = k
    · simp [keys, join, h]
    · have : k ≠ k' := fun e => h e.symm
      by_cases hk : k ∈ keys l
      · simp_all [keys, join]
      · simp_all [keys, join]

/-- An entry changes what is kept for its key, and for no other. -/
theorem find?_join (f : α → α → α) (k k' : κ) (a : α) (l : Assoc κ α) :
    find? k' (join f k a l) =
      if k' = k then some ((find? k l).elim a fun b => f b a) else find? k' l := by
  induction l with
  | nil =>
    by_cases h : k' = k
    · simp [find?, join, h]
    · simp [find?, join, h, Ne.symm h]
  | cons p l ih =>
    obtain ⟨i, b⟩ := p
    by_cases hi : i = k
    · by_cases h : k' = k
      · simp [find?, join, hi, h]
      · have : k ≠ k' := fun e => h e.symm
        simp [find?, join, hi, h, this]
    · by_cases h : k' = k
      · simp_all [find?, join]
      · by_cases hk : i = k'
        · simp [find?, join, h, hk]
        · simp_all [find?, join]

end Assoc

end FiniteDomain
