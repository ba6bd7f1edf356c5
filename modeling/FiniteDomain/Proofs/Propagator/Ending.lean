import Mathlib.Tactic
import FiniteDomain.Proofs.Propagator.Confined
import FiniteDomain.Proofs.Propagator.Rest
import FiniteDomain.Proofs.Rounds

/-!
Calls of propagators come to an end.

Whatever a propagator remembers, and however the variables of its scope depend on each other, a
call ends with smaller domains or stops at an inconsistency.  The two loops of the maximum take a
value in each round but the last.

* `Maximum.outlasts_agree`, `Maximum.outlasts_rounds`: more rounds make no difference;
* `Maximum.concludes_agree`, `Maximum.concludes_rounds`: the loops come to an end, wherever the
  call is made;
* `Propagator.settles_any_propagate`, `Propagator.settles_any_react`: all calls of the engine.
-/

namespace FiniteDomain

open FiniteDomain.Filter

/-! ### The loops of the maximum -/

namespace Maximum

variable {c : Maximum} {p : PropId} {v : VarId} {s : Space}

lemma outlasts_agree {n m : Nat} (h : n ≤ m) : Outlasts (c.agree p v n) (c.agree p v m) s := by
  induction n generalizing m s with
  | zero => exact .inl ⟨s, rfl⟩
  | succ n ih =>
    obtain ⟨m, rfl⟩ := Nat.exists_eq_add_one.2 (Nat.zero_lt_of_lt h)
    rw [agree, agree]
    refine Outlasts.bind (.refl _ _) fun store t => ?_
    split
    · exact .refl _ _
    refine Outlasts.bind (.refl _ _) fun _ t => Outlasts.bind (.refl _ _) fun store t => ?_
    exact Outlasts.bind (.refl _ _) fun _ t => ih (Nat.le_of_succ_le_succ h)

lemma outlasts_rounds {n m : Nat} (h : n ≤ m) : Outlasts (c.rounds p n) (c.rounds p m) s := by
  induction n generalizing m s with
  | zero => exact .inl ⟨s, rfl⟩
  | succ n ih =>
    obtain ⟨m, rfl⟩ := Nat.exists_eq_add_one.2 (Nat.zero_lt_of_lt h)
    rw [rounds, rounds]
    refine Outlasts.bind (.refl _ _) fun store t => Outlasts.bind (.refl _ _) fun found t => ?_
    refine Outlasts.bind (.refl _ _) fun raised t => Outlasts.bind (.refl _ _) fun lowered t => ?_
    refine Outlasts.bind (.refl _ _) fun store t => ?_
    split
    · exact .refl _ _
    split
    · exact ih (Nat.le_of_succ_le_succ h)
    · exact .refl _ _

variable (w : s.WellFormed) (hscope : ∀ v ∈ c.scope, s.store.has v = true)

include w hscope

/-- The bounds of an element and of the right-hand side agree after as many rounds as there are
values. -/
lemma concludes_agree (hv : v ∈ c.array) : Concludes (c.agree p v) s s.rounds :=
  have hsettles : Settles p [] s (c.agree p v s.rounds) _ :=
    settles_agree w hscope hv (Nat.lt_succ_self _)
  Concludes.of_ends (fun _ => outlasts_agree) hsettles

/-- Bound propagation ends after as many rounds as there are values. -/
lemma concludes_rounds (hp : p.index < s.memory.activities.size) (harray : c.array ≠ []) :
    Concludes (c.rounds p) s s.rounds :=
  have hsettles : Settles p [] s (c.rounds p s.rounds) _ :=
    settles_rounds w hscope hp harray (Nat.lt_succ_self _)
  Concludes.of_ends (fun _ => outlasts_rounds) hsettles

end Maximum

/-! ### All calls -/

namespace Propagator

variable {q : Propagator} {p : PropId} {s : Space} {f : Filter Unit}

/-- A call of a propagator with sets has no loop that is given rounds. -/
lemma settles_of_yields {own : List SetId} (hown : own ≠ [])
    (h : Yields .any p own s f fun _ _ => True) : Settles p own s f fun _ _ => True := by
  refine Ends.mono h (fun _ _ h => h) fun x t h => ?_
  cases x with
  | inconsistent i => exact ⟨i, rfl⟩
  | exhausted => exact absurd h.1 hown

section Settles

variable (w : s.WellFormed) (hscope : ¬ q.IsObserver → ∀ v ∈ q.scope, s.store.has v = true)
  (hp : p.index < s.memory.activities.size) (hproper : q.Proper)

include w hscope hp hproper

/-- A propagation from scratch comes to an end. -/
lemma settles_any_propagate : Settles p q.own s (q.propagate p) fun _ _ => True := by
  cases q with
  | count c sets =>
    exact settles_of_yields (List.cons_ne_nil _ _) (Count.yields_any_propagate w (hscope nofun))
  | maximum c =>
    exact (Maximum.settles_propagate w (hscope nofun) hp hproper).mono fun _ _ _ _ => trivial
  | member c =>
    have hvar := hscope nofun c.var Member.var_mem_scope
    exact (Member.settles_propagate w hvar hp).mono fun _ _ _ _ => trivial
  | disjunction c =>
    obtain ⟨hclause, hdistinct⟩ := hproper
    exact (Disjunction.settles_propagate w (hscope nofun) hp hclause hdistinct).mono
      fun _ _ _ _ => trivial
  | observer o => exact (settles_record w).mono fun _ _ _ _ => trivial

/-- A propagation for an event comes to an end. -/
lemma settles_any_react (index : Nat) (events : EventSet) :
    Settles p q.own s (q.react p index events) fun _ _ => True := by
  cases q with
  | count c sets =>
    have hsets : sets.own ≠ [] := List.cons_ne_nil _ _
    exact settles_of_yields hsets (Count.yields_any_react w (hscope nofun) index)
  | maximum c => exact settles_any_propagate (q := maximum c) w hscope hp hproper
  | member c => exact settles_any_propagate (q := member c) w hscope hp hproper
  | disjunction c => exact settles_any_propagate (q := disjunction c) w hscope hp hproper
  | observer o => exact (settles_record w).mono fun _ _ _ _ => trivial

end Settles

end Propagator

end FiniteDomain
