import Mathlib.Tactic
import FiniteDomain.Space
import FiniteDomain.Proofs.Outcome

/-!
Loops that are given rounds.

A loop that has used up its rounds stops for that reason.  If it comes to an end before, then it
does the same with any number of rounds beyond, so that the rounds put no limit to what it does.

* `Outlasts`: the same run with more rounds, with `Outlasts.bind`: runs one after another;
* `Concludes`: a loop that comes to an end by itself, with `Concludes.of_ends`.
-/

namespace FiniteDomain

variable {σ α β : Type} {f g : EStateM Stop σ α} {k k' : α → EStateM Stop σ β} {s : σ}
  {loop : Nat → EStateM Stop σ α} {n : Nat}

/-- The second run does what the first one does, unless that one used up its rounds. -/
def Outlasts (f g : EStateM Stop σ α) (s : σ) : Prop :=
  (∃ t, f s = .error .exhausted t) ∨ g s = f s

/-- The loop comes to an end within `n` rounds, and further rounds change nothing. -/
structure Concludes (loop : Nat → EStateM Stop σ α) (s : σ) (n : Nat) : Prop where
  ends : ∀ t, loop n s ≠ .error .exhausted t
  same : ∀ m, n ≤ m → loop m s = loop n s

lemma Outlasts.refl (f : EStateM Stop σ α) (s : σ) : Outlasts f f s := .inr rfl

lemma Outlasts.bind (h : Outlasts f g s) (hk : ∀ a t, Outlasts (k a) (k' a) t) :
    Outlasts (f >>= k) (g >>= k') s := by
  rcases h with ⟨t, hf⟩ | hsame
  · left
    exact ⟨t, by simp only [Bind.bind, EStateM.bind, hf]⟩
  · simp only [Outlasts, Bind.bind, EStateM.bind, hsame]
    cases f s with
    | ok a t => exact hk a t
    | error x t => exact .inr rfl

/-- A loop that goes on as it did when it is given more rounds, and does not use them up. -/
lemma Concludes.of_ends (hmore : ∀ m, n ≤ m → Outlasts (loop n) (loop m) s)
    {Q : α → σ → Prop} (hends : Ends (loop n) s Q fun x _ => ∃ i, x = .inconsistent i) :
    Concludes loop s n := by
  have hrun : ∀ t, loop n s ≠ .error .exhausted t := by
    intro t hrun
    obtain ⟨i, hi⟩ := Ends.of_error hrun hends
    cases hi
  refine ⟨hrun, fun m hm => (hmore m hm).resolve_left ?_⟩
  rintro ⟨t, ht⟩
  exact hrun t ht

end FiniteDomain
