import Mathlib.Tactic

/-!
Runs that end or stop.

Updates of the store, propagators and calls of the engine are all runs on a state
that end with a result or stop with a reason.

* `Ends`: what holds of the state at the end of a run, and when it stops;
* `Ends.bind`: runs one after another;
* `Ends.mono`, `Ends.and`: a weaker statement about a run, and two statements;
* `result?`: the result of a run, with which closed runs are evaluated;
* `bind_get`, `bind_of_ok`, `discard_of_ok` and others: runs whose first part is known.
-/

namespace FiniteDomain

variable {ε σ α β : Type} {f : EStateM ε σ α} {g : α → EStateM ε σ β} {s : σ}
  {Q Q' : α → σ → Prop} {R : β → σ → Prop} {E E' : ε → σ → Prop}

/-- The run ends with a result and a state as `Q` says, or stops with a reason and a
state as `E` says. -/
def Ends (f : EStateM ε σ α) (s : σ) (Q : α → σ → Prop) (E : ε → σ → Prop) : Prop :=
  match f s with
  | .ok a t => Q a t
  | .error x t => E x t

/-- The result of a run, if it ends with one. -/
def result? (f : EStateM ε σ α) (s : σ) : Option α :=
  match f s with
  | .ok a _ => some a
  | .error _ _ => none

lemma exists_of_result? {a : α} (h : result? f s = some a) : ∃ t, f s = .ok a t := by
  rw [result?] at h
  split at h
  · rename_i t hf
    cases h
    exact ⟨t, hf⟩
  · cases h

namespace Ends

lemma of_ok {a : α} {t : σ} (hf : f s = .ok a t) (h : Ends f s Q E) : Q a t := by
  rwa [Ends, hf] at h

lemma of_error {x : ε} {t : σ} (hf : f s = .error x t) (h : Ends f s Q E) : E x t := by
  rwa [Ends, hf] at h

/-- A run that does not stop has a result. -/
lemma exists_ok (h : Ends f s Q fun _ _ => False) : ∃ a t, f s = .ok a t ∧ Q a t := by
  rw [Ends] at h
  cases hf : f s with
  | ok a t =>
    rw [hf] at h
    exact ⟨a, t, rfl, h⟩
  | error x t =>
    rw [hf] at h
    exact h.elim

lemma mono (h : Ends f s Q E) (hQ : ∀ a t, Q a t → Q' a t) (hE : ∀ x t, E x t → E' x t) :
    Ends f s Q' E' := by
  rw [Ends] at *
  split
  · rename_i a t hf
    rw [hf] at h
    exact hQ a t h
  · rename_i x t hf
    rw [hf] at h
    exact hE x t h

/-- Two statements about one run. -/
lemma and (h : Ends f s Q E) (h' : Ends f s Q' E') :
    Ends f s (fun a t => Q a t ∧ Q' a t) fun x t => E x t ∧ E' x t := by
  rw [Ends] at *
  cases hf : f s with
  | ok a t =>
    rw [hf] at h h'
    exact ⟨h, h'⟩
  | error x t =>
    rw [hf] at h h'
    exact ⟨h, h'⟩

lemma bind (hf : Ends f s Q E) (hg : ∀ a t, Q a t → Ends (g a) t R E) :
    Ends (f >>= g) s R E := by
  simp only [Ends, Bind.bind, EStateM.bind] at *
  cases h : f s with
  | ok a t =>
    rw [h] at hf
    exact hg a t hf
  | error x t =>
    rw [h] at hf
    exact hf

end Ends

/-- A run does what it does. -/
lemma ends_self (f : EStateM ε σ α) (s : σ) :
    Ends f s (fun a t => f s = .ok a t) fun x t => f s = .error x t := by
  rw [Ends]
  cases f s with
  | ok a t => rfl
  | error x t => rfl

lemma ends_pure {a : α} (h : Q a s) : Ends (pure a) s Q E := h

lemma ends_set {s' : σ} {Q : PUnit → σ → Prop} (h : Q ⟨⟩ s') :
    Ends (set s' : EStateM ε σ PUnit) s Q E := h

lemma ends_modify {k : σ → σ} {Q : PUnit → σ → Prop} (h : Q ⟨⟩ (k s)) :
    Ends (modify k : EStateM ε σ PUnit) s Q E := h

lemma ends_throw {x : ε} (h : E x s) : Ends (throw x : EStateM ε σ α) s Q E := h

/-! ### Reading and writing the state -/

lemma ends_bind_get {k : σ → EStateM ε σ β} (h : Ends (k s) s R E) :
    Ends (get >>= k) s R E := h

lemma ends_bind_set {s' : σ} {k : PUnit → EStateM ε σ β} (h : Ends (k ⟨⟩) s' R E) :
    Ends (set s' >>= k) s R E := h

lemma ends_bind_modify {k : σ → σ} {k' : PUnit → EStateM ε σ β} (h : Ends (k' ⟨⟩) (k s) R E) :
    Ends (modify k >>= k') s R E := h

/-- The result does not matter. -/
lemma ends_discard {Q : PUnit → σ → Prop} (h : Ends f s (fun _ t => Q ⟨⟩ t) E) :
    Ends (discard f) s Q E := by
  have hrun : discard f s = match f s with
      | .ok _ t => .ok ⟨⟩ t
      | .error x t => .error x t := rfl
  rw [Ends] at *
  rw [hrun]
  cases hf : f s with
  | ok a t =>
    rw [hf] at h
    exact h
  | error x t =>
    rw [hf] at h
    exact h

/-! ### Runs whose result is known -/

lemma bind_get {k : σ → EStateM ε σ β} : (get >>= k) s = k s s := rfl

lemma bind_set {s' : σ} {k : PUnit → EStateM ε σ β} : (set s' >>= k) s = k ⟨⟩ s' := rfl

lemma bind_modify {m : σ → σ} {k : PUnit → EStateM ε σ β} : (modify m >>= k) s = k ⟨⟩ (m s) := rfl

/-- A run goes on where its first part ended. -/
lemma bind_of_ok {a : α} {t : σ} (h : f s = .ok a t) : (f >>= g) s = g a t := by
  simp only [Bind.bind, EStateM.bind, h]

lemma discard_of_ok {a : α} {t : σ} (h : f s = .ok a t) : discard f s = .ok ⟨⟩ t := by
  have hrun : discard f s = match f s with
      | .ok _ t => .ok ⟨⟩ t
      | .error x t => .error x t := rfl
  rw [hrun, h]

end FiniteDomain
