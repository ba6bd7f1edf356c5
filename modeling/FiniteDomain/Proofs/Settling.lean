import Mathlib.Tactic
import FiniteDomain.Proofs.Filter
import FiniteDomain.Proofs.Store.Effects

/-!
Runs of propagators that come to an end.

What a propagator has reached at the end of a run depends on what its updates left, not on
the grounds for them.  Here the updates of a propagator are described by what they left, and
a run may stop at an inconsistency only, so that no loop uses up its rounds.

* `Filter.Settles`: a run that ends with a statement about what it reached, or stops at an
  inconsistency;
* `Filter.Settles.bind`: runs one after another;
* `Filter.settles_apply`, `Filter.settles_updateBounds`, `Filter.settles_restrictTo`,
  `Filter.settles_onMemory`: the steps of a propagator;
* `Filter.run_onStore`: an update that changes nothing.
-/

namespace FiniteDomain

namespace Filter

open Space

variable {p : PropId} {own : List SetId} {s t : Space} {α β : Type} {f : Filter α}
  {g : α → Filter β} {Q Q' : α → Space → Prop} {R : β → Space → Prop}

/-- The run ends, and `Q` holds then, or it stops at an inconsistency. -/
def Settles (p : PropId) (own : List SetId) (s : Space) (f : Filter α)
    (Q : α → Space → Prop) : Prop :=
  Ends f s (fun a t => Ran .any p own s t ∧ Q a t) fun x _ => ∃ i, x = .inconsistent i

lemma Settles.mono (h : Settles p own s f Q) (hQ : ∀ a t, Ran .any p own s t → Q a t → Q' a t) :
    Settles p own s f Q' :=
  Ends.mono h (fun a t ht => ⟨ht.1, hQ a t ht.1 ht.2⟩) fun _ _ h => h

lemma Settles.bind (h : Settles p own s f Q)
    (hg : ∀ a t, Ran .any p own s t → Q a t → Settles p own t (g a) R) :
    Settles p own s (f >>= g) R := by
  refine Ends.bind h fun a t ht => Ends.mono (hg a t ht.1 ht.2) (fun b u hu => ?_) fun _ _ h => h
  exact ⟨ht.1.trans hu.1, hu.2⟩

/-- A call that is the run of another one from a space that it may lead to. -/
lemma Settles.of_eq {g : Filter α} (hrun : f s = g t) (hran : Ran .any p own s t)
    (h : Settles p own t g Q) : Settles p own s f Q := by
  rw [Settles, Ends, hrun]
  exact Ends.mono h (fun a u hu => ⟨hran.trans hu.1, hu.2⟩) fun _ _ h => h

lemma settles_pure {a : α} (w : s.WellFormed) (h : Q a s) : Settles p own s (pure a) Q :=
  ends_pure ⟨.refl w, h⟩

lemma settles_discard {Q : Space → Prop} (h : Settles p own s f fun _ t => Q t) :
    Settles p own s (discard f) fun _ t => Q t :=
  ends_discard h

/-! ### Looking at the space -/

lemma settles_store {g : Store → Filter β} (h : Settles p own s (g s.store) R) :
    Settles p own s (Filter.store >>= g) R := h

lemma settles_memory {g : Memory → Filter β} (h : Settles p own s (g s.memory) R) :
    Settles p own s (Filter.memory >>= g) R := h

lemma settles_get {g : Space → Filter β} (h : Settles p own s (g s) R) :
    Settles p own s (get >>= g) R := h

/-! ### Changes -/

/-- A change of the store, as a step of a propagator. -/
lemma settles_onStore (w : s.WellFormed) {change : Store.Change} {v : VarId}
    {Q : Store → Prop} {E : Inconsistency → Store → Prop}
    (h : Ends change s.store (fun b t => Store.Touched (some p) v s.store t b ∧ Q t) E) :
    Settles p own s (onStore change) fun b t =>
      t.memory = s.memory ∧ Store.Touched (some p) v s.store t.store b ∧ Q t.store := by
  simp only [Settles, Ends, onStore] at *
  cases hc : change s.store with
  | ok b t =>
    rw [hc] at h
    exact ⟨⟨h.1.narrowing, .refl w.memory⟩, rfl, h⟩
  | error i t => exact ⟨i, rfl⟩

variable {v : VarId} {op : Operation}

lemma settles_apply (w : s.WellFormed) (hv : s.store.has v = true) :
    Settles p own s (apply p v op) fun b t =>
      t.memory = s.memory ∧ Store.Touched (some p) v s.store t.store b ∧
        ∀ x, x ∈ t.store.domain v ↔ x ∈ s.store.domain v ∧ op.Holds x :=
  settles_onStore w (Store.ends_apply w.store hv)

/-- A request whose answer is not looked at. -/
lemma settles_discard_apply (w : s.WellFormed) (hv : s.store.has v = true) :
    Settles p own s (discard (apply p v op)) fun _ t =>
      t.memory = s.memory ∧
        (∀ u, s.store.root u ≠ s.store.root v → t.store.domain u = s.store.domain u) ∧
          ∀ x, x ∈ t.store.domain v ↔ x ∈ s.store.domain v ∧ op.Holds x :=
  settles_discard ((settles_apply w hv).mono fun _ _ _ h => ⟨h.1, h.2.1.frame, h.2.2⟩)

lemma settles_updateBounds (w : s.WellFormed) (hv : s.store.has v = true) (lo hi : Int) :
    Settles p own s (updateBounds p v lo hi) fun b t =>
      t.memory = s.memory ∧ Store.Touched (some p) v s.store t.store b ∧
        ∀ x, x ∈ t.store.domain v ↔ x ∈ s.store.domain v ∧ lo ≤ x ∧ x ≤ hi :=
  settles_onStore w (Store.ends_updateBounds w.store hv lo hi)

/-- Bounds whose answer is not looked at. -/
lemma settles_discard_updateBounds (w : s.WellFormed) (hv : s.store.has v = true) (lo hi : Int) :
    Settles p own s (discard (updateBounds p v lo hi)) fun _ t =>
      t.memory = s.memory ∧ (∃ b, Store.Touched (some p) v s.store t.store b) ∧
        ∀ x, x ∈ t.store.domain v ↔ x ∈ s.store.domain v ∧ lo ≤ x ∧ x ≤ hi :=
  settles_discard ((settles_updateBounds w hv lo hi).mono fun b _ _ h => ⟨h.1, ⟨b, h.2.1⟩, h.2.2⟩)

lemma settles_restrictTo (w : s.WellFormed) (hv : s.store.has v = true) (allowed : IntervalSet) :
    Settles p own s (restrictTo p v allowed) fun b t =>
      t.memory = s.memory ∧ Store.Touched (some p) v s.store t.store b ∧
        Store.Restricted allowed v s.store t.store :=
  settles_onStore w (Store.ends_restrictTo w.store hv allowed)

/-- A change of what the propagator owns. -/
lemma settles_onMemory {f : Memory → Memory} (h : Memory.Kept p own s.memory (f s.memory)) :
    Settles p own s (onMemory f) fun _ t => t.store = s.store ∧ t.memory = f s.memory :=
  ends_modify ⟨⟨.refl, h⟩, rfl, rfl⟩

lemma settles_setPassive (w : s.WellFormed) (hp : p.index < s.memory.activities.size) :
    Settles p own s (setPassive p) fun _ t =>
      t.store = s.store ∧ t.memory.activity p = .passive :=
  (settles_onMemory (.setActivity (a := .passive) w.memory hp nofun)).mono fun _ _ _ h => by
    refine ⟨h.1, ?_⟩
    rw [h.2, Memory.activity_setActivity hp, if_pos rfl]

/-! ### Runs that change nothing -/

lemma run_onStore {change : Store.Change} {b : Bool} (h : change s.store = .ok b s.store) :
    onStore change s = .ok b s := by
  rw [onStore, h]

end Filter

end FiniteDomain
