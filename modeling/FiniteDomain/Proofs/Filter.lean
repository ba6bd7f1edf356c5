import Mathlib.Tactic
import FiniteDomain.Proofs.Memory
import FiniteDomain.Proofs.Store.Narrowing
import FiniteDomain.Space

/-!
Runs of propagators.

A propagator narrows domains on grounds of its own, and changes its own activity and
the sets it owns.

* `Space.Ran`, `Space.Stopped`: what a run did up to its end, and up to the point
  where it stopped;
* `Filter.Yields`: a run that does no more than that, with a statement about its end;
* `Filter.Yields.bind`: runs one after another;
* `Filter.yields_apply`, `Filter.yields_updateBounds`, `Filter.yields_restrictTo`,
  `Filter.yields_onMemory`: the steps of a propagator.
-/

namespace FiniteDomain

namespace Space

variable {J : Grounds} {p : PropId} {own : List SetId} {s t u : Space}

/-- Store and memory are well-formed. -/
structure WellFormed (s : Space) : Prop where
  store : s.store.WellFormed
  memory : s.memory.WellFormed

/-- What the run of a propagator did. -/
structure Ran (J : Grounds) (p : PropId) (own : List SetId) (s t : Space) : Prop where
  store : Store.Narrowing J (some p) s.store t.store
  memory : Memory.Kept p own s.memory t.memory

/-- What the run of a propagator did before it stopped.  Only propagators without
sets have loops that are given a number of rounds. -/
def Stopped (J : Grounds) (p : PropId) (own : List SetId) (s : Space) : Stop → Space → Prop
  | .inconsistent _, t =>
    Store.Refused J (some p) s.store t.store ∧ Memory.Kept p own s.memory t.memory
  | .exhausted, t => own = [] ∧ Ran J p own s t

lemma Ran.refl (w : s.WellFormed) : Ran J p own s s := ⟨.refl, .refl w.memory⟩

lemma Ran.trans (h : Ran J p own s t) (h' : Ran J p own t u) : Ran J p own s u :=
  ⟨h.store.trans h'.store, h.memory.trans h'.memory⟩

lemma Ran.stopped (h : Ran J p own s t) {x : Stop} (h' : Stopped J p own t x u) :
    Stopped J p own s x u := by
  cases x with
  | inconsistent i => exact ⟨h.store.refused h'.1, h.memory.trans h'.2⟩
  | exhausted => exact ⟨h'.1, h.trans h'.2⟩

lemma Ran.shrinks (h : Ran J p own s t) (w : s.WellFormed) : s.store.Shrinks t.store :=
  h.store.shrinks w.store

lemma Ran.wellFormed (h : Ran J p own s t) (w : s.WellFormed) : t.WellFormed :=
  ⟨(h.shrinks w).wellFormed, h.memory.wellFormed⟩

lemma Ran.has (h : Ran J p own s t) (w : s.WellFormed) {v : VarId}
    (hv : s.store.has v = true) : t.store.has v = true := by
  rw [(h.shrinks w).has]
  exact hv

end Space

namespace Filter

open Space

variable {J : Grounds} {p : PropId} {own : List SetId} {s : Space} {α β : Type}
  {f : Filter α} {g : α → Filter β} {Q Q' : α → Space → Prop} {R : β → Space → Prop}

/-- The run does what a propagator may do, and `Q` holds at its end. -/
def Yields (J : Grounds) (p : PropId) (own : List SetId) (s : Space) (f : Filter α)
    (Q : α → Space → Prop) : Prop :=
  Ends f s (fun a t => Ran J p own s t ∧ Q a t) (Stopped J p own s)

/-- A run keeps the variables, and takes values away only. -/
lemma mem_of_ran {t : Space} {vs : List VarId} (w : s.WellFormed)
    (hvs : ∀ v ∈ vs, s.store.has v = true) (h : Ran J p own s t) :
    t.WellFormed ∧ (∀ v ∈ vs, t.store.has v = true) ∧
      ∀ u, ∀ x, x ∈ t.store.domain u → x ∈ s.store.domain u :=
  ⟨h.wellFormed w, fun v hv => h.has w (hvs v hv), (h.shrinks w).domain⟩

lemma Yields.mono (h : Yields J p own s f Q) (hQ : ∀ a t, Ran J p own s t → Q a t → Q' a t) :
    Yields J p own s f Q' :=
  Ends.mono h (fun a t ht => ⟨ht.1, hQ a t ht.1 ht.2⟩) fun _ _ h => h

/-- Weaker grounds are grounds for the same run. -/
lemma Yields.weaken {J' : Grounds} (h : Yields J p own s f Q)
    (hJ : ∀ dom v op, J dom v op → J' dom v op) : Yields J' p own s f Q := by
  refine Ends.mono h (fun a t ht => ⟨⟨ht.1.store.mono hJ, ht.1.memory⟩, ht.2⟩) fun x t ht => ?_
  cases x with
  | inconsistent i => exact ⟨ht.1.mono hJ, ht.2⟩
  | exhausted => exact ⟨ht.1, ht.2.store.mono hJ, ht.2.memory⟩

lemma Yields.bind (h : Yields J p own s f Q)
    (hg : ∀ a t, Ran J p own s t → Q a t → Yields J p own t (g a) R) :
    Yields J p own s (f >>= g) R := by
  refine Ends.bind h fun a t ht => ?_
  refine Ends.mono (hg a t ht.1 ht.2) (fun b u hu => ?_) fun x u hu => ?_
  · exact ⟨ht.1.trans hu.1, hu.2⟩
  · exact ht.1.stopped hu

lemma yields_pure {a : α} (w : s.WellFormed) (h : Q a s) : Yields J p own s (pure a) Q :=
  ends_pure ⟨.refl w, h⟩

lemma yields_discard {Q : Space → Prop} (h : Yields J p own s f fun _ t => Q t) :
    Yields J p own s (discard f) fun _ t => Q t :=
  ends_discard h

lemma yields_exhausted (w : s.WellFormed) (hown : own = []) :
    Yields J p own s (throw .exhausted) Q :=
  ends_throw ⟨hown, .refl w⟩

/-- A call that is the run of another one from a space that it may lead to. -/
lemma Yields.of_eq {t : Space} {g : Filter α} (hrun : f s = g t) (hran : Ran J p own s t)
    (h : Yields J p own t g Q) : Yields J p own s f Q := by
  rw [Yields, Ends, hrun]
  exact Ends.mono h (fun a u hu => ⟨hran.trans hu.1, hu.2⟩) fun x u hu => hran.stopped hu

/-! ### Looking at the space -/

/-- What is read is that of the space. -/
lemma memory_bind (f : Memory → Filter α) : (memory >>= f) s = f s.memory s := rfl

lemma store_bind (f : Store → Filter α) : (Filter.store >>= f) s = f s.store s := rfl

lemma onMemory_bind (f : Memory → Memory) (g : Unit → Filter α) :
    (onMemory f >>= g) s = g () { s with memory := f s.memory } := rfl

lemma yields_store {g : Store → Filter β} (h : Yields J p own s (g s.store) R) :
    Yields J p own s (Filter.store >>= g) R := h

lemma yields_memory {g : Memory → Filter β} (h : Yields J p own s (g s.memory) R) :
    Yields J p own s (Filter.memory >>= g) R := h

lemma yields_get {g : Space → Filter β} (h : Yields J p own s (g s) R) :
    Yields J p own s (get >>= g) R := h

/-! ### Changes -/

/-- A change of the store, as a step of a propagator. -/
lemma yields_onStore (w : s.WellFormed) {change : Store.Change} {Q : Store → Prop}
    (h : Store.Yields J (some p) s.store change Q) :
    Yields J p own s (onStore change) fun _ t => t.memory = s.memory ∧ Q t.store := by
  simp only [Yields, Ends, onStore, Store.Yields] at *
  cases hc : change s.store with
  | ok b t =>
    simp only [hc] at h
    exact ⟨⟨h.1, .refl w.memory⟩, rfl, h.2⟩
  | error i t =>
    simp only [hc] at h
    exact ⟨h, .refl w.memory⟩

variable {v : VarId} {op : Operation}

lemma yields_apply (w : s.WellFormed) (hv : s.store.has v = true)
    (hJ : (∃ x, x ∈ s.store.domain v ∧ ¬ op.Holds x) → J s.store.domain v op) :
    Yields J p own s (apply p v op) fun _ t =>
      t.memory = s.memory ∧ ∀ x, x ∈ t.store.domain v → op.Holds x :=
  yields_onStore w (Store.yields_apply w.store hv hJ)

lemma yields_updateBounds (w : s.WellFormed) (hv : s.store.has v = true) {lo hi : Int}
    (hle : lo ≤ hi)
    (hlo : ∀ t, Store.Narrowing J (some p) s.store t → (∃ x, x ∈ t.domain v ∧ x < lo) →
      J t.domain v (.atLeast lo))
    (hhi : ∀ t, Store.Narrowing J (some p) s.store t → (∃ x, x ∈ t.domain v ∧ hi < x) →
      J t.domain v (.atMost hi)) :
    Yields J p own s (updateBounds p v lo hi) fun _ t =>
      t.memory = s.memory ∧ ∀ x, x ∈ t.store.domain v → lo ≤ x ∧ x ≤ hi :=
  yields_onStore w (Store.yields_updateBounds w.store hv (fun _ => hle) hlo hhi
    fun hlt => absurd hle (Int.not_le.2 hlt))

lemma yields_restrictTo (w : s.WellFormed) (hv : s.store.has v = true) {allowed : IntervalSet}
    (hJ : ∀ t op, Store.Narrowing J (some p) s.store t →
      (∀ x, x ∈ t.domain v → x ∈ allowed → op.Holds x) → J t.domain v op) :
    Yields J p own s (restrictTo p v allowed) fun _ t => t.memory = s.memory :=
  (yields_onStore w (Store.yields_restrictTo w.store hv hJ)).mono fun _ _ _ h => h.1

/-- A change of what the propagator owns. -/
lemma yields_onMemory {f : Memory → Memory} (h : Memory.Kept p own s.memory (f s.memory)) :
    Yields J p own s (onMemory f) fun _ t =>
      t.store = s.store ∧ t.memory = f s.memory :=
  ends_modify ⟨⟨.refl, h⟩, rfl, rfl⟩

lemma yields_setPassive (w : s.WellFormed) (hp : p.index < s.memory.activities.size) :
    Yields J p own s (setPassive p) fun _ t => t.store = s.store :=
  (yields_onMemory (.setActivity (a := .passive) w.memory hp nofun)).mono fun _ _ _ h => h.1

end Filter

end FiniteDomain
