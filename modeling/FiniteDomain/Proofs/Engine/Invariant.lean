import Mathlib.Tactic
import FiniteDomain.Engine.Backtracking
import FiniteDomain.Engine.Creation
import FiniteDomain.Engine.Propagation
import FiniteDomain.Proofs.Engine.Consistent
import FiniteDomain.Proofs.Store.Continuation

/-!
The invariant of the engine.

* `Engine.Invariant`: the space is consistent, an engine that has not failed can call
  all its propagators, and one that has failed remembers the refused request, unless
  an observer made it fail;
* `Engine.Alike`: engines that differ in their accounts and in what waits, with
  `Engine.alike_notify` and others for the steps that change no more than that;
* `Engine.Follows`: what an engine keeps of an earlier one.
-/

namespace FiniteDomain

namespace Engine

variable {e e' e'' : Engine} {p : PropId}

/-- What holds of the engine between calls. -/
structure Invariant (e : Engine) : Prop where
  consistent : e.space.Consistent e.propagators
  ready : e.conflict = none → e.space.Ready e.propagators
  failed : e.conflict.isSome = true → (∀ q ∈ e.propagators, ¬ q.IsObserver) →
    e.store.failure.isSome = true

lemma propagator?_eq : e.propagator? p = e.propagators[p.index]? := by
  simp [propagator?, propagators]

lemma length_propagators : e.propagators.length = e.slots.size := by
  simp [propagators]

/-- An engine to which nothing has happened. -/
lemma invariant_empty (strategy : Strategy) : Invariant { strategy := strategy } where
  consistent := by
    refine ⟨Store.wellFormed_empty, Memory.wellFormed_empty, rfl, rfl, nofun, nofun, .nil,
      fun p u hu => ?_, nofun, fun level hl => ?_⟩
    · simp at hu
    · exact absurd hl (Nat.not_lt_zero level)
  ready _ := ⟨rfl, fun i q hq => by simp [propagators] at hq⟩
  failed h := by cases h

/-! ### Accounts -/

/-- The engines have the same propagators, domains and memory, and the same state. -/
structure Alike (e e' : Engine) : Prop where
  propagators : e'.propagators = e.propagators
  vars : e'.store.vars = e.store.vars
  trail : e'.store.trail = e.store.trail
  failure : e'.store.failure = e.store.failure
  memory : e'.memory = e.memory
  conflict : e'.conflict = e.conflict
  infeasible : e'.infeasible = e.infeasible

lemma Alike.refl (e : Engine) : Alike e e := ⟨rfl, rfl, rfl, rfl, rfl, rfl, rfl⟩

lemma Alike.trans (h : Alike e e') (h' : Alike e' e'') : Alike e e'' where
  propagators := h'.propagators.trans h.propagators
  vars := h'.vars.trans h.vars
  trail := h'.trail.trans h.trail
  failure := h'.failure.trans h.failure
  memory := h'.memory.trans h.memory
  conflict := h'.conflict.trans h.conflict
  infeasible := h'.infeasible.trans h.infeasible

lemma Alike.consistent (h : Alike e e') (hc : e.space.Consistent e.propagators) :
    e'.space.Consistent e'.propagators := by
  rw [h.propagators]
  exact hc.congr h.vars h.trail h.failure h.memory

lemma Alike.domain (h : Alike e e') : e'.store.domain = e.store.domain := by
  have hvars := h.vars
  cases hs : e.store
  cases hs' : e'.store
  rw [hs, hs'] at hvars
  cases hvars
  rfl

lemma Alike.root (h : Alike e e') : e'.store.root = e.store.root := by
  have hvars := h.vars
  cases hs : e.store
  cases hs' : e'.store
  rw [hs, hs'] at hvars
  cases hvars
  rfl

lemma Alike.ready (h : Alike e e') (hr : e.space.Ready e.propagators) :
    e'.space.Ready e'.propagators := by
  rw [h.propagators]
  exact hr.congr h.vars h.failure h.memory

lemma Alike.invariant (h : Alike e e') (inv : e.Invariant) : e'.Invariant where
  consistent := h.consistent inv.consistent
  ready hnone := h.ready (inv.ready (h.conflict ▸ hnone))
  failed hsome hobs := by
    rw [h.conflict] at hsome
    rw [h.propagators] at hobs
    rw [h.failure]
    exact inv.failed hsome hobs

lemma alike_foldl {α : Type} {f : Engine → α → Engine} (h : ∀ e a, Alike e (f e a))
    (as : List α) (e : Engine) : Alike e (as.foldl f e) := by
  induction as generalizing e with
  | nil => exact .refl e
  | cons a as ih => exact (h e a).trans (ih _)

lemma alike_note (e : Engine) (n : Note) : Alike e (e.note n) :=
  ⟨rfl, rfl, rfl, rfl, rfl, rfl, rfl⟩

lemma alike_count (e : Engine) (f : Counters → Counters) : Alike e (e.count f) :=
  ⟨rfl, rfl, rfl, rfl, rfl, rfl, rfl⟩

lemma alike_phase (e : Engine) (phase : Phase) : Alike e { e with phase := phase } :=
  ⟨rfl, rfl, rfl, rfl, rfl, rfl, rfl⟩

lemma alike_alerted (e : Engine) (p : PropId) (q : Propagator) (index : Nat) (events : EventSet) :
    Alike e (e.alerted p q index events) := ⟨rfl, rfl, rfl, rfl, rfl, rfl, rfl⟩

lemma alike_clearRaised (e : Engine) : Alike e e.clearRaised := ⟨rfl, rfl, rfl, rfl, rfl, rfl, rfl⟩

lemma propagators_clearPending (e : Engine) : e.clearPending.propagators = e.propagators := by
  simp [propagators, clearPending]

/-- A slot keeps its propagator. -/
lemma propagators_setSlot {slot slot' : Slot} {i : Nat} (h : e.slots[i]? = some slot)
    (hq : slot'.propagator = slot.propagator) :
    (e.slots.setIfInBounds i slot').toList.map Slot.propagator = e.propagators := by
  refine List.ext_getElem? fun j => ?_
  simp only [propagators, List.getElem?_map, Array.getElem?_toList,
    Array.getElem?_setIfInBounds]
  split
  · rename_i hij
    subst hij
    rw [h, if_pos (Array.getElem?_eq_some_iff.1 h).1]
    exact congrArg some hq
  · rfl

lemma alike_tell (cause : Option PropId) (v : VarId) (events : EventSet) (e : Engine)
    (p : PropId) : Alike e (tell cause v events e p) := by
  rw [tell]
  split
  · exact .refl e
  · rename_i slot hslot
    dsimp only
    split
    · exact .refl e
    · exact ⟨propagators_setSlot hslot rfl, rfl, rfl, rfl, rfl, rfl, rfl⟩

lemma alike_notify (cause : Option PropId) (e : Engine) : Alike e (e.notify cause) := by
  refine (alike_clearRaised e).trans (alike_foldl (fun e raised => ?_) _ _)
  rw [notifyOne]
  exact ((alike_note e _).trans (alike_count _ _)).trans
    (alike_foldl (f := tell cause raised.1 raised.2) (alike_tell cause raised.1 raised.2) _ _)

/-- An engine that fails keeps everything but its state. -/
lemma alike_fail (e : Engine) (i : Inconsistency) :
    Alike { e with conflict := some i } (e.fail i) :=
  ⟨propagators_clearPending e, rfl, rfl, rfl, rfl, rfl, rfl⟩

lemma alike_requeue (e : Engine) (p : PropId) : Alike e (e.requeue p) := by
  rw [requeue]
  split
  · split
    · exact ⟨rfl, rfl, rfl, rfl, rfl, rfl, rfl⟩
    · exact .refl e
  · exact .refl e

/-! ### Engines in the course of time -/

/-- The later engine has the propagators of the earlier one, and what its store has to
keep. -/
structure Follows (e e' : Engine) : Prop where
  store : e.store.Continues e'.store
  propagators : e'.propagators = e.propagators

lemma Follows.refl (e : Engine) : Follows e e := ⟨.refl _, rfl⟩

lemma Follows.trans (h : Follows e e') (h' : Follows e' e'') : Follows e e'' :=
  ⟨h.store.trans h'.store, h'.propagators.trans h.propagators⟩

lemma Alike.follows (h : Alike e e') : Follows e e' :=
  ⟨Store.continues_of_eq h.vars h.trail, h.propagators⟩

end Engine

end FiniteDomain
