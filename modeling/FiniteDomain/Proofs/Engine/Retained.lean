import Mathlib.Tactic
import FiniteDomain.Proofs.Engine.Intact
import FiniteDomain.Proofs.Store.Retained

/-!
What an engine gets back.

Domains and the memory of the propagators have trails of their own, with checkpoints at the same
levels.  Whatever the engine does above a checkpoint, either trail leads back to it.

* `Engine.Retains`: what the engine knows of the one at which a checkpoint was taken;
* `Engine.Stays`: what is done above all checkpoints, with `Engine.Trims.stays` for propagators
  and decisions and `Engine.Moves.stays` for all other calls;
* `Engine.retains_marked`, `Engine.Retains.marked`, `Engine.Retains.goBack`: checkpoints that are
  taken and left;
* `Engine.Recovered`: all that comes back with the checkpoint, with `Engine.Retains.recovered`.
-/

namespace FiniteDomain

namespace Engine

variable {base e e' e'' : Engine} {q : Propagator} {m : Memory} {level n : Nat}

/-- Back at the level of a checkpoint, domains and memory are those of the engine `base`. -/
structure Retains (base : Engine) (level : Nat) (e : Engine) : Prop where
  store : base.store.Retains level e.store
  memory : base.memory.Agrees (e.memory.restore level)
  size : base.slots.size ≤ e.slots.size

/-- The engine at which a checkpoint is taken. -/
lemma retains_marked (h : e.Intact) : e.Retains e.level e.marked := by
  refine ⟨Store.retains_mark h.store, ?_, le_rfl⟩
  have hlevel : e.level = e.memory.trail.level := h.level.symm
  change e.memory.Agrees (e.memory.mark.restore e.level)
  rw [hlevel, Memory.restore_mark le_rfl, Memory.restore_level]
  exact .refl _

/-! ### Above all checkpoints -/

/-- What is done above all checkpoints. -/
structure Stays (e e' : Engine) : Prop where
  intact : e'.Intact
  level : e'.level = e.level
  retains : ∀ base level, Retains base level e → Retains base level e'

lemma Stays.refl (h : e.Intact) : Stays e e := ⟨h, rfl, fun _ _ => id⟩

lemma Stays.trans (h : Stays e e') (h' : Stays e' e'') : Stays e e'' :=
  ⟨h'.intact, h'.level.trans h.level, fun base level hb =>
    h'.retains base level (h.retains base level hb)⟩

/-- Neither calls of propagators nor decisions reach below a checkpoint. -/
lemma Trims.stays (h : Trims e e') (w : e.Intact) : Stays e e' := by
  refine ⟨h.intact, h.level, fun base level hb => ⟨hb.store.shrinks h.store, ?_, ?_⟩⟩
  · exact hb.memory.trans (h.memory.restore level (w.level ▸ hb.store.above))
  · exact hb.size.trans_eq (size_eq_of_propagators h.propagators).symm

lemma stays_accept (w : e.Intact) {c : Constraint} (hmakes : c.Makes e.memory q m)
    (hunknown : e.unknown? q = none) : Stays e (e.accept q m) := by
  have hgrows := hmakes.grows.trans (Memory.grows_addActivity hmakes.grows.wellFormed)
  have hsize : (e.accept q m).slots.size = e.slots.size + 1 := Array.size_push _
  refine ⟨w.accept hmakes hunknown, rfl, fun base level hb => ⟨hb.store, ?_, ?_⟩⟩
  · exact hb.memory.trans (hgrows.restore level)
  · rw [hsize]
    exact hb.size.trans (Nat.le_succ _)

/-- Moves do not reach below a checkpoint. -/
lemma Move.stays (hmove : Move e e') (w : e.Intact) : Stays e e' := by
  cases hmove with
  | account ha =>
    obtain ⟨_, _, _, _, _, rfl⟩ := ha.exists_eq
    exact ⟨⟨w.store, w.memory, w.level, w.size, w.scope, w.agenda, w.awaits⟩, rfl,
      fun base level hb => ⟨hb.store, hb.memory, hb.size⟩⟩
  | newRoot hd hr =>
    exact ⟨w.extend (w.store.addRoot hd hr) (Store.extends_addRoot _ _) rfl, rfl,
      fun base level hb => ⟨hb.store.addRoot _, hb.memory, hb.size⟩⟩
  | newView hv hneg =>
    exact ⟨w.extend (w.store.addView hv hneg) (Store.extends_addView _ _) rfl, rfl,
      fun base level hb => ⟨hb.store.addView _, hb.memory, hb.size⟩⟩
  | accept _ _ hmade _ hunknown =>
    exact stays_accept w (Constraint.makes_propagator w.memory hmade) hunknown
  | propagate hrun => exact (trims_propagate w hrun).stays w

lemma Moves.stays (h : Moves e e') (w : e.Intact) : Stays e e' :=
  h.induct (P := Stays e) (fun _ _ hmove hs => hs.trans (hmove.stays hs.intact)) (.refl w)

/-! ### Checkpoints -/

/-- Another checkpoint lies above. -/
lemma Retains.marked (hb : base.Retains level e) (w : e.Intact) : base.Retains level e.marked := by
  refine ⟨hb.store.mark, ?_, hb.size⟩
  have hle : level ≤ e.memory.trail.level := w.level ▸ hb.store.above.le
  change base.memory.Agrees (e.memory.mark.restore level)
  rw [Memory.restore_mark hle]
  exact hb.memory

/-- Going back to a later checkpoint. -/
lemma Retains.goBack (hb : base.Retains level e) (w : e.Intact) (hn : level < n) :
    base.Retains level (e.goBack n) := by
  refine ⟨?_, ?_, hb.size.trans_eq (size_goBack e n).symm⟩
  · rw [store_goBack]
    exact hb.store.restore w.store hn
  · rw [memory_goBack, Memory.restore_restore w.memory hn.le]
    exact hb.memory

/-! ### What comes back -/

/-- The engine `e` has got back all that the engine `base` had when its checkpoint was taken, and
what came later is as if it were new. -/
structure Recovered (base e : Engine) : Prop where
  store : base.store.Recovered e.store
  activity : ∀ p : PropId, p.index < base.slots.size → e.memory.activity p = base.memory.activity p
  contains : ∀ i : SetId, i.index < base.memory.sets.size → ∀ k,
    (e.memory.set i).contains k = (base.memory.set i).contains k
  inactive : ∀ p : PropId, base.slots.size ≤ p.index → e.memory.activity p = .inactive
  empty : ∀ i : SetId, base.memory.sets.size ≤ i.index → ∀ k,
    (e.memory.set i).contains k = false
  level : e.level = base.level
  phase : e.phase = .idle
  conflict : e.conflict = none
  pending : ∀ slot ∈ e.slots, slot.pending = []
  waits : ∀ p : PropId, e.agenda.contains p = true ↔
    base.slots.size ≤ p.index ∧ p.index < e.slots.size
  agenda : e.agenda.WellFormed

/-- Going back to a checkpoint, which was taken when no propagator waited. -/
lemma Retains.recovered (hb : base.Retains level e) (wb : base.Intact) (w : e.Intact)
    (hlevel : base.level = level) (hnone : base.conflict = none)
    (hempty : base.agenda.isEmpty = true) : base.Recovered (e.goBack level) := by
  have hmemory := memory_goBack e level
  have hunused : ∀ p : PropId, base.slots.size ≤ p.index → base.memory.activity p = .inactive :=
    fun p hp => Memory.activity_of_size_le (wb.size.trans_le hp)
  have hcalled : ∀ p : PropId, p.index < base.slots.size → base.memory.activity p ≠ .inactive := by
    intro p hp hact
    have hwaits := wb.awaits hnone p hp hact
    exact Agenda.not_contains_of_isEmpty hempty hwaits
  have hstore : base.store.Recovered (e.goBack level).store := by
    rw [store_goBack]
    exact hb.store.recovered wb.store w.store
  refine ⟨hstore, fun p _ => ?_, fun i _ k => ?_, fun p hp => ?_, fun i hi k => ?_, ?_,
    phase_goBack e level, (alike_goBack e level).conflict, fun slot hslot => ?_, fun p => ?_, ?_⟩
  · rw [hmemory, hb.memory.activity]
  · rw [hmemory, hb.memory.contains]
  · rw [hmemory, hb.memory.activity, hunused p hp]
  · rw [hmemory, hb.memory.contains, Memory.set_of_size_le hi, SparseSet.contains_empty]
  · rw [level_goBack hb.store.above, hlevel]
  · rw [slots_goBack, clearPending] at hslot
    obtain ⟨slot, -, rfl⟩ := Array.mem_map.1 hslot
    rfl
  · rw [contains_goBack, size_goBack, hb.memory.activity, and_comm]
    refine and_congr_left fun _ => ⟨fun hact => ?_, hunused p⟩
    exact Nat.not_lt.1 fun hlt => hcalled p hlt hact
  · exact (w.goBack level).agenda

end Engine

end FiniteDomain
