import Mathlib.Tactic
import FiniteDomain.Proofs.Propagator.CountArithmetic
import FiniteDomain.Proofs.Session.Ending
import FiniteDomain.Proofs.Session.Fixpoints
import FiniteDomain.Proofs.Store.Arithmetic

/-!
Nothing overflows.

Sets of values and stores compute with words whatever is asked of them.  A count does so if its two
sets have room for one number for each of its places, and no more.  This room is set aside when the
constraint is posted.  It stays as it is whatever the engine does, wherever it goes back to.

* `Engine.Roomy`: the sets of all counts are there and have the right room, with
  `Session.Arises.roomy`: this is so in all sessions;
* `Engine.Calls`: the calls of one turn of propagation;
* `Engine.Computes`: an engine in whose next turn nothing overflows, with `Engine.Tidy.computes`;
* `Session.arithmetic_fits`: sets, stores and all turns of propagation compute with words.
-/

namespace FiniteDomain

namespace Engine

variable {e e' : Engine} {p : PropId} {q : Propagator}

/-! ### The sets of the counts -/

/-- The sets of each count are in the memory, with room for its places. -/
def Roomy (e : Engine) : Prop :=
  ∀ c sets, Propagator.count c sets ∈ e.propagators →
    c.Owns sets e.memory ∧ ∀ i ∈ sets.own, i.index < e.memory.sets.size

/-- Sets may change as long as none is dropped or gets more room. -/
lemma Roomy.of_eq (h : e.Roomy) (hpropagators : e'.propagators = e.propagators)
    (hsize : e'.memory.sets.size = e.memory.sets.size)
    (hcapacity : ∀ i, (e'.memory.set i).capacity = (e.memory.set i).capacity) : e'.Roomy := by
  intro c sets hc
  obtain ⟨hown, hlt⟩ := h c sets (hpropagators ▸ hc)
  exact ⟨⟨hown.ne, (hcapacity _).trans hown.possible, (hcapacity _).trans hown.certain⟩,
    fun i hi => hsize ▸ hlt i hi⟩

lemma Roomy.of_trims (h : e.Roomy) (ht : Trims e e') : e'.Roomy :=
  h.of_eq ht.propagators ht.memory.size_sets ht.memory.capacity

/-- The room of a new count is set aside, and that of the others is left alone. -/
lemma Roomy.accept (h : e.Roomy) {c : Constraint} {m : Memory} (hmakes : c.Makes e.memory q m)
    (hfits : c.Fits) (hunknown : e.unknown? q = none) : (e.accept q m).Roomy := by
  intro d sets hd
  have hpropagators : (e.accept q m).propagators = e.propagators ++ [q] := by
    simp [propagators, Engine.accept]
  rw [hpropagators, List.mem_append, List.mem_singleton] at hd
  rcases hd with hold | rfl
  · obtain ⟨hown, hlt⟩ := h d sets hold
    have hset : ∀ i ∈ sets.own, m.set i = e.memory.set i := fun i hi =>
      hmakes.grows.set i (hlt i hi)
    refine ⟨⟨hown.ne, ?_, ?_⟩, fun i hi => (hlt i hi).trans_le hmakes.grows.size_sets⟩
    · exact (congrArg SparseSet.capacity (hset _ Count.possible_mem_own)).trans hown.possible
    · exact (congrArg SparseSet.capacity (hset _ Count.certain_mem_own)).trans hown.certain
  · obtain ⟨-, -, hown⟩ := hmakes.fits e.store hfits (has_of_unknown?_eq_none hunknown)
    exact ⟨⟨hown.ne, hown.possible, hown.certain⟩, fun i hi => (hmakes.own i hi).2⟩

lemma Roomy.goBack (h : e.Roomy) (level : Nat) : (e.goBack level).Roomy := by
  have hpropagators := (alike_goBack e level).propagators.trans (propagators_rewound e level)
  refine h.of_eq hpropagators ?_ fun i => ?_
  · rw [memory_goBack, (Memory.size_restore _ _).2]
  · rw [memory_goBack, Memory.capacity_restore]

lemma Move.roomy (hmove : Move e e') (w : e.Intact) (h : e.Roomy) : e'.Roomy := by
  cases hmove with
  | account ha =>
    have hmemory := congrArg Space.memory ha.space
    exact h.of_eq ha.propagators (congrArg (·.sets.size) hmemory)
      fun i => congrArg (fun m => (m.set i).capacity) hmemory
  | newRoot => exact h.of_eq rfl rfl fun _ => rfl
  | newView => exact h.of_eq rfl rfl fun _ => rfl
  | accept _ hfits hmade _ hunknown =>
    exact h.accept (Constraint.makes_propagator w.memory hmade) hfits hunknown
  | propagate hrun => exact h.of_trims (trims_propagate w hrun)

/-! ### The calls of one turn -/

/-- The engine right before a call of the propagator, if the next turn of propagation has such a
call: from scratch, or for an event after those before it. -/
inductive Calls (e : Engine) (p : PropId) : Engine → Prop
  | scratch {a : Agenda} {slot : Slot} (hpop : e.agenda.pop = some (p, a))
    (hslot : e.slots[p.index]? = some slot) :
    Calls e p ((e.taken a p slot).activated p slot.propagator)
  | event {a : Agenda} {slot : Slot} {before after : Assoc Nat EventSet} {index : Nat}
    {events : EventSet} {e₁ : Engine} (hpop : e.agenda.pop = some (p, a))
    (hslot : e.slots[p.index]? = some slot) (hact : e.memory.activity p = .active)
    (hpending : slot.pending = before ++ (index, events) :: after)
    (hrun : deliver p slot.propagator before (e.taken a p slot) = .ok () e₁) :
    Calls e p (e₁.alerted p slot.propagator index events)

lemma Calls.trims (hcalls : e.Calls p e') (h : e.Tidy) : Trims e e' := by
  cases hcalls with
  | scratch hpop hslot => exact (eases_activated h hpop hslot).trims
  | @event a slot before after index events e₁ hpop hslot hact hpending hrun =>
    have htaken := eases_taken h hpop hslot fun hne => Activity.noConfusion (hact.symm.trans hne)
    have hq := htaken.trims.propagators ▸ propagator_of_slot hslot
    have heases := Ends.of_ok hrun ((easing_deliver htaken.tidy hq before).after htaken)
    exact heases.trims.trans (heases.trims.intact.trims_of_alike
      (alike_alerted e₁ p slot.propagator index events) id fun _ => id)

/-- Nothing overflows in the next turn of propagation: not in the store, wherever the propagator
that is called has got to, and not in the call of a count. -/
structure Computes (e : Engine) : Prop where
  store : e.store.Computes
  calls : ∀ p e', e.Calls p e' → ∀ own t, Space.Ran .any p own e'.space t → t.store.Computes
  count : ∀ p e', e.Calls p e' → ∀ c sets, e'.propagator? p = some (.count c sets) →
    c.vars.length < 2 ^ 30 → c.Computes p sets e'.space

lemma Tidy.computes (h : e.Tidy) (hroomy : e.Roomy) : e.Computes := by
  refine ⟨h.intact.store.computes, fun p e' hcalls own t hran => ?_,
    fun p e' hcalls c sets hc hlt => ?_⟩
  · exact (hran.wellFormed (hcalls.trims h).intact.wellFormed).store.computes
  · have htrims := hcalls.trims h
    rw [propagator?_eq] at hc
    have hown := (hroomy.of_trims htrims c sets (List.mem_of_getElem? hc)).1
    exact hown.computes htrims.intact.memory hlt

end Engine

namespace Session

variable {s : Session}

/-- The sets of all counts keep their room, whatever a run does. -/
lemma Arises.roomy (h : s.Arises) : s.engine.Roomy := by
  refine h.induct (P := fun s => s.engine.Roomy) (fun strategy c sets hc => ?_)
    fun s c h hc hroomy => ?_
  · cases hc
  · exact kept_after_of_intact h.intact hroomy (fun _ _ w hmove => hmove.roomy w)
      (fun _ _ htrims hroomy => hroomy.of_trims htrims)
      (fun _ hroomy => hroomy.of_eq rfl rfl fun _ => rfl)
      (fun _ level _ hroomy => hroomy.goBack level) hc

/-- No arithmetic overflows: all changes of sets and questions about them, all requests in stores,
and all turns of propagation in which fewer than `2 ^ 30` places are counted, come to the right
result in words. -/
theorem arithmetic_fits : (∀ d : IntervalSet, d.InRange → d.Computes) ∧
    (∀ t : Store, t.Reachable → t.Computes) ∧
    ∀ s : Session, s.Arises → ∀ e, s.engine.Passes e → e.Computes :=
  ⟨fun _ hd => hd.computes, fun _ ht => ht.computes, fun _ hs _ hpasses =>
    have heases := hpasses.eases hs.tidy
    heases.tidy.computes (hs.roomy.of_trims heases.trims)⟩

/-- A root with all values, an order view that is true of all of them but the greatest, and the
negation of the view. -/
def brink : Store :=
  ((((({} : Store).addRoot (.ofRange Value.least Value.greatest)).2).addView
    ⟨.atMost (Value.greatest - 1), ⟨0⟩⟩).2.addView ⟨.negation, ⟨1⟩⟩).2

lemma reachable_brink : brink.Reachable := by
  refine ⟨[], .addView (.addView (.addRoot .empty ⟨0, by decide⟩ (by decide)) rfl nofun) rfl
    fun _ y hy => ?_⟩
  have hy := Booleans.mem_toSet.1 hy
  omega

/-- The count of the ones is told of an event next. -/
lemma calls_tallied : ∃ e, tallied.engine.Calls ⟨0⟩ e := by
  have hwaits : (tallied.engine.agenda.pop.map Prod.fst = some ⟨0⟩ ∧
      tallied.engine.memory.activity ⟨0⟩ = .active) ∧
      (tallied.engine.slots[0]?.map fun slot => slot.pending.isEmpty) = some false := by
    decide +kernel
  obtain ⟨⟨hpop, hact⟩, hpending⟩ := hwaits
  obtain ⟨⟨p, a⟩, hpop, rfl⟩ := Option.map_eq_some_iff.1 hpop
  obtain ⟨slot, hslot, hpending⟩ := Option.map_eq_some_iff.1 hpending
  obtain ⟨⟨index, events⟩, after, hpending⟩ := List.exists_cons_of_ne_nil
    (List.isEmpty_eq_false_iff.1 hpending)
  have hfirst : slot.pending = [] ++ (index, events) :: after := hpending
  exact ⟨_, .event hpop hslot hact hfirst rfl⟩

/-- The negation of the view is made 1, so the root goes up to the greatest value; and the count of
the ones is told of a decision. -/
theorem arithmetic_fits_brink :
    (IntervalSet.ofRange Value.least Value.greatest).Computes ∧ brink.Computes ∧
    (brink.chain ⟨2⟩).effect? (brink.history ⟨2⟩) (.atLeast 1) =
      some (.narrowed (.atLeast Value.greatest) {Value.greatest}) ∧
    ∃ e, tallied.engine.Calls ⟨0⟩ e ∧
      Count.Computes ⟨[⟨0⟩, ⟨1⟩, ⟨2⟩], 1, ⟨3⟩⟩ ⟨0⟩ ⟨⟨0⟩, ⟨1⟩⟩ e.space := by
  obtain ⟨hset, hstore, hsession⟩ := arithmetic_fits
  have harises : tallied.Arises := ⟨.allDecision, _, by decide +kernel, rfl⟩
  obtain ⟨e, hcalls⟩ := calls_tallied
  have hcount : e.propagator? ⟨0⟩ = some (.count ⟨[⟨0⟩, ⟨1⟩, ⟨2⟩], 1, ⟨3⟩⟩ ⟨⟨0⟩, ⟨1⟩⟩) := by
    rw [Engine.propagator?_eq, (hcalls.trims harises.tidy).propagators, ← Engine.propagator?_eq]
    decide +kernel
  exact ⟨hset _ (by decide), hstore _ reachable_brink, by decide +kernel, e, hcalls,
    (hsession _ harises _ .here).count _ e hcalls _ _ hcount (by decide)⟩

end Session

end FiniteDomain
