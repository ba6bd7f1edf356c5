import Mathlib.Tactic
import FiniteDomain.Proofs.Engine.Incremental
import FiniteDomain.Proofs.Session.Fixpoints

/-!
Counting in the sessions that runs lead to.

* `Count.Records`, `Count.Exact`: what the sets of a count say of the domains, with
  `Session.count_records`: the one always, the other after propagation;
* `Session.deliver_concurs`: a count that is called for the events it was told of does what it
  does from scratch, unless its cardinality is on the root of a variable that it counts
  (`Session.not_concur_coupled`).
-/

namespace FiniteDomain

namespace Count

variable {c : Count} {sets : Sets} {m : Memory} {dom : VarId → IntervalSet} {v : VarId}

/-- No place is in both sets, a certain place is that of a variable that is fixed to the value,
and the places of all variables that can take the value are in one of them. -/
structure Records (c : Count) (sets : Sets) (m : Memory) (dom : VarId → IntervalSet) : Prop where
  disjoint : ∀ i, (m.set sets.possible).contains i = true →
    (m.set sets.certain).contains i = false
  certain : ∀ i, (m.set sets.certain).contains i = true →
    ∃ v, c.vars[i]? = some v ∧ dom v = .single c.value
  covers : ∀ i v, c.vars[i]? = some v → c.value ∈ dom v →
    (m.set sets.possible).contains i = true ∨ (m.set sets.certain).contains i = true

/-- The certain places are exactly those of the variables that are fixed to the value, and the
possible places those of the variables that have the value and others. -/
structure Exact (c : Count) (sets : Sets) (m : Memory) (dom : VarId → IntervalSet) : Prop where
  certain : ∀ i, (m.set sets.certain).contains i = true ↔
    ∃ v, c.vars[i]? = some v ∧ dom v = .single c.value
  possible : ∀ i, (m.set sets.possible).contains i = true ↔
    ∃ v, c.vars[i]? = some v ∧ c.value ∈ dom v ∧ dom v ≠ .single c.value

lemma fixed_iff_eq_single (hne : ∃ x, x ∈ dom v) : c.Fixed dom v ↔ dom v = .single c.value := by
  refine ⟨fun hfix => IntervalSet.ext fun x => ?_, fun heq x hx => ?_⟩
  · obtain ⟨y, hy⟩ := hne
    rw [IntervalSet.mem_single]
    exact ⟨hfix x, fun hx => hx ▸ hfix y hy ▸ hy⟩
  · rwa [heq, IntervalSet.mem_single] at hx

section Sets

variable (ht : c.Tracks sets m dom) (w : m.WellFormed) (hown : c.Owns sets m)
  (hne : ∀ v ∈ c.vars, ∃ x, x ∈ dom v)

include ht w hown hne

lemma Tracks.records : c.Records sets m dom := by
  refine ⟨ht.disjoint, fun i hi => ?_, ht.covers⟩
  obtain ⟨v, hv⟩ := exists_getElem? w hown.certain hi
  exact ⟨v, hv, (fixed_iff_eq_single (hne v (List.mem_of_getElem? hv))).1 (ht.certain i v hi hv)⟩

/-- At rest, no place is left where it does not belong. -/
lemma Rests.exact (h : c.Rests sets m dom fun _ => False) : c.Exact sets m dom := by
  have hsingle : ∀ {i v}, c.vars[i]? = some v → (c.Fixed dom v ↔ dom v = .single c.value) :=
    fun hv => fixed_iff_eq_single (hne _ (List.mem_of_getElem? hv))
  refine ⟨fun i => ⟨(ht.records w hown hne).certain i, ?_⟩, fun i => ⟨fun hi => ?_, ?_⟩⟩
  · rintro ⟨v, hv, heq⟩
    exact (h.certain_iff (fun _ => id) ht hv (hne v (List.mem_of_getElem? hv))).2
      ((hsingle hv).2 heq)
  · obtain ⟨v, hv⟩ := exists_getElem? w hown.possible hi
    obtain ⟨hin, hopen⟩ := (h.possible_iff (fun _ => id) ht hv).1 hi
    exact ⟨v, hv, hin, fun heq => hopen ((hsingle hv).2 heq)⟩
  · rintro ⟨v, hv, hin, hno⟩
    exact (h.possible_iff (fun _ => id) ht hv).2 ⟨hin, fun hfix => hno ((hsingle hv).1 hfix)⟩

end Sets

end Count

namespace Session

variable {s : Session} {e : Engine} {p : PropId} {c : Count} {sets : Count.Sets} {slot : Slot}
  {events : Assoc Nat EventSet}

/-- As long as the engine has not failed, what an active count remembers is true of the domains,
wherever a run went back to.  After propagation has ended without an inconsistency, it is all that
there is to remember, if the variables of the scope are on different roots. -/
theorem count_records (h : s.Reachable) (hnone : s.engine.conflict = none)
    (hq : s.engine.propagator? p = some (.count c sets))
    (hact : s.engine.memory.activity p = .active) :
    c.Records sets s.engine.memory s.engine.store.domain ∧
      ((Propagator.count c sets).Independent s.engine.store →
        (∃ s₀ : Session, s₀.Reachable ∧ Engine.propagate s₀.engine = .ok (.ok ()) s.engine) →
          c.Exact sets s.engine.memory s.engine.store.domain) := by
  rw [Engine.propagator?_eq] at hq
  have w : Engine.Working s.engine := ⟨h.invariant.consistent, h.invariant.ready hnone⟩
  obtain ⟨hscope, hown⟩ := Engine.fits_of_count w hq
  have ht : c.Tracks sets s.engine.memory s.engine.store.domain :=
    w.ready.tracked p.index _ hq hact
  have hne : ∀ v ∈ c.vars, ∃ x, x ∈ s.engine.store.domain v := fun v hv =>
    w.consistent.store.domain_nonempty (hscope v (Count.mem_scope_of_mem hv))
  refine ⟨ht.records w.consistent.memory hown hne, ?_⟩
  rintro hindep ⟨s₀, h₀, hrun⟩
  have hrests := ((h₀.atRest hrun).calm p.index _ hq).rests hact hindep.apart
  exact Count.Rests.exact ht w.consistent.memory hown hne hrests

/-- After propagation, the count of the ones knows which variables are fixed to one. -/
theorem count_records_tallied :
    Count.Records ⟨[⟨0⟩, ⟨1⟩, ⟨2⟩], 1, ⟨3⟩⟩ ⟨⟨0⟩, ⟨1⟩⟩ (tallied.after .propagate).engine.memory
        (tallied.after .propagate).engine.store.domain ∧
      Count.Exact ⟨[⟨0⟩, ⟨1⟩, ⟨2⟩], 1, ⟨3⟩⟩ ⟨⟨0⟩, ⟨1⟩⟩ (tallied.after .propagate).engine.memory
        (tallied.after .propagate).engine.store.domain := by
  obtain ⟨-, hrun, hcount, hindep, -⟩ := propagated_tallied
  have hreachable : (tallied.after .propagate).Reachable := reachable_tallied.after trivial
  have hstate : (tallied.after .propagate).engine.conflict = none ∧
      (tallied.after .propagate).engine.memory.activity ⟨0⟩ = .active := by decide +kernel
  obtain ⟨hrecords, hexact⟩ := count_records hreachable hstate.1 hcount hstate.2
  exact ⟨hrecords, hexact hindep ⟨tallied, reachable_tallied, propagate_after hrun⟩⟩

/-- Between two turns of propagation, or two commands, an active count does the same whether it is
called for its pending events one by one, in any order, or from scratch: it fails either way, or
ends with the same domains.  The variables that are counted may be repeated and views on one
root, but the cardinality is on another one. -/
theorem deliver_concurs (h : s.Reachable) (hnone : s.engine.conflict = none)
    (hpasses : s.engine.Passes e) (hslot : e.slots[p.index]? = some slot)
    (hq : slot.propagator = .count c sets) (hact : e.memory.activity p = .active)
    (hapart : (Propagator.count c sets).Apart e.store) (hperm : events.Perm slot.pending) :
    Engine.Concur (Engine.deliver p (.count c sets) events) (Engine.start p (.count c sets)) e := by
  obtain ⟨w, ho, ha⟩ := hpasses.working ⟨h.invariant.consistent, h.invariant.ready hnone⟩
    h.scheduled.orderly (h.scheduled.alert hnone)
  have hmind := ha p.index slot hslot
  refine Engine.concur_deliver_start w ho (fun i slot _ => ha i slot) ?_ hact hapart ?_
  · rw [← hq]
    exact Engine.propagator_of_slot hslot
  · rw [← hq]
    exact hmind.stands.mono fun i hi => ((hperm.map Prod.fst).mem_iff).2 hi

/-- Two views on one root, one of them counted twice, and a cardinality that is told of too. -/
def overlapping : Session := (new .allDecision).run
  [.newVariable 0 5 none, .newView ⟨.atMost 1, ⟨0⟩⟩, .newView ⟨.atMost 3, ⟨0⟩⟩,
    .newVariable 0 5 none, .newVariable 0 1 none,
    .add (.count ⟨[⟨1⟩, ⟨2⟩, ⟨1⟩, ⟨4⟩], 1, ⟨3⟩⟩), .propagate, .decide ⟨0⟩ (.apply (.atMost 2)),
    .decide ⟨4⟩ (.apply (.equals 1)), .decide ⟨3⟩ (.apply (.atMost 2))]

/-- The count is called for the cardinality first. -/
theorem deliver_concurs_overlapping :
    Engine.Concur
      (Engine.deliver ⟨0⟩ (.count ⟨[⟨1⟩, ⟨2⟩, ⟨1⟩, ⟨4⟩], 1, ⟨3⟩⟩ ⟨⟨0⟩, ⟨1⟩⟩)
        [(4, ⟨false, false, true, true⟩), (1, ⟨true, true, false, true⟩),
          (3, ⟨true, true, false, true⟩)])
      (Engine.start ⟨0⟩ (.count ⟨[⟨1⟩, ⟨2⟩, ⟨1⟩, ⟨4⟩], 1, ⟨3⟩⟩ ⟨⟨0⟩, ⟨1⟩⟩)) overlapping.engine := by
  have hreachable : overlapping.Reachable := ⟨.allDecision, _, by decide +kernel, rfl⟩
  have hslot : overlapping.engine.slots[0]?.map (fun slot => (slot.propagator, slot.pending)) =
      some (.count ⟨[⟨1⟩, ⟨2⟩, ⟨1⟩, ⟨4⟩], 1, ⟨3⟩⟩ ⟨⟨0⟩, ⟨1⟩⟩,
        [(1, ⟨true, true, false, true⟩), (3, ⟨true, true, false, true⟩),
          (4, ⟨false, false, true, true⟩)]) := by decide +kernel
  have ⟨hnone, hact, hapart⟩ : overlapping.engine.conflict = none ∧
      overlapping.engine.memory.activity ⟨0⟩ = .active ∧
      (Propagator.count ⟨[⟨1⟩, ⟨2⟩, ⟨1⟩, ⟨4⟩], 1, ⟨3⟩⟩ ⟨⟨0⟩, ⟨1⟩⟩).Apart
        overlapping.engine.store := by decide +kernel
  obtain ⟨slot, hslot, heq⟩ := Option.map_eq_some_iff.1 hslot
  obtain ⟨hq, hpending⟩ := Prod.mk.inj heq
  exact deliver_concurs hreachable hnone .here (p := ⟨0⟩) hslot hq hact hapart
    (by rw [hpending]; decide)

/-- A count of views and of another variable whose cardinality is the root of the views.  The other
variable is decided after propagation. -/
def coupled : Session := (new .allDecision).run
  [.newSparseVariable [1, 5] none, .newView ⟨.atMost 1, ⟨0⟩⟩, .newView ⟨.atMost 2, ⟨0⟩⟩,
    .newView ⟨.atMost 3, ⟨0⟩⟩, .newVariable 0 1 none,
    .add (.count ⟨[⟨1⟩, ⟨2⟩, ⟨3⟩, ⟨4⟩], 1, ⟨0⟩⟩), .propagate, .decide ⟨4⟩ (.apply (.equals 0))]

/-- With the cardinality on the root of variables that are counted, a count is not told of what it
did itself.  Called for the event that is pending, it ends; from scratch, it fails. -/
theorem not_concur_coupled : coupled.Reachable ∧ coupled.engine.conflict = none ∧
    coupled.engine.slots[0]?.map (fun slot => (slot.propagator, slot.pending)) =
      some (.count ⟨[⟨1⟩, ⟨2⟩, ⟨3⟩, ⟨4⟩], 1, ⟨0⟩⟩ ⟨⟨0⟩, ⟨1⟩⟩, [(3, ⟨true, false, true, true⟩)]) ∧
    coupled.engine.memory.activity ⟨0⟩ = .active ∧
    ¬ Engine.Concur
      (Engine.deliver ⟨0⟩ (.count ⟨[⟨1⟩, ⟨2⟩, ⟨3⟩, ⟨4⟩], 1, ⟨0⟩⟩ ⟨⟨0⟩, ⟨1⟩⟩)
        [(3, ⟨true, false, true, true⟩)])
      (Engine.start ⟨0⟩ (.count ⟨[⟨1⟩, ⟨2⟩, ⟨3⟩, ⟨4⟩], 1, ⟨0⟩⟩ ⟨⟨0⟩, ⟨1⟩⟩)) coupled.engine := by
  have hdeliver : result? (Engine.deliver ⟨0⟩ (.count ⟨[⟨1⟩, ⟨2⟩, ⟨3⟩, ⟨4⟩], 1, ⟨0⟩⟩ ⟨⟨0⟩, ⟨1⟩⟩)
      [(3, ⟨true, false, true, true⟩)]) coupled.engine = some () := by decide +kernel
  have hstart : result? (Engine.start ⟨0⟩ (.count ⟨[⟨1⟩, ⟨2⟩, ⟨3⟩, ⟨4⟩], 1, ⟨0⟩⟩ ⟨⟨0⟩, ⟨1⟩⟩))
      coupled.engine = none := by decide +kernel
  refine ⟨⟨.allDecision, _, by decide +kernel, rfl⟩, by decide +kernel, by decide +kernel,
    by decide +kernel, ?_⟩
  rintro (⟨-, e₂, -, hrun, -⟩ | ⟨i, -, e₁, -, hrun, -⟩)
  · rw [result?, hrun] at hstart
    cases hstart
  · rw [result?, hrun] at hdeliver
    cases hdeliver

end Session

end FiniteDomain
