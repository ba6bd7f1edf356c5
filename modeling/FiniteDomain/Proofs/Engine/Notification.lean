import Mathlib.Tactic
import FiniteDomain.Proofs.Agenda
import FiniteDomain.Proofs.Engine.Invariant
import FiniteDomain.Proofs.Store.Events

/-!
Events that are told.

Every event that is raised is told to every active propagator that asked for it, but for the
one that caused it.  What a propagator was told stays until it is called, and a propagator
that was told something is on the agenda.

* `Slot.Waits`: an index of the scope waits for an event, with `Slot.waits_tell`;
* `Engine.Hears`: propagators were told something, and nothing else changed;
* `Engine.Told`: an event was told to a propagator, which stays so;
* `Engine.hears_notify`: the events of a store;
* `Engine.not_concerns_of_not_waits`: a change that is asked for makes its index wait;
* `Engine.arrays_work`: the calls of a propagator leave the agenda in order, also where they stop.
-/

namespace FiniteDomain

/-- The index of the scope waits for an event. -/
def Slot.Waits (slot : Slot) (i : Nat) : Prop := i ∈ Assoc.keys slot.pending

lemma Slot.mem_interested {slot : Slot} {v : VarId} {events : EventSet} {i : Nat} :
    i ∈ slot.interested v events ↔ slot.propagator.scope[i]? = some v ∧
      (slot.propagator.condition i).meets events = true := by
  simp only [interested, List.mem_map, List.mem_filter, Bool.and_eq_true, decide_eq_true_eq]
  constructor
  · rintro ⟨⟨u, j⟩, ⟨hmem, rfl, hmeets⟩, rfl⟩
    exact ⟨List.mem_zipIdx_iff_getElem?.1 hmem, hmeets⟩
  · rintro ⟨hi, hmeets⟩
    exact ⟨(v, i), ⟨List.mem_zipIdx_iff_getElem?.2 hi, rfl, hmeets⟩, rfl⟩

lemma Slot.waits_tell {slot : Slot} {events : EventSet} {indices : List Nat} {i : Nat} :
    (slot.tell events indices).Waits i ↔ i ∈ indices ∨ slot.Waits i := by
  simp only [Waits, tell]
  generalize slot.pending = pending
  induction indices generalizing pending with
  | nil => simp
  | cons j indices ih =>
    rw [List.foldl_cons, ih, Assoc.keys_join, List.mem_cons]
    split
    · rename_i hj
      refine ⟨fun h => h.elim (fun h => .inl (.inr h)) .inr, ?_⟩
      rintro ((rfl | h) | h)
      · exact .inr hj
      · exact .inl h
      · exact .inr h
    · rw [List.mem_append, List.mem_singleton]
      tauto

namespace Engine

variable {e e' e'' : Engine} {cause : Option PropId} {v : VarId} {events : EventSet} {p : PropId}

/-- Propagators were told something, but for the one that caused it.  Those that were told
something are on the agenda. -/
structure Hears (cause : Option PropId) (e e' : Engine) : Prop where
  alike : Alike e e'
  raised : e'.store.raised = e.store.raised
  size : e'.slots.size = e.slots.size
  bounded : e.agenda.Bounded e.slots.size → e'.agenda.Bounded e.slots.size
  contains : ∀ p, e.agenda.contains p = true → e'.agenda.contains p = true
  slot : ∀ (i : Nat) slot, e.slots[i]? = some slot → ∃ slot', e'.slots[i]? = some slot' ∧
    slot'.propagator = slot.propagator ∧ (∀ k, slot.Waits k → slot'.Waits k) ∧
      (slot' = slot ∨ cause ≠ some ⟨i⟩ ∧ e'.agenda.contains ⟨i⟩ = true)

lemma Hears.refl (cause : Option PropId) (e : Engine) : Hears cause e e :=
  ⟨.refl e, rfl, rfl, id, fun _ => id,
    fun _ slot hslot => ⟨slot, hslot, rfl, fun _ => id, .inl rfl⟩⟩

lemma Hears.trans (h : Hears cause e e') (h' : Hears cause e' e'') : Hears cause e e'' where
  alike := h.alike.trans h'.alike
  raised := h'.raised.trans h.raised
  size := h'.size.trans h.size
  bounded hb := by
    have := h.bounded hb
    rw [← h.size] at this
    rw [← h.size]
    exact h'.bounded this
  contains p hp := h'.contains p (h.contains p hp)
  slot i slot hslot := by
    obtain ⟨slot', hslot', hq', hwaits', hor'⟩ := h.slot i slot hslot
    obtain ⟨slot'', hslot'', hq'', hwaits'', hor''⟩ := h'.slot i slot' hslot'
    refine ⟨slot'', hslot'', hq''.trans hq', fun k hk => hwaits'' k (hwaits' k hk), ?_⟩
    rcases hor'' with rfl | hor''
    · exact hor'.imp_right fun hor' => ⟨hor'.1, h'.contains _ hor'.2⟩
    · exact .inr hor''

/-- The slot as it was before. -/
lemma Hears.slot_before (h : Hears cause e e') {i : Nat} {slot' : Slot}
    (hslot' : e'.slots[i]? = some slot') : ∃ slot, e.slots[i]? = some slot ∧
    slot'.propagator = slot.propagator ∧ (∀ k, slot.Waits k → slot'.Waits k) ∧
      (slot' = slot ∨ cause ≠ some ⟨i⟩ ∧ e'.agenda.contains ⟨i⟩ = true) := by
  obtain ⟨hlt, -⟩ := Array.getElem?_eq_some_iff.1 hslot'
  rw [h.size] at hlt
  have hslot := Array.getElem?_eq_getElem hlt
  obtain ⟨slot'', hslot'', hrest⟩ := h.slot i _ hslot
  rw [hslot'] at hslot''
  cases hslot''
  exact ⟨_, hslot, hrest⟩

/-- The events on a variable were told to a propagator, if it is active, asks for them and
did not cause them. -/
def Told (cause : Option PropId) (v : VarId) (events : EventSet) (e : Engine) (p : PropId) : Prop :=
  ∀ slot, e.slots[p.index]? = some slot → e.memory.activity p = .active → cause ≠ some p →
    ∀ k ∈ slot.interested v events, slot.Waits k

/-- What was told stays. -/
lemma Told.hears (h : Told cause v events e p) (he : Hears cause e e') :
    Told cause v events e' p := by
  intro slot' hslot' hact hne k hk
  obtain ⟨slot, hslot, hq, hwaits, -⟩ := he.slot_before hslot'
  rw [he.alike.memory] at hact
  refine hwaits k (h slot hslot hact hne k ?_)
  rw [Slot.mem_interested] at hk ⊢
  rwa [hq] at hk

lemma hears_tell (cause : Option PropId) (v : VarId) (events : EventSet) (e : Engine) (p : PropId) :
    Hears cause e (tell cause v events e p) ∧ Told cause v events (tell cause v events e p) p := by
  have halike := alike_tell cause v events e p
  rw [tell] at halike ⊢
  split at halike
  · rename_i hnone
    refine ⟨.refl cause e, fun slot hslot => ?_⟩
    rw [hnone] at hslot
    cases hslot
  · rename_i slot hslot
    dsimp only at halike ⊢
    split at halike
    · rename_i hnot
      rw [if_pos hnot]
      refine ⟨.refl cause e, fun slot' hslot' hact hne k hk => ?_⟩
      rw [hslot] at hslot'
      cases hslot'
      rcases hnot with hcause | hact' | hempty
      · exact absurd hcause hne
      · exact absurd hact hact'
      · rw [List.isEmpty_iff.1 hempty] at hk
        cases hk
    · rename_i hnot
      rw [if_neg hnot]
      have hlt := (Array.getElem?_eq_some_iff.1 hslot).1
      have hwaits : ∀ k, slot.Waits k → (slot.tell events (slot.interested v events)).Waits k :=
        fun k hk => Slot.waits_tell.2 (.inr hk)
      refine ⟨⟨halike, rfl, Array.size_setIfInBounds, fun hb => hb.enqueue hlt _, fun p' hp' =>
        Agenda.contains_enqueue.2 (.inr hp'), fun i slot' hslot' => ?_⟩,
      fun slot' hslot' _ _ k hk => ?_⟩
      · by_cases hi : p.index = i
        · subst hi
          rw [hslot] at hslot'
          cases hslot'
          refine ⟨_, Array.getElem?_setIfInBounds_self_of_lt hlt, rfl, hwaits, .inr ⟨?_, ?_⟩⟩
          · exact fun hcause => hnot (.inl hcause)
          · exact Agenda.contains_enqueue.2 (.inl rfl)
        · refine ⟨slot', ?_, rfl, fun _ => id, .inl rfl⟩
          rw [Array.getElem?_setIfInBounds_ne hi]
          exact hslot'
      · rw [Array.getElem?_setIfInBounds_self_of_lt hlt] at hslot'
        cases hslot'
        exact Slot.waits_tell.2 (.inl hk)

/-- What each step of a walk says stays so to its end. -/
lemma hears_foldl {α : Type} {f : Engine → α → Engine} {T : α → Engine → Prop}
    (hf : ∀ e a, Hears cause e (f e a) ∧ T a (f e a))
    (hT : ∀ e e' a, Hears cause e e' → T a e → T a e') (as : List α) (e : Engine) :
    Hears cause e (as.foldl f e) ∧ ∀ a ∈ as, T a (as.foldl f e) := by
  induction as generalizing e with
  | nil => exact ⟨.refl cause e, nofun⟩
  | cons a as ih =>
    obtain ⟨hears, htold⟩ := hf e a
    obtain ⟨hears', htold'⟩ := ih (f e a)
    refine ⟨hears.trans hears', fun b hb => ?_⟩
    rcases List.mem_cons.1 hb with rfl | hb
    · exact hT _ _ b hears' htold
    · exact htold' b hb

lemma mem_propIds : p ∈ e.propIds ↔ p.index < e.slots.size := by
  simp only [propIds, List.mem_map, List.mem_range]
  constructor
  · rintro ⟨i, hi, rfl⟩
    exact hi
  · intro hp
    exact ⟨p.index, hp, rfl⟩

lemma hears_notifyOne (cause : Option PropId) (e : Engine) (raised : VarId × EventSet) :
    Hears cause e (notifyOne cause e raised) ∧
      ∀ p, Told cause raised.1 raised.2 (notifyOne cause e raised) p := by
  rw [notifyOne]
  have hnote : Hears cause e ((e.note (.raised cause raised.2 raised.1)).count
      fun c => { c with domainEvents := c.domainEvents + 1 }) :=
    ⟨(alike_note e _).trans (alike_count _ _), rfl, rfl, id, fun _ => id,
      fun _ slot hslot => ⟨slot, hslot, rfl, fun _ => id, .inl rfl⟩⟩
  revert hnote
  generalize (e.note (.raised cause raised.2 raised.1)).count
      (fun c => { c with domainEvents := c.domainEvents + 1 }) = e₁
  intro hnote
  obtain ⟨hears, htold⟩ := hears_foldl (T := fun p e => Told cause raised.1 raised.2 e p)
    (hears_tell cause raised.1 raised.2) (fun _ _ _ h h' => h'.hears h) e₁.propIds e₁
  refine ⟨hnote.trans hears, fun p slot hslot => ?_⟩
  have hp : p.index < e₁.slots.size := by
    rw [← hears.size]
    exact (Array.getElem?_eq_some_iff.1 hslot).1
  exact htold p (mem_propIds.2 hp) slot hslot

/-- The propagators were told of the events of a store. -/
lemma hears_notify (cause : Option PropId) (e : Engine) :
    Hears cause e.clearRaised (e.notify cause) ∧
      ∀ r ∈ e.store.raised, ∀ p, Told cause r.1 r.2 (e.notify cause) p := by
  refine hears_foldl (T := fun r e => ∀ p, Told cause r.1 r.2 e p) (hears_notifyOne cause) ?_
    e.store.raised e.clearRaised
  intro e e' r hears h p
  exact (h p).hears hears

/-- A change that a propagator asked for and did not cause makes its index wait. -/
lemma not_concerns_of_not_waits {s : Store} {J : Grounds} (w : s.WellFormed) (hf : s.Followed)
    (hn : Store.Narrowing J cause s e.store) {slot : Slot} {i : Nat}
    (hslot : (e.notify cause).slots[p.index]? = some slot)
    (hact : (e.notify cause).memory.activity p = .active) (hcause : cause ≠ some p)
    (hi : slot.propagator.scope[i]? = some v) (hwaits : ¬ slot.Waits i) :
    ¬ (slot.propagator.condition i).Concerns (s.domain v) (e.store.domain v) := by
  intro hconcerns
  obtain ⟨events, hraised, hmeets⟩ := hn.tells w hf hconcerns
  have htold := (hears_notify cause e).2 (v, events) hraised p slot hslot hact hcause
  exact hwaits (htold i (Slot.mem_interested.2 ⟨hi, hmeets⟩))

/-! ### The order of the agenda -/

lemma wellFormed_foldl {α : Type} {f : Engine → α → Engine}
    (hf : ∀ e x, e.agenda.WellFormed → (f e x).agenda.WellFormed) (xs : List α) (e : Engine)
    (h : e.agenda.WellFormed) : (xs.foldl f e).agenda.WellFormed :=
  List.foldlRecOn (motive := fun e => e.agenda.WellFormed) xs f h fun e h x _ => hf e x h

lemma wellFormed_tell (h : e.agenda.WellFormed) : (tell cause v events e p).agenda.WellFormed := by
  rw [tell]
  split
  · exact h
  · dsimp only
    split
    · exact h
    · exact h.enqueue _ _

lemma wellFormed_notify (h : e.agenda.WellFormed) : (e.notify cause).agenda.WellFormed := by
  refine wellFormed_foldl (fun e r h => ?_) _ _ h
  rw [notifyOne]
  exact wellFormed_foldl (fun e p => wellFormed_tell) _ _ h

/-- A run of propagators leaves the agenda in order, also if it stops. -/
def Arrays (f : Run Unit) (e : Engine) : Prop :=
  Ends f e (fun _ e' => e'.agenda.WellFormed) fun _ e' => e'.agenda.WellFormed

lemma arrays_call (h : e.agenda.WellFormed) (f : Filter Unit) : Arrays (call p f) e := by
  simp only [Arrays, Ends, call]
  cases f e.space with
  | ok _ t => exact wellFormed_notify h
  | error x t => exact h

lemma arrays_deliver {q : Propagator} (h : e.agenda.WellFormed) (events : Assoc Nat EventSet) :
    Arrays (deliver p q events) e := by
  induction events generalizing e with
  | nil => exact ends_pure h
  | cons event events ih =>
    obtain ⟨index, set⟩ := event
    rw [deliver]
    refine ends_bind_get ?_
    split
    · have hcall : Arrays (call p (q.react p index set)) (e.alerted p q index set) := by
        refine arrays_call ?_ _
        exact h
      exact ends_bind_modify (hcall.bind fun _ e' h' => ih h')
    · exact ends_pure h

/-- The calls of one propagator. -/
lemma arrays_work (h : e.agenda.WellFormed) (p : PropId) : Arrays (work p) e := by
  rw [work]
  refine ends_bind_get ?_
  split
  · exact ends_pure h
  · rename_i slot _
    refine ends_bind_set ?_
    have hstart : ∀ e : Engine, e.agenda.WellFormed → Arrays (start p slot.propagator) e :=
      fun e h => ends_bind_modify (arrays_call (e := e.activated p slot.propagator) h _)
    split
    · exact ends_pure h
    · exact hstart _ h
    · split
      · refine arrays_deliver ?_ _
        exact h
      · exact hstart _ h

end Engine

end FiniteDomain
