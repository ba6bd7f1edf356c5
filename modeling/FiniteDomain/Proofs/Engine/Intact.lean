import Mathlib.Tactic
import FiniteDomain.Proofs.Engine.Fixpoint
import FiniteDomain.Proofs.Propagator.Confined

/-!
What holds of an engine wherever it went back to.

Going back to the current level gives up what was scheduled, and what the propagators remember
need not be right any more.  Some things hold all the same: store and memory are well-formed, with
checkpoints at the same levels, the agenda is in order, and all propagators that were never called
wait.

* `Engine.Intact`: what holds of such engines;
* `Engine.Trims`: what calls of propagators leave of an engine, with `Engine.trimming_call` for
  one call and `Engine.trimming_drain` for all of them;
* `Engine.trims_propagate`, `Engine.Decides.trims`, `Engine.Intact.extend`,
  `Engine.Intact.accept`, `Engine.Intact.marked`, `Engine.Intact.goBack`: this is kept, whatever
  calls of the engine do.
-/

namespace FiniteDomain

namespace Engine

variable {e e' e'' : Engine} {p : PropId} {q : Propagator} {slot : Slot} {a : Agenda}

/-- All propagators that were never called are on the agenda, unless the engine failed. -/
def Awaits (e : Engine) : Prop :=
  e.conflict = none → ∀ p : PropId, p.index < e.slots.size → e.memory.activity p = .inactive →
    e.agenda.contains p = true

/-- An engine that goes on, wherever it went back to. -/
structure Intact (e : Engine) : Prop where
  store : e.store.WellFormed
  memory : e.memory.WellFormed
  level : e.memory.trail.level = e.store.trail.level
  size : e.memory.activities.size = e.slots.size
  scope : ∀ q ∈ e.propagators, ¬ q.IsObserver → ∀ v ∈ q.scope, e.store.has v = true
  agenda : e.agenda.WellFormed
  awaits : e.Awaits

lemma intact_empty (strategy : Strategy) : Intact { strategy := strategy } where
  store := Store.wellFormed_empty
  memory := Memory.wellFormed_empty
  level := rfl
  size := rfl
  scope q hq := by simp [propagators] at hq
  agenda := Agenda.wellFormed_empty
  awaits _ p hp := absurd hp (Nat.not_lt_zero _)

lemma Intact.wellFormed (h : e.Intact) : e.space.WellFormed := ⟨h.store, h.memory⟩

/-- What calls of propagators leave of an engine. -/
structure Trims (e e' : Engine) : Prop where
  store : e.store.Shrinks { e'.store with failure := e.store.failure }
  memory : e.memory.Rewinds e'.memory
  propagators : e'.propagators = e.propagators
  intact : e'.Intact

lemma Trims.refl (h : e.Intact) : Trims e e := ⟨.refl h.store, .refl _, rfl, h⟩

lemma Trims.trans (h : Trims e e') (h' : Trims e' e'') : Trims e e'' :=
  ⟨h.store.trans (h'.store.congr rfl rfl rfl rfl rfl), h.memory.trans h'.memory,
    h'.propagators.trans h.propagators, h'.intact⟩

lemma Trims.level (h : Trims e e') : e'.level = e.level := h.store.level

lemma size_eq_of_propagators (h : e'.propagators = e.propagators) :
    e'.slots.size = e.slots.size := by
  rw [← length_propagators, h, length_propagators]

/-- The store shrinks, and the memory is changed in the name of one propagator. -/
lemma Intact.trims (h : e.Intact) {own : List SetId}
    (hstore : e.store.Shrinks { e'.store with failure := e.store.failure })
    (hmemory : Memory.Kept p own e.memory e'.memory) (hq : e'.propagators = e.propagators)
    (hagenda : e'.agenda.WellFormed) (hawaits : e'.Awaits) : Trims e e' := by
  refine ⟨hstore, hmemory.rewinds, hq, hstore.wellFormed.congr rfl rfl, hmemory.wellFormed, ?_, ?_,
    fun q' hq' hobs v hv => ?_, hagenda, hawaits⟩
  · rw [hmemory.level, h.level]
    exact hstore.level.symm
  · rw [hmemory.size_activities, h.size, size_eq_of_propagators hq]
  · exact (hstore.has v).trans (h.scope q' (hq ▸ hq') hobs v hv)

/-- No propagator is forgotten when the agenda grows. -/
lemma Awaits.mono (h : e.Awaits) {own : List SetId} (hmemory : Memory.Kept p own e.memory e'.memory)
    (hq : e'.propagators = e.propagators) (hconflict : e'.conflict = none → e.conflict = none)
    (hagenda : ∀ p', e.agenda.contains p' = true → e'.agenda.contains p' = true) : e'.Awaits := by
  intro hnone p' hp' hact
  rw [size_eq_of_propagators hq] at hp'
  refine hagenda p' (h (hconflict hnone) p' hp' ?_)
  by_cases heq : p' = p
  · subst heq
    by_contra hcalled
    exact hmemory.called hcalled hact
  · rwa [← hmemory.activity p' heq]

/-- Accounts, slots and the agenda do not matter, as long as no propagator is taken from it. -/
lemma Intact.trims_of_alike (h : e.Intact) (halike : Alike e e')
    (hwell : e.agenda.WellFormed → e'.agenda.WellFormed)
    (hagenda : ∀ p', e.agenda.contains p' = true → e'.agenda.contains p' = true) : Trims e e' := by
  have hmemory : Memory.Kept ⟨0⟩ [] e.memory e'.memory := by
    rw [halike.memory]
    exact .refl h.memory
  exact h.trims ((Store.Shrinks.refl h.store).congr rfl rfl halike.vars halike.trail rfl) hmemory
    halike.propagators (hwell h.agenda) (h.awaits.mono hmemory halike.propagators
      (fun hnone => halike.conflict ▸ hnone) hagenda)

/-- An engine that fails has nothing to wait for. -/
lemma Intact.trims_fail (h : e.Intact) (i : Inconsistency) : Trims e (e.fail i) :=
  have hmemory : Memory.Kept ⟨0⟩ [] e.memory (e.fail i).memory := .refl h.memory
  h.trims ((Store.Shrinks.refl h.store).congr rfl rfl rfl rfl rfl) hmemory
    (propagators_clearPending e) (h.agenda.bounded_clear 0).wellFormed nofun

/-! ### Calls of propagators -/

/-- A run that leaves this, whether it ends or stops. -/
def Trimming (f : Run Unit) (e : Engine) : Prop :=
  Ends f e (fun _ e' => Trims e e') fun _ e' => Trims e e'

lemma Trimming.after {f : Run Unit} (h : Trimming f e') (he : Trims e e') :
    Ends f e' (fun _ e'' => Trims e e'') fun _ e'' => Trims e e'' :=
  h.mono (fun _ _ h => he.trans h) fun _ _ h => he.trans h

lemma Intact.trims_withSpace (h : e.Intact) {t : Space} {own : List SetId}
    (ht : Space.Trimmed p own e.space t) : Trims e (e.withSpace t) :=
  h.trims ht.store ht.memory rfl h.agenda (h.awaits.mono ht.memory rfl id fun _ => id)

/-- One call of a propagator, of which the others are told. -/
lemma trimming_call (h : e.Intact) {f : Filter Unit} (hf : q.Confined p e.space f) :
    Trimming (call p f) e := by
  simp only [Trimming, Ends, call, Propagator.Confined] at *
  cases hrun : f e.space with
  | ok a t =>
    rw [hrun] at hf
    have htrims := h.trims_withSpace hf
    have htold : Trims (e.withSpace t) (told e (some p) t) :=
      htrims.intact.trims_of_alike (alike_told e (some p) t) wellFormed_notify
        (hears_told e (some p) t).contains
    exact htrims.trans htold
  | error x t =>
    rw [hrun] at hf
    exact h.trims_withSpace hf

lemma Intact.lt_size (h : e.Intact) (hq : e.propagators[p.index]? = some q) :
    p.index < e.memory.activities.size := by
  rw [h.size, ← length_propagators]
  exact (List.getElem?_eq_some_iff.1 hq).1

/-- The events of a propagator are delivered one by one. -/
lemma trimming_deliver (h : e.Intact) (hq : e.propagators[p.index]? = some q)
    (events : Assoc Nat EventSet) : Trimming (deliver p q events) e := by
  induction events generalizing e with
  | nil => exact ends_pure (.refl h)
  | cons event events ih =>
    obtain ⟨index, set⟩ := event
    rw [deliver]
    refine ends_bind_get ?_
    split
    case isFalse => exact ends_pure (.refl h)
    have hcount : Trims e (e.alerted p q index set) :=
      h.trims_of_alike (alike_alerted e p q index set) id fun _ => id
    have hconfined := Propagator.confined_react h.wellFormed
      (h.scope q (List.mem_of_getElem? hq)) (h.lt_size hq) index set
    refine ends_bind_modify (Ends.bind ((trimming_call hcount.intact hconfined).after hcount)
      fun _ e' htrims => ?_)
    exact (ih htrims.intact (htrims.propagators ▸ hq)).after htrims

section Pop

variable (h : e.Intact) (hpop : e.agenda.pop = some (p, a))

include h hpop

/-- A propagator that is taken from the agenda is not forgotten, if it was called before or is
called then, or does not exist. -/
lemma Intact.trims_popped {own : List SetId} (hstore : e'.store = e.store)
    (hmemory : Memory.Kept p own e.memory e'.memory) (hq : e'.propagators = e.propagators)
    (hconflict : e'.conflict = e.conflict) (hagenda : e'.agenda = a)
    (hactive : p.index < e.slots.size → e'.memory.activity p ≠ .inactive) : Trims e e' := by
  refine h.trims ?_ hmemory hq ?_ fun hnone p' hp' hact => ?_
  · rw [hstore]
    exact .refl h.store
  · rw [hagenda]
    exact (h.agenda.pop hpop).1
  · rw [size_eq_of_propagators hq] at hp'
    have hne : p' ≠ p := by
      rintro rfl
      exact hactive hp' hact
    rw [hmemory.activity p' hne] at hact
    rw [hagenda]
    exact (Agenda.contains_pop hpop).2 ⟨h.awaits (hconflict ▸ hnone) p' hp' hact, hne⟩

/-- The propagator that was taken from the agenda is called as its activity asks for. -/
lemma trimming_work : Ends (work p) { e with agenda := a } (fun _ e' => Trims e e')
    fun _ e' => Trims e e' := by
  have hkept : Memory.Kept p [] e.memory e.memory := .refl h.memory
  rw [work]
  refine ends_bind_get ?_
  split
  case h_1 hnone =>
    refine ends_pure (h.trims_popped hpop rfl hkept rfl rfl rfl fun hlt => ?_)
    exact absurd hlt (Nat.not_lt.2 (Array.getElem?_eq_none_iff.1 hnone))
  rename_i slot hslot
  have hslot : e.slots[p.index]? = some slot := hslot
  have hq : e.propagators[p.index]? = some slot.propagator := propagator_of_slot hslot
  have hp := h.lt_size hq
  refine ends_bind_set ?_
  let e₁ : Engine := ({ e with agenda := a } : Engine).relieved p slot
  have hpropagators : e₁.propagators = e.propagators := propagators_setSlot hslot rfl
  have hcalled : e.memory.activity p ≠ .inactive → Trims e e₁ := fun hact =>
    h.trims_popped hpop rfl hkept hpropagators rfl rfl fun _ => hact
  have hstart : Ends (start p slot.propagator) e₁ (fun _ e' => Trims e e')
      fun _ e' => Trims e e' := by
    have hstarted : Memory.Kept p [] e.memory (e.memory.setActivity p .active) :=
      .setActivity h.memory hp Activity.noConfusion
    have hactivated : Trims e (e₁.activated p slot.propagator) := by
      refine h.trims_popped hpop rfl hstarted hpropagators rfl rfl fun _ => ?_
      change (e.memory.setActivity p .active).activity p ≠ .inactive
      rw [Memory.activity_setActivity hp, if_pos rfl]
      exact Activity.noConfusion
    have hintact := hactivated.intact
    have hq' := hactivated.propagators.symm ▸ hq
    rw [start]
    have hconfined := Propagator.confined_propagate hintact.wellFormed
      (hintact.scope _ (List.mem_of_getElem? hq')) (hintact.lt_size hq')
    exact ends_bind_modify ((trimming_call hintact hconfined).after hactivated)
  split
  · rename_i hact
    exact ends_pure (hcalled fun h => Activity.noConfusion (hact.symm.trans h))
  · exact hstart
  · rename_i hact
    split
    · have hrelieved := hcalled fun h => Activity.noConfusion (hact.symm.trans h)
      exact (trimming_deliver hrelieved.intact (hrelieved.propagators.symm ▸ hq) _).after hrelieved
    · exact hstart

end Pop

/-- The calls of all propagators that wait, whether they come to an end or one stops. -/
lemma trimming_drain (h : e.Intact) (n : Nat) : Trimming (drain n) e := by
  induction n generalizing e with
  | zero => exact ends_throw (.refl h)
  | succ n ih =>
    rw [Trimming, Ends, drain]
    dsimp only
    cases hpop : e.agenda.pop with
    | none => exact .refl h
    | some next =>
      obtain ⟨p, a⟩ := next
      have hwork := trimming_work h hpop
      dsimp only
      cases hrun : work p { e with agenda := a } with
      | ok _ e' =>
        have htrims := Ends.of_ok hrun hwork
        exact (ih htrims.intact).after htrims
      | error x e' =>
        have htrims := Ends.of_error hrun hwork
        cases x with
        | exhausted => exact htrims
        | inconsistent i =>
          have hnote : ∀ n : Note, Trims e' (e'.note n) := fun n =>
            htrims.intact.trims_of_alike (alike_note e' n) id fun _ => id
          exact htrims.trans ((hnote _).trans ((hnote _).intact.trims_fail i))

lemma trims_propagate (h : e.Intact)
    (hrun : (∃ r, propagate e = .ok r e') ∨ ∃ x, propagate e = .error x e') : Trims e e' := by
  have hends : Ends propagate e (fun _ e' => Trims e e') fun _ e' => Trims e e' := by
    have hdrain := trimming_drain h e.rounds
    rw [propagate]
    refine ends_bind_get ?_
    split
    · exact ends_pure (.refl h)
    split
    · rename_i e' hrun
      have htrims := Ends.of_ok hrun hdrain
      have hidle : Trims e' { e' with phase := .idle } :=
        htrims.intact.trims_of_alike (alike_phase e' .idle) id fun _ => id
      exact ends_bind_set (ends_pure (htrims.trans hidle))
    · rename_i hrun
      have htrims := Ends.of_error hrun hdrain
      exact ends_bind_set (ends_pure htrims)
    · rename_i hrun
      have htrims := Ends.of_error hrun hdrain
      exact ends_bind_set (ends_throw htrims)
  rcases hrun with ⟨r, hrun⟩ | ⟨x, hrun⟩
  · have htrims := Ends.of_ok hrun hends
    exact htrims
  · have htrims := Ends.of_error hrun hends
    exact htrims

/-! ### Decisions -/

/-- A decision narrows domains and calls no propagator. -/
lemma Decides.trims {v : VarId} {d : Decision} {r : Except Inconsistency Bool}
    (hdecides : Decides v d e r e') (h : e.Intact) : Trims e e' := by
  have hspace : ∀ {t : Store}, Store.Narrowing (d.Grounds v) none e.store t →
      ∀ failure, Trims e (e.withSpace
        { e.space with store := { t with failure := failure } }) := by
    intro t hn failure
    have hsh : e.store.Shrinks { t with failure := e.store.failure } :=
      (hn.shrinks h.store).congr rfl rfl rfl rfl rfl
    have htrimmed : Space.Trimmed ⟨0⟩ [] e.space
        { e.space with store := { t with failure := failure } } := ⟨hsh, .refl h.memory⟩
    exact h.trims_withSpace htrimmed
  cases hdecides with
  | @granted b t hn hleaves =>
    have htrims := hspace hn t.failure
    exact htrims.trans (htrims.intact.trims_of_alike (alike_told e none _) wellFormed_notify
      (hears_told e none _).contains)
  | refused hr hno =>
    obtain ⟨hn, hv, hJ, -⟩ := hr
    rename_i i t w op
    have htrims := hspace hn (some ⟨w, op, none⟩)
    exact htrims.trans (htrims.intact.trims_fail i)

/-! ### Other moves -/

/-- New variables leave the rest of the engine as it is. -/
lemma Intact.extend (h : e.Intact) {t : Store} (wt : t.WellFormed) (hext : e.store.Extends t)
    (htrail : t.trail = e.store.trail) :
    Intact { e with space := { e.space with store := t } } where
  store := wt
  memory := h.memory
  level := h.level.trans (congrArg Trail.level htrail.symm)
  size := h.size
  scope q hq hobs v hv := hext.has (h.scope q hq hobs v hv)
  agenda := h.agenda
  awaits := h.awaits

/-- A new propagator waits. -/
lemma Intact.accept (h : e.Intact) {c : Constraint} {m : Memory} (hmakes : c.Makes e.memory q m)
    (hunknown : e.unknown? q = none) : (e.accept q m).Intact := by
  have hgrows := hmakes.grows.trans (Memory.grows_addActivity hmakes.grows.wellFormed)
  have hpropagators : (e.accept q m).propagators = e.propagators ++ [q] := by
    simp [propagators, Engine.accept]
  have hsize : (e.accept q m).slots.size = e.slots.size + 1 := Array.size_push _
  refine ⟨h.store, hgrows.wellFormed, hgrows.level.trans h.level, ?_, fun q' hq' hobs v hv => ?_,
    h.agenda.enqueue _ _, fun hnone p hp hact => Agenda.contains_enqueue.2 ?_⟩
  · change (m.activities.push _).size = (e.slots.push _).size
    rw [Array.size_push, Array.size_push, hmakes.size, h.size]
  · rw [hpropagators, List.mem_append, List.mem_singleton] at hq'
    rcases hq' with hq' | rfl
    · exact h.scope q' hq' hobs v hv
    · exact has_of_unknown?_eq_none hunknown hobs v hv
  · have hact : e.memory.activity p = .inactive := (hgrows.agrees.activity p).symm.trans hact
    rw [hsize] at hp
    rcases Nat.lt_succ_iff_lt_or_eq.1 hp with hlt | heq
    · exact .inr (h.awaits hnone p hlt hact)
    · exact .inl (congrArg PropId.mk heq)

/-! ### Checkpoints -/

lemma Intact.marked (h : e.Intact) : e.marked.Intact where
  store := h.store.mark
  memory := h.memory.mark
  level := calc e.memory.trail.mark.level
    _ = e.memory.trail.level + 1 := Trail.level_mark _
    _ = e.store.trail.level + 1 := congrArg (· + 1) h.level
    _ = e.store.trail.mark.level := (Trail.level_mark _).symm
  size := h.size
  scope := h.scope
  agenda := h.agenda
  awaits := h.awaits

/-- Wherever the engine goes back to, the propagators that were never called wait. -/
lemma Intact.goBack (h : e.Intact) (level : Nat) : (e.goBack level).Intact := by
  have hstore := store_goBack e level
  have hmemory := memory_goBack e level
  have hsize := size_goBack e level
  have hpropagators := (alike_goBack e level).propagators.trans (propagators_rewound e level)
  have hagenda := (hears_goBack e level).bounded (h.agenda.bounded_clear _)
  refine ⟨hstore ▸ h.store.restore, hmemory ▸ h.memory.restore, ?_, ?_, fun q hq hobs v hv => ?_,
    hagenda.wellFormed, fun _ p hp hact => ?_⟩
  · rw [hmemory, hstore]
    change (e.memory.trail.cut level).level = (e.store.trail.cut level).level
    rw [Trail.level_cut_eq_min, Trail.level_cut_eq_min, h.level]
  · rw [hmemory, (Memory.size_restore _ _).1, h.size, hsize]
  · rw [hstore, (Store.maps_restore e.store level).has]
    exact h.scope q (hpropagators ▸ hq) hobs v hv
  · exact contains_goBack.2 ⟨hsize ▸ hp, hmemory ▸ hact⟩

end Engine

end FiniteDomain
