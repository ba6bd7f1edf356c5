import Mathlib.Tactic
import FiniteDomain.Proofs.Engine.Confluence
import FiniteDomain.Proofs.Engine.Ending

/-!
Counting for events, and from scratch.

A count that was told of some events can be called for them one by one, in any order, or once from
scratch.  Either way it ends at domains that it has no grounds to narrow any more, if the
cardinality is on another root than the variables.  Such domains are kept by the other way, so both
fail, or both end at the same domains.

* `Engine.Passes.working`: between two turns of propagation, the engine is in order;
* `Engine.Encloses`: domains that a count has no grounds to narrow, with
  `Engine.encloses_deliver` and `Engine.encloses_start`: no call of it takes them away, and
  `Engine.Served.encloses`: what calls end with is of this kind;
* `Engine.Concur`: two runs that come to the same, with `Engine.concur_deliver_start`.
-/

namespace FiniteDomain

namespace Engine

variable {e e' : Engine} {p : PropId} {c : Count} {sets : Count.Sets}
  {B : VarId → IntervalSet} {events : Assoc Nat EventSet}

/-- Between two turns, all that is expected of the propagators holds. -/
lemma Passes.working (hpasses : Passes e e') (w : Working e) (ho : e.Orderly) (ha : e.Alert) :
    Working e' ∧ e'.Orderly ∧ e'.Alert := by
  induction hpasses with
  | here => exact ⟨w, ho, ha⟩
  | @turn e₁ e₂ p a _ hpop hrun ih =>
    obtain ⟨w₁, ho₁, ha₁⟩ := ih
    have halike : Alike e₁ { e₁ with agenda := a } := ⟨rfl, rfl, rfl, rfl, rfl, rfl, rfl⟩
    have w₂ := halike.working w₁
    have hworks := Ends.of_ok hrun (runs_work w₂ _)
    have hserves := Ends.of_ok hrun (serves_work w₂ (Orderly.popped hpop ho₁)
      (Alert.popped hpop ha₁ ho₁) fun slot hslot => (ha₁ _ slot hslot).stands)
    exact ⟨hworks.1, hserves.1, hserves.2.1⟩

/-! ### Domains that are kept -/

/-- Within the domains of the engine there are some that the count has no grounds to narrow. -/
structure Encloses (c : Count) (e : Engine) (B : VarId → IntervalSet) : Prop where
  box : e.store.Box B
  closed : Grounds.Closed c.Forced B
  le : ∀ v, e.store.has v = true → ∀ x, x ∈ B v → x ∈ e.store.domain v

/-- One call takes nothing of them away, and does not fail. -/
lemma encloses_call (w : e.space.WellFormed) (hscope : ∀ v ∈ c.scope, e.store.has v = true)
    (h : e.Encloses c B) {f : Filter Unit} {Q : Unit → Space → Prop}
    (hyields : Filter.Yields c.Forced p sets.own e.space f Q) :
    Ends (call p f) e (fun _ e' => e'.Encloses c B) fun _ _ => False := by
  have hkept : ∀ dom v op, (∀ u, e.store.has u = true → ∀ x, x ∈ B u → x ∈ dom u) →
      c.Forced dom v op → ∀ x, x ∈ B v → op.Holds x := fun dom v op hsub hJ =>
    h.closed v op (hJ.mono fun u hu => hsub u (hscope u hu))
  simp only [Ends, call, Filter.Yields] at *
  cases hrun : f e.space with
  | ok a t =>
    rw [hrun] at hyields
    have hnarrowing := hyields.1.store
    have halike := alike_told e (some p) t
    have hsame := ((hnarrowing.driven w.store rfl).congr halike.vars halike.trail
      halike.failure).sameVariables
    refine ⟨h.box.congr hsame, h.closed, fun v hv => ?_⟩
    rw [halike.domain]
    exact hnarrowing.box_le w.store h.box hkept h.le v ((hsame.has v).symm.trans hv)
  | error x t =>
    rw [hrun] at hyields
    cases x with
    | inconsistent i => exact hyields.1.absurd_box w.store h.box hkept h.le
    | exhausted => exact absurd hyields.1 (List.cons_ne_nil _ _)

section Calls

variable (w : Working e) (hq : e.propagators[p.index]? = some (.count c sets))
  (h : e.Encloses c B)

include w hq in
lemma fits_of_count :
    (∀ v ∈ c.scope, e.store.has v = true) ∧ c.Owns sets e.memory := by
  have hfits := w.consistent.fits _ (List.mem_of_getElem? hq)
  exact ⟨hfits.1, hfits.2.2⟩

include w hq h

/-- Calls for events, one after another. -/
lemma encloses_deliver (htracks : c.Tracks sets e.memory e.store.domain)
    (events : Assoc Nat EventSet) :
    Ends (deliver p (.count c sets) events) e (fun _ e' => e'.Encloses c B) fun _ _ => False := by
  induction events generalizing e with
  | nil => exact ends_pure h
  | cons event events ih =>
    obtain ⟨index, set⟩ := event
    rw [deliver]
    refine ends_bind_get ?_
    split
    case isFalse => exact ends_pure h
    have w₁ : Working (e.alerted p (.count c sets) index set) := (alike_alerted ..).working w
    obtain ⟨hscope, hown⟩ := fits_of_count w₁ hq
    have hyields := Count.forces_react (p := p) w₁.consistent.wellFormed hscope hown htracks index
    have hcalls : (Propagator.count c sets).Calls p _ _ :=
      Propagator.calls_react w₁.consistent.wellFormed
        (w₁.consistent.fits _ (List.mem_of_getElem? hq)) (lt_size_of_propagator w₁.consistent hq)
        htracks index set
    have hruns := runs_call w₁.consistent w₁.ready.failure (w₁.trackedBut p) hq hcalls
    have hencloses := encloses_call (e := e.alerted p (.count c sets) index set)
      w₁.consistent.wellFormed hscope ⟨h.box, h.closed, h.le⟩ hyields
    refine ends_bind_modify (Ends.bind ((hencloses.and hruns).mono (fun _ _ h => h)
      fun _ _ h => h.1) fun _ e' h => ?_)
    obtain ⟨h', ⟨w', hgoes⟩, htracks'⟩ := h
    exact ih w' (by rw [hgoes.propagators]; exact hq) h' htracks'

/-- A call from scratch. -/
lemma encloses_start :
    Ends (start p (.count c sets)) e (fun _ e' => e'.Encloses c B) fun _ _ => False := by
  obtain ⟨hscope, hown⟩ := fits_of_count w hq
  have hkept : Memory.Kept p [] e.memory (e.memory.setActivity p .active) :=
    .setActivity w.consistent.memory (lt_size_of_propagator w.consistent hq) nofun
  have w₁ : (e.activated p (.count c sets)).space.WellFormed :=
    ⟨w.consistent.store, hkept.wellFormed⟩
  have hyields := Count.forces_propagate (p := p) w₁ hscope (hown.kept hkept)
  rw [start]
  exact ends_bind_modify (encloses_call (e := e.activated p (.count c sets)) w₁ hscope
    ⟨h.box, h.closed, h.le⟩ hyields)

end Calls

/-- What the calls of a count end with, it has no grounds to narrow any more. -/
lemma Served.encloses (h : Served p (.count c sets) (fun _ => False) e e') (w : Working e')
    (hq : e'.propagators[p.index]? = some (.count c sets)) (hapart : c.Apart e.store) :
    e.Encloses c e'.store.domain := by
  have hsame := h.drives.store.sameVariables
  obtain ⟨hscope, hown⟩ := fits_of_count w hq
  have hapart' : (Propagator.count c sets).Apart e'.store :=
    Propagator.Apart.congr (q := .count c sets) hapart fun v _ => h.drives.store.shrinks.root v
  rcases h.stands.met_or_rests h.active hapart' with hmet | ⟨hact, hrests⟩
  · exact hmet.elim
  · refine ⟨w.consistent.store.box hsame.symm, ?_, fun v _ x => h.drives.store.shrinks.domain v x⟩
    exact Count.Rests.closed_forced hrests (fun _ => id) (w.ready.tracked p.index _ hq hact)
      w.consistent.memory hown fun v hv => w.consistent.store.domain_nonempty (hscope v hv)

/-! ### The two ways -/

/-- Both runs stop at an inconsistency, or both end, with the same domains. -/
def Concur (f g : Run Unit) (e : Engine) : Prop :=
  (∃ e₁ e₂, f e = .ok () e₁ ∧ g e = .ok () e₂ ∧
    ∀ v, e.store.has v = true → e₁.store.domain v = e₂.store.domain v) ∨
  ∃ i₁ i₂ e₁ e₂, f e = .error (.inconsistent i₁) e₁ ∧ g e = .error (.inconsistent i₂) e₂

/-- A count may be called for the events that it was told of, or from scratch. -/
lemma concur_deliver_start (w : Working e) (ho : e.Orderly) (hbut : AlertBut p e)
    (hq : e.propagators[p.index]? = some (.count c sets)) (hact : e.memory.activity p = .active)
    (hapart : c.Apart e.store)
    (hstands : (Propagator.count c sets).Stands p e.space fun i => i ∈ Assoc.keys events) :
    Concur (deliver p (.count c sets) events) (start p (.count c sets)) e := by
  have htracks : c.Tracks sets e.memory e.store.domain := w.ready.tracked p.index _ hq hact
  have hcalled : e.memory.activity p ≠ .inactive := fun h =>
    Activity.noConfusion (h.symm.trans hact)
  have hdeliver :=
    (serves_deliver w ho hbut hq hcalled hstands).and (runs_deliver w hq htracks events)
  have hstart := (serves_start w ho hbut hq).and (runs_start w hq)
  -- what one way ends with, the other one keeps
  have hencloses : ∀ {e'}, Served p (.count c sets) (fun _ => False) e e' →
      Working e' ∧ Goes e e' → e.Encloses c e'.store.domain := fun hserved hgoes =>
    hserved.encloses hgoes.1 (by rw [hgoes.2.propagators]; exact hq) hapart
  cases hrun₁ : deliver p (.count c sets) events e with
  | ok a e₁ =>
    obtain ⟨hserved₁, hgoes₁⟩ := Ends.of_ok hrun₁ hdeliver
    have h₁ := hencloses hserved₁ hgoes₁
    obtain ⟨a', e₂, hrun₂, h₁₂⟩ := (encloses_start w hq h₁).exists_ok
    obtain ⟨hserved₂, hgoes₂⟩ := Ends.of_ok hrun₂ hstart
    have h₂₁ := Ends.of_ok hrun₁ (encloses_deliver w hq (hencloses hserved₂ hgoes₂) htracks events)
    have hhas₁ := hserved₁.drives.store.shrinks.has
    have hhas₂ := hserved₂.drives.store.shrinks.has
    refine .inl ⟨e₁, e₂, hrun₁, hrun₂, fun v hv => IntervalSet.ext fun x => ⟨?_, ?_⟩⟩
    · exact h₁₂.le v ((hhas₂ v).trans hv) x
    · exact h₂₁.le v ((hhas₁ v).trans hv) x
  | error x e₁ =>
    obtain ⟨⟨i₁, rfl⟩, -⟩ := (Ends.of_error hrun₁ hdeliver).1
    cases hrun₂ : start p (.count c sets) e with
    | ok a' e₂ =>
      obtain ⟨hserved₂, hgoes₂⟩ := Ends.of_ok hrun₂ hstart
      exact (Ends.of_error hrun₁
        (encloses_deliver w hq (hencloses hserved₂ hgoes₂) htracks events)).elim
    | error x e₂ =>
      obtain ⟨⟨i₂, rfl⟩, -⟩ := (Ends.of_error hrun₂ hstart).1
      exact .inr ⟨i₁, i₂, e₁, e₂, hrun₁, hrun₂⟩

end Engine

end FiniteDomain
