import Mathlib.Tactic
import FiniteDomain.Proofs.Propagator.CountCalls
import FiniteDomain.Proofs.Propagator.Disjunction
import FiniteDomain.Proofs.Propagator.Maximum

/-!
Propagators and their grounds.

What is known of the single kinds of propagators is put together here.  Observers
never ask for anything.

* `Propagator.Justified`: the grounds of a propagator, with
  `Propagator.Justified.mono` and `Propagator.Justified.holds`;
* `Propagator.Fits`, `Propagator.Tracks`: what the engine promises a propagator, and
  what a propagator keeps up to date;
* `Propagator.explains_explain`: explanations are valid;
* `Propagator.calls_propagate`, `Propagator.calls_react`: the two calls of the engine.
-/

namespace FiniteDomain

namespace Propagator

variable {q : Propagator} {dom dom' : VarId → IntervalSet} {v : VarId} {op : Operation}

/-- The grounds on which the propagator narrows domains. -/
def Justified : Propagator → Grounds
  | count c _ => c.Justified
  | maximum c => c.Justified
  | member c => c.Justified
  | disjunction c => c.Justified
  | observer _ => fun _ _ _ => False

/-- The sets that the propagator owns. -/
def own : Propagator → List SetId
  | count _ sets => sets.own
  | _ => []

/-- The propagator only watches. -/
def IsObserver (q : Propagator) : Prop := ∃ o, q = observer o

instance (q : Propagator) : Decidable q.IsObserver :=
  match q with
  | .observer o => .isTrue ⟨o, rfl⟩
  | .count _ _ | .maximum _ | .member _ | .disjunction _ => .isFalse (by rintro ⟨_, ⟨⟩⟩)

/-- The variables of the propagator exist, and so do its sets.  A count has to fit
into a value. -/
def Fits (s : Store) (m : Memory) : Propagator → Prop
  | count c sets =>
    (∀ v ∈ c.scope, s.has v = true) ∧ (c.vars.length : Int) ≤ Value.greatest ∧ c.Owns sets m
  | maximum c => ∀ v ∈ c.scope, s.has v = true
  | member c => ∀ v ∈ c.scope, s.has v = true
  | disjunction c => ∀ v ∈ c.scope, s.has v = true
  | observer _ => True

/-- What the propagator remembers is up to date. -/
def Tracks (m : Memory) (dom : VarId → IntervalSet) : Propagator → Prop
  | count c sets => c.Tracks sets m dom
  | _ => True

lemma Justified.mem_scope (h : q.Justified dom v op) : v ∈ q.scope := by
  cases q with
  | count c sets => exact Count.Justified.mem_scope h
  | maximum c => exact Maximum.Justified.mem_scope h
  | member c => exact Member.Justified.mem_scope h
  | disjunction c => exact Disjunction.Justified.mem_scope h
  | observer o => exact h.elim

/-- Grounds are not lost when the domains of the scope shrink. -/
lemma Justified.mono (hsub : ∀ u ∈ q.scope, ∀ x, x ∈ dom' u → x ∈ dom u)
    (h : q.Justified dom v op) : q.Justified dom' v op := by
  cases q with
  | count c sets => exact Count.Justified.mono hsub h
  | maximum c => exact Maximum.Justified.mono hsub h
  | member c => exact Member.Justified.mono hsub h
  | disjunction c => exact Disjunction.Justified.mono hsub h
  | observer o => exact h.elim

/-- A solution of the constraint within the domains satisfies every justified
request. -/
lemma Justified.holds {values : VarId → Int} (hin : ∀ u ∈ q.scope, values u ∈ dom u)
    (hc : q.constraint.Holds values) (h : q.Justified dom v op) : op.Holds (values v) := by
  cases q with
  | count c sets => exact Count.Justified.holds hin hc h
  | maximum c => exact Maximum.Justified.holds hin hc h
  | member c => exact Member.Justified.holds hin hc h
  | disjunction c => exact Disjunction.Justified.holds hin hc h
  | observer o => exact h.elim

lemma Tracks.mono {m : Memory} (h : q.Tracks m dom)
    (hsub : ∀ u ∈ q.scope, ∀ x, x ∈ dom' u → x ∈ dom u) : q.Tracks m dom' := by
  cases q with
  | count c sets => exact Count.Tracks.mono h hsub
  | _ => trivial

lemma Tracks.congr {m m' : Memory} (h : q.Tracks m dom)
    (hmem : ∀ j ∈ q.own, ∀ e, (m'.set j).contains e = (m.set j).contains e) :
    q.Tracks m' dom := by
  cases q with
  | count c sets => exact Count.Tracks.congr h hmem
  | _ => trivial

lemma Fits.has {s : Store} {m : Memory} (h : q.Fits s m) (hq : ¬ q.IsObserver) :
    ∀ v ∈ q.scope, s.has v = true := by
  cases q with
  | count c sets => exact h.1
  | maximum c => exact h
  | member c => exact h
  | disjunction c => exact h
  | observer o => exact absurd ⟨o, rfl⟩ hq

lemma Justified.not_isObserver (h : q.Justified dom v op) : ¬ q.IsObserver := by
  rintro ⟨o, rfl⟩
  exact h

/-- What the engine promises stays true as long as variables and sets stay. -/
lemma Fits.mono {s s' : Store} {m m' : Memory} (h : q.Fits s m)
    (hhas : ∀ v, s.has v = true → s'.has v = true)
    (hcap : ∀ j ∈ q.own, (m'.set j).capacity = (m.set j).capacity) : q.Fits s' m' := by
  cases q with
  | count c sets =>
    obtain ⟨hscope, hlen, hown⟩ := h
    refine ⟨fun v hv => hhas v (hscope v hv), hlen, hown.ne, ?_, ?_⟩
    · rw [hcap _ List.mem_cons_self, hown.possible]
    · rw [hcap _ (List.mem_cons_of_mem _ (List.mem_singleton_self _)), hown.certain]
  | maximum c => exact fun v hv => hhas v (h v hv)
  | member c => exact fun v hv => hhas v (h v hv)
  | disjunction c => exact fun v hv => hhas v (h v hv)
  | observer o => trivial

/-- The explanations of propagators are valid. -/
lemma explains_explain {s : Store} {m : Memory} {p : Nat} {r : Request} (w : s.WellFormed)
    (hfits : q.Fits s m) (site : s.Site p r)
    (hJ : q.Justified (fun v => s.domainAt v p) r.var r.operation) :
    s.Explains q.constraint p r (q.explain s p r) := by
  cases q with
  | count c sets => exact Count.explains_explain w hfits.1 hfits.2.1 site hJ
  | maximum c => exact Maximum.explains_explain w hfits site hJ
  | member c => exact Member.explains_explain w site hJ
  | disjunction c => exact Disjunction.explains_explain hfits site hJ
  | observer o => exact hJ.elim

/-! ### Calls -/

/-- What a call of the propagator does: it narrows domains on its grounds and keeps
its sets up to date.  An observer that stops has done nothing. -/
def Calls (q : Propagator) (p : PropId) (s : Space) (f : Filter Unit) : Prop :=
  Ends f s
    (fun _ t => Space.Ran q.Justified p q.own s t ∧ q.Tracks t.memory t.store.domain)
    fun x t => Space.Stopped q.Justified p q.own s x t ∨
      q.IsObserver ∧ t.store = s.store ∧ t.memory = s.memory

section Calls

variable {p : PropId} {s : Space} {f : Filter Unit}

lemma calls_of_yields {Q : Unit → Space → Prop}
    (h : Filter.Yields q.Justified p q.own s f Q)
    (hQ : ∀ a t, Q a t → q.Tracks t.memory t.store.domain) : q.Calls p s f :=
  Ends.mono h (fun a t ht => ⟨ht.1, hQ a t ht.2⟩) fun _ _ => .inl

variable (w : s.WellFormed)

include w in
/-- An observer does nothing to domains and memory. -/
lemma calls_record {o : Observer} {call : Call} :
    (observer o).Calls p s (o.record call) := by
  have hsame : ∀ {t : Space}, t.store = s.store → t.memory = s.memory →
      Space.Ran (observer o).Justified p (observer o).own s t := by
    intro t hstore hmemory
    refine ⟨?_, ?_⟩
    · rw [hstore]
      exact .refl
    · rw [hmemory]
      exact .refl w.memory
  rw [Observer.record]
  refine Ends.bind (Q := fun _ t => t.store = s.store ∧ t.memory = s.memory)
    (ends_modify ⟨rfl, rfl⟩) fun _ t ht => ends_bind_get ?_
  dsimp only
  split
  · split
    · exact ends_throw (.inr ⟨⟨o, rfl⟩, ht⟩)
    · exact ends_pure ⟨hsame ht.1 ht.2, trivial⟩
  · exact ends_pure ⟨hsame ht.1 ht.2, trivial⟩

variable (hfits : q.Fits s.store s.memory) (hp : p.index < s.memory.activities.size)

include w hfits hp in
/-- A propagation from scratch. -/
lemma calls_propagate : q.Calls p s (q.propagate p) := by
  cases q with
  | count c sets => exact calls_of_yields (Count.yields_propagate w hfits.1 hfits.2.2) fun _ _ => id
  | maximum c => exact calls_of_yields (Maximum.yields_propagate w hfits hp) fun _ _ _ => trivial
  | member c =>
    have hvar := hfits c.var Member.var_mem_scope
    exact calls_of_yields (Member.yields_propagate w hvar hp) fun _ _ _ => trivial
  | disjunction c =>
    exact calls_of_yields (Disjunction.yields_propagate w hfits hp) fun _ _ _ => trivial
  | observer o => exact calls_record w

include w hfits hp in
/-- A propagation for events. -/
lemma calls_react (htracks : q.Tracks s.memory s.store.domain) (index : Nat)
    (events : EventSet) : q.Calls p s (q.react p index events) := by
  cases q with
  | count c sets =>
    exact calls_of_yields (Count.yields_react w hfits.1 hfits.2.2 htracks index) fun _ _ => id
  | maximum c => exact calls_propagate (q := maximum c) w hfits hp
  | member c => exact calls_propagate (q := member c) w hfits hp
  | disjunction c => exact calls_propagate (q := disjunction c) w hfits hp
  | observer o => exact calls_record w

end Calls

end Propagator

end FiniteDomain
