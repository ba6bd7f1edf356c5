import Mathlib.Tactic
import FiniteDomain.Proofs.Propagator.Basic
import FiniteDomain.Proofs.Store.Driven
import FiniteDomain.Proofs.Store.Effects

/-!
What a propagator can do at all.

Going back to the current level gives up what the propagators have to be told, so that one may be
called while its sets are not up to date.  What it asks for then need not have grounds.  But all
that it can do is to narrow domains, and to change its own activity and its own sets.

* `Space.Trimmed`: what such a call leaves, whether it ends or stops;
* `Count.yields_any_propagate`, `Count.yields_any_react`: the one propagator that has sets,
  whatever is in them;
* `Propagator.confined_propagate`, `Propagator.confined_react`: all calls of the engine.
-/

namespace FiniteDomain

namespace Space

variable {J : Grounds} {p : PropId} {own : List SetId} {s t u : Space}

/-- Domains shrank, the last update may have been refused, and a propagator changed what it
owns. -/
structure Trimmed (p : PropId) (own : List SetId) (s t : Space) : Prop where
  store : s.store.Shrinks { t.store with failure := s.store.failure }
  memory : Memory.Kept p own s.memory t.memory

lemma Ran.trimmed (h : Ran J p own s t) (w : s.WellFormed) : Trimmed p own s t :=
  ⟨(h.store.driven w.store rfl).shrinks, h.memory⟩

lemma Stopped.trimmed {x : Stop} (h : Stopped J p own s x t) (w : s.WellFormed) :
    Trimmed p own s t := by
  cases x with
  | inconsistent i => exact ⟨(h.1.driven w.store rfl).shrinks, h.2⟩
  | exhausted => exact h.2.trimmed w

lemma trimmed_of_eq (w : s.WellFormed) (hstore : t.store = s.store)
    (hmemory : t.memory = s.memory) :
    Trimmed p own s t := by
  refine ⟨?_, ?_⟩
  · rw [hstore]
    exact .refl w.store
  · rw [hmemory]
    exact .refl w.memory

end Space

/-! ### Counts with any sets -/

namespace Count

open FiniteDomain.Filter

variable {c : Count} {sets : Sets} {p : PropId} {s : Space} (w : s.WellFormed)
  (hscope : ∀ v ∈ c.scope, s.store.has v = true)

include w hscope

lemma yields_any_takeAll (is : List Nat) :
    Yields .any p sets.own s (c.takeAll p sets is) fun _ _ => True := by
  induction is generalizing s with
  | nil => exact yields_pure w trivial
  | cons i is ih =>
    have hcertain : sets.certain ∈ sets.own := certain_mem_own
    rw [takeAll]
    refine (yields_onMemory (.insert w.memory hcertain)).bind fun _ t ht _ => ?_
    obtain ⟨wt, htscope, -⟩ := mem_of_ran w hscope ht
    cases hv : c.vars[i]? with
    | none => exact ih wt htscope
    | some v =>
      have hin : v ∈ c.scope := mem_scope_of_mem (List.mem_of_getElem? hv)
      have happly : Yields .any p sets.own t (apply p v (.equals c.value)) fun _ _ => True :=
        (yields_apply wt (htscope v hin) fun _ => trivial).mono fun _ _ _ _ => trivial
      refine (yields_discard happly).bind fun _ u hu _ => ?_
      obtain ⟨wu, huscope, -⟩ := mem_of_ran wt htscope hu
      exact ih wu huscope

lemma yields_any_takeNone (is : List Nat) :
    Yields .any p sets.own s (c.takeNone p is) fun _ _ => True := by
  induction is generalizing s with
  | nil => exact yields_pure w trivial
  | cons i is ih =>
    rw [takeNone]
    cases hv : c.vars[i]? with
    | none => exact ih w hscope
    | some v =>
      have hin : v ∈ c.scope := mem_scope_of_mem (List.mem_of_getElem? hv)
      have happly : Yields .any p sets.own s (apply p v (.differs c.value)) fun _ _ => True :=
        (yields_apply w (hscope v hin) fun _ => trivial).mono fun _ _ _ _ => trivial
      refine (yields_discard happly).bind fun _ t ht _ => ?_
      obtain ⟨wt, htscope, -⟩ := mem_of_ran w hscope ht
      exact ih wt htscope

lemma yields_any_filter : Yields .any p sets.own s (c.filter p sets) fun _ _ => True := by
  have hpossible : sets.possible ∈ sets.own := List.mem_cons_self
  have hcard : c.card ∈ c.scope := card_mem_scope
  have hbound : ∀ {t : Space} (op : Operation), t.WellFormed → t.store.has c.card = true →
      Yields .any p sets.own t (discard (apply p c.card op)) fun _ _ => True := fun op wt hv =>
    yields_discard ((yields_apply wt hv fun _ => trivial).mono fun _ _ _ _ => trivial)
  have hclear : ∀ {t : Space}, t.WellFormed →
      Yields .any p sets.own t (Filter.clear sets.possible) fun _ _ => True := fun wt =>
    (yields_onMemory (.clear wt.memory hpossible)).mono fun _ _ _ _ => trivial
  rw [filter]
  refine yields_memory ?_
  dsimp only
  refine (hbound _ w (hscope _ hcard)).bind fun _ t ht _ => ?_
  obtain ⟨wt, htscope, -⟩ := mem_of_ran w hscope ht
  refine (hbound _ wt (htscope _ hcard)).bind fun _ u hu _ => ?_
  obtain ⟨wu, huscope, -⟩ := mem_of_ran wt htscope hu
  refine yields_store ?_
  split
  case isFalse => exact yields_pure wu trivial
  split
  · exact (yields_any_takeAll wu huscope _).bind fun _ _ hran _ => hclear (hran.wellFormed wu)
  split
  · exact (yields_any_takeNone wu huscope _).bind fun _ _ hran _ => hclear (hran.wellFormed wu)
  · exact yields_pure wu trivial

lemma yields_any_propagate :
    Yields .any p sets.own s (c.propagate p sets) fun _ _ => True := by
  have hran : Space.Ran .any p sets.own s (c.sorted sets s) := ran_sorted w.memory
  exact .of_eq propagate_eq hran (yields_any_filter (hran.wellFormed w) hscope)

lemma yields_any_react (index : Nat) :
    Yields .any p sets.own s (c.react p sets index) fun _ _ => True := by
  cases ht : c.moved? sets index s with
  | none => exact .of_eq (react_eq_of_none ht) (.refl w) (yields_pure w trivial)
  | some t =>
    have hran : Space.Ran .any p sets.own s t := ran_moved w.memory ht
    obtain ⟨wt, htscope, -⟩ := mem_of_ran w hscope hran
    exact .of_eq (react_eq_of_some ht) hran (yields_any_filter wt htscope)

end Count

/-! ### All propagators -/

namespace Propagator

variable {q : Propagator} {p : PropId} {s : Space} {f : Filter Unit}

/-- A call that narrows domains and changes what the propagator owns, and nothing else. -/
def Confined (q : Propagator) (p : PropId) (s : Space) (f : Filter Unit) : Prop :=
  Ends f s (fun _ t => Space.Trimmed p q.own s t) fun _ t => Space.Trimmed p q.own s t

lemma Calls.confined (w : s.WellFormed) (h : q.Calls p s f) : q.Confined p s f :=
  Ends.mono h (fun _ _ h => h.1.trimmed w) fun _ _ h =>
    h.elim (fun h => h.trimmed w) fun h => Space.trimmed_of_eq w h.2.1 h.2.2

section Confined

variable (w : s.WellFormed) (hscope : ¬ q.IsObserver → ∀ v ∈ q.scope, s.store.has v = true)
  (hp : p.index < s.memory.activities.size)

include w hscope hp

lemma confined_propagate : q.Confined p s (q.propagate p) := by
  cases q with
  | count c sets =>
    exact Ends.mono (Count.yields_any_propagate w (hscope nofun)) (fun _ _ h => h.1.trimmed w)
      fun _ _ h => h.trimmed w
  | maximum c => exact (calls_propagate (q := maximum c) w (hscope nofun) hp).confined w
  | member c => exact (calls_propagate (q := member c) w (hscope nofun) hp).confined w
  | disjunction c => exact (calls_propagate (q := disjunction c) w (hscope nofun) hp).confined w
  | observer o => exact (calls_record w).confined w

lemma confined_react (index : Nat) (events : EventSet) :
    q.Confined p s (q.react p index events) := by
  cases q with
  | count c sets =>
    exact Ends.mono (Count.yields_any_react w (hscope nofun) index) (fun _ _ h => h.1.trimmed w)
      fun _ _ h => h.trimmed w
  | maximum c => exact confined_propagate (q := maximum c) w hscope hp
  | member c => exact confined_propagate (q := member c) w hscope hp
  | disjunction c => exact confined_propagate (q := disjunction c) w hscope hp
  | observer o => exact (calls_record w).confined w

end Confined

end Propagator

end FiniteDomain
