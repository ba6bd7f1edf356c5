import Mathlib.Tactic
import FiniteDomain.Proofs.Propagator.Basic
import FiniteDomain.Proofs.Propagator.CountRest
import FiniteDomain.Proofs.Propagator.DisjunctionRest
import FiniteDomain.Proofs.Propagator.MaximumRest

/-!
Propagators at rest.

After a call, a propagator either has nothing left to do for good and is passive, or it
rests: it can narrow nothing before the events come that it asked for.

* `Propagator.Met`, `Propagator.Rests`: nothing left to do, and at rest but for the indices
  that wait for an event, with `Propagator.Rests.shrink`: changes that are not asked for do
  not wake a propagator;
* `Propagator.Met.holds`: with nothing left to do, all values of the domains satisfy the
  constraint;
* `Propagator.Apart`, `Propagator.Independent`: the variables of a scope do not get into
  each other's way;
* `Propagator.Stands`: what the activity of a propagator says of the domains, with
  `Propagator.reaches_propagate` and `Propagator.reaches_react`: calls reach this;
* `Propagator.Stands.closed`: no request with grounds narrows anything then;
* `Propagator.Stands.quiet`: another call changes no domain;
* `Propagator.Stands.holds`: when all variables are fixed, the constraint holds.
-/

namespace FiniteDomain

namespace Propagator

variable {q : Propagator} {m m' : Memory} {dom dom' : VarId → IntervalSet}
  {waits waits' : Nat → Prop} {p : PropId} {s t : Space} {st st' : Store}

/-- The constraint is one that is accepted: there are elements to take the maximum of, and
literals, on different variables. -/
def Proper : Propagator → Prop
  | maximum c => c.array ≠ []
  | disjunction c => c.clause ≠ [] ∧ c.clause.Distinct
  | _ => True

/-- The cardinality and the maximum are on other roots than the variables that are counted,
or compared. -/
def Apart (st : Store) : Propagator → Prop
  | count c _ => c.Apart st
  | maximum c => c.Apart st
  | _ => True

/-- All variables of the scope are on different roots. -/
def Independent (st : Store) (q : Propagator) : Prop := (q.scope.map st.root).Nodup

instance (st : Store) (q : Propagator) : Decidable (q.Independent st) :=
  inferInstanceAs (Decidable (List.Nodup _))

instance (st : Store) (q : Propagator) : Decidable (q.Apart st) :=
  match q with
  | count c _ => inferInstanceAs (Decidable (∀ v ∈ c.vars, st.root v ≠ st.root c.card))
  | maximum c => inferInstanceAs (Decidable (∀ v ∈ c.array, st.root v ≠ st.root c.rhs))
  | member _ | disjunction _ | observer _ => .isTrue trivial

/-- Nothing is left to do, however the domains shrink. -/
def Met (dom : VarId → IntervalSet) : Propagator → Prop
  | maximum c => c.Met dom
  | member c => c.Met dom
  | disjunction c => c.Met dom
  | count _ _ => False
  | observer _ => True

/-- Nothing can be narrowed before a domain changes, but for the indices that wait for an
event. -/
def Rests (m : Memory) (dom : VarId → IntervalSet) (waits : Nat → Prop) : Propagator → Prop
  | count c sets => c.Rests sets m dom waits
  | maximum c => (∀ i, ¬ waits i) → c.Balanced dom
  | member _ => False
  | disjunction c => (∀ i, ¬ waits i) → c.Open dom
  | observer _ => True

/-- What the activity of the propagator says of the domains, as long as its variables do not
get into each other's way. -/
structure Stands (q : Propagator) (p : PropId) (s : Space) (waits : Nat → Prop) : Prop where
  rests : s.memory.activity p = .active → q.Apart s.store →
    q.Rests s.memory s.store.domain waits
  met : s.memory.activity p = .passive → q.Apart s.store → q.Met s.store.domain

/-! ### Different roots -/

lemma Apart.congr (h : q.Apart st) (hroot : ∀ v ∈ q.scope, st'.root v = st.root v) :
    q.Apart st' := by
  cases q with
  | count c sets =>
    intro v hv
    rw [hroot v (List.mem_append_left _ hv),
      hroot c.card (List.mem_append_right _ (List.mem_singleton_self _))]
    exact h v hv
  | maximum c =>
    intro v hv
    rw [hroot v (Maximum.mem_scope_of_mem hv), hroot c.rhs Maximum.rhs_mem_scope]
    exact h v hv
  | member c => trivial
  | disjunction c => trivial
  | observer o => trivial

lemma Independent.congr (h : q.Independent st) (hroot : ∀ v ∈ q.scope, st'.root v = st.root v) :
    q.Independent st' := by
  rw [Independent, List.map_congr_left hroot]
  exact h

/-- Variables on different roots are different. -/
lemma Independent.nodup (h : q.Independent st) : q.scope.Nodup := List.Nodup.of_map _ h

lemma Independent.root_ne (h : q.Independent st) {u v : VarId} (hu : u ∈ q.scope)
    (hv : v ∈ q.scope) (hne : u ≠ v) : st.root u ≠ st.root v :=
  fun heq => hne (List.inj_on_of_nodup_map h hu hv heq)

/-- A variable behind a list is different from those of the list. -/
lemma ne_of_nodup_append {vs : List VarId} {u v : VarId} (h : (vs ++ [v]).Nodup) (hu : u ∈ vs) :
    u ≠ v := by
  rintro rfl
  exact List.disjoint_of_nodup_append h hu (List.mem_singleton_self u)

lemma Independent.apart (h : q.Independent st) : q.Apart st := by
  cases q with
  | count c sets =>
    intro v hv
    exact h.root_ne (List.mem_append_left _ hv)
      (List.mem_append_right _ (List.mem_singleton_self _)) (ne_of_nodup_append h.nodup hv)
  | maximum c =>
    intro v hv
    exact h.root_ne (Maximum.mem_scope_of_mem hv) Maximum.rhs_mem_scope
      (ne_of_nodup_append h.nodup hv)
  | member c => trivial
  | disjunction c => trivial
  | observer o => trivial

/-! ### Smaller domains -/

lemma Met.mono (h : q.Met dom) (hsub : ∀ v ∈ q.scope, ∀ x, x ∈ dom' v → x ∈ dom v) :
    q.Met dom' := by
  cases q with
  | count c sets => exact h.elim
  | maximum c => exact Maximum.Met.mono h hsub
  | member c => exact Member.Met.mono h hsub
  | disjunction c => exact Disjunction.Met.mono h hsub
  | observer o => trivial

/-- When nothing is left to do, all values of the domains below the greatest one satisfy the
constraint. -/
lemma Met.holds (h : q.Met dom) (hproper : q.Proper) {values : VarId → Int}
    (hmem : ∀ v ∈ q.scope, values v ∈ dom v)
    (hbelow : ∀ v ∈ q.scope, values v < Value.greatest) : q.constraint.Holds values := by
  cases q with
  | count c sets => exact h.elim
  | maximum c => exact Maximum.Met.holds h hmem
  | member c => exact Member.Met.holds h hmem hbelow
  | disjunction c => exact Disjunction.Met.holds h hproper.1 hmem hbelow
  | observer o => trivial

/-- A change that is not asked for at any index that does not wait. -/
lemma Rests.shrink (h : q.Rests m dom waits) (hscope : ∀ v ∈ q.scope, ∀ x, x ∈ dom' v → x ∈ dom v)
    (hwaits : ∀ i, waits i → waits' i)
    (htold : ∀ i v, q.scope[i]? = some v → ¬ waits' i →
      ¬ (q.condition i).Concerns (dom v) (dom' v)) : q.Rests m dom' waits' := by
  have hindex : (∀ i, ¬ waits' i) → ∀ v ∈ q.scope, ∃ i,
      ¬ (q.condition i).Concerns (dom v) (dom' v) := by
    intro hnone v hv
    obtain ⟨i, hi⟩ := List.mem_iff_getElem?.1 hv
    exact ⟨i, htold i v hi (hnone i)⟩
  cases q with
  | count c sets =>
    refine Count.Rests.shrink h hscope fun i v hi hno => ⟨fun hw => hno (hwaits i hw), ?_⟩
    exact fun x hx => EventSet.mem_of_not_concerns (htold i v hi hno) hx
  | maximum c =>
    intro hnone
    refine (h fun i hi => hnone i (hwaits i hi)).congr fun v hv => ?_
    obtain ⟨i, hno⟩ := hindex hnone v hv
    exact EventSet.bounds_of_not_concerns hno
  | member c => exact h.elim
  | disjunction c =>
    intro hnone
    refine (h fun i hi => hnone i (hwaits i hi)).congr fun v hv x hx => ?_
    obtain ⟨i, hno⟩ := hindex hnone v hv
    exact EventSet.mem_of_not_concerns hno hx
  | observer o => trivial

/-- Only the members of the sets matter. -/
lemma Rests.congr (h : q.Rests m dom waits) (w : m.WellFormed) (w' : m'.WellFormed)
    (hmem : ∀ j ∈ q.own, ∀ e, (m'.set j).contains e = (m.set j).contains e) :
    q.Rests m' dom waits := by
  cases q with
  | count c sets => exact Count.Rests.congr h w w' hmem
  | maximum c => exact h
  | member c => exact h.elim
  | disjunction c => exact h
  | observer o => trivial

/-- The propagator stands while it keeps its activity and its sets, and domains change in
ways that are not asked for at the indices that do not wait. -/
lemma Stands.shrink (h : q.Stands p s waits) (w : s.memory.WellFormed) (w' : t.memory.WellFormed)
    (hact : t.memory.activity p = s.memory.activity p)
    (hmem : ∀ j ∈ q.own, ∀ e, (t.memory.set j).contains e = (s.memory.set j).contains e)
    (hroot : ∀ v ∈ q.scope, t.store.root v = s.store.root v)
    (hsub : ∀ v ∈ q.scope, ∀ x, x ∈ t.store.domain v → x ∈ s.store.domain v)
    (hwaits : ∀ i, waits i → waits' i)
    (htold : ∀ i v, q.scope[i]? = some v → s.memory.activity p = .active → ¬ waits' i →
      ¬ (q.condition i).Concerns (s.store.domain v) (t.store.domain v)) :
    q.Stands p t waits' where
  rests ha hapart := by
    rw [hact] at ha
    have hrests := h.rests ha (hapart.congr fun v hv => (hroot v hv).symm)
    exact (hrests.shrink hsub hwaits fun i v hi => htold i v hi ha).congr w w' hmem
  met ha hapart := by
    rw [hact] at ha
    exact (h.met ha (hapart.congr fun v hv => (hroot v hv).symm)).mono hsub

/-- The domains of the scope are the same, and the memory answers alike. -/
lemma Stands.congr (h : q.Stands p s waits) (w : s.memory.WellFormed) (w' : t.memory.WellFormed)
    (hact : t.memory.activity p = s.memory.activity p)
    (hmem : ∀ j ∈ q.own, ∀ e, (t.memory.set j).contains e = (s.memory.set j).contains e)
    (hroot : ∀ v ∈ q.scope, t.store.root v = s.store.root v)
    (hdom : ∀ v ∈ q.scope, t.store.domain v = s.store.domain v) : q.Stands p t waits := by
  refine h.shrink w w' hact hmem hroot (fun v hv x hx => hdom v hv ▸ hx) (fun _ => id) ?_
  intro i v hi _ _
  rw [hdom v (List.mem_of_getElem? hi)]
  exact EventSet.not_concerns_self

/-- More indices may wait. -/
lemma Stands.mono (h : q.Stands p s waits) (hwaits : ∀ i, waits i → waits' i) :
    q.Stands p s waits' where
  rests ha hapart := (h.rests ha hapart).shrink (fun _ _ _ => id) hwaits
    fun _ _ _ _ => EventSet.not_concerns_self
  met := h.met

/-- Nothing is expected of a propagator that has not been called. -/
lemma stands_of_inactive (h : s.memory.activity p = .inactive) : q.Stands p s waits where
  rests ha := by
    rw [h] at ha
    cases ha
  met ha := by
    rw [h] at ha
    cases ha

lemma stands_of_isObserver (hq : q.IsObserver) : q.Stands p s waits := by
  obtain ⟨o, rfl⟩ := hq
  exact ⟨fun _ _ => trivial, fun _ _ => trivial⟩

/-! ### Calls -/

section Calls

open FiniteDomain.Filter

variable (w : s.WellFormed) (hfits : q.Fits s.store s.memory) (hproper : q.Proper)
  (hp : p.index < s.memory.activities.size)

/-- What a call of an active propagator reaches. -/
def Reaches (q : Propagator) (p : PropId) (s : Space) (f : Filter Unit) (waits : Nat → Prop) :
    Prop :=
  Settles p q.own s f fun _ t => t.memory.activity p ≠ .inactive ∧ q.Stands p t waits

/-- One of the two ways in which a call may end. -/
lemma stands_of_or (hact : s.memory.activity p = .active)
    (hroot : ∀ v ∈ q.scope, t.store.root v = s.store.root v)
    (h : t.memory.activity p = .passive ∧ (q.Apart s.store → q.Met t.store.domain) ∨
      t.memory.activity p = s.memory.activity p ∧
        (q.Apart s.store → q.Rests t.memory t.store.domain waits)) :
    t.memory.activity p ≠ .inactive ∧ q.Stands p t waits := by
  have hback : q.Apart t.store → q.Apart s.store :=
    fun hapart => hapart.congr fun v hv => (hroot v hv).symm
  rcases h with ⟨hpassive, hmet⟩ | ⟨hsame, hrests⟩
  · rw [hpassive]
    refine ⟨nofun, fun ha => ?_, fun _ hapart => hmet (hback hapart)⟩
    rw [hpassive] at ha
    cases ha
  · rw [hact] at hsame
    rw [hsame]
    refine ⟨nofun, fun _ hapart => hrests (hback hapart), fun ha => ?_⟩
    rw [hsame] at ha
    cases ha

include w in
lemma settles_record {o : Observer} {call : Call} {own : List SetId} :
    Settles p own s (o.record call) fun _ t => t.memory = s.memory := by
  rw [Observer.record]
  have hran : Space.Ran .any p own s { s with calls := s.calls.push call } :=
    ⟨.refl, .refl w.memory⟩
  refine Ends.bind (Q := fun _ t => Space.Ran .any p own s t ∧ t.memory = s.memory)
    (ends_modify ⟨hran, rfl⟩) fun _ t ht => ends_bind_get ?_
  dsimp only
  split
  · split
    · exact ends_throw ⟨_, rfl⟩
    · exact ends_pure ht
  · exact ends_pure ht

/-- An observer that is not told to fail does not. -/
lemma quiet_record {o : Observer} (h : o.failAt = none) (call : Call) :
    ∃ t, o.record call s = .ok () t ∧ t.store = s.store := by
  have hends : Ends (o.record call) s (fun _ t => t.store = s.store) fun _ _ => False := by
    rw [Observer.record]
    refine ends_bind_modify (ends_bind_get ?_)
    dsimp only
    split
    · rw [h, if_neg (by simp)]
      exact ends_pure rfl
    · exact ends_pure rfl
  obtain ⟨_, t, hrun, hstore⟩ := hends.exists_ok
  exact ⟨t, hrun, hstore⟩

lemma roots_of_ran (h : Space.Ran .any p q.own s t) (w : s.WellFormed) :
    ∀ v ∈ q.scope, t.store.root v = s.store.root v :=
  fun v _ => (h.shrinks w).root v

include w hfits hproper hp

/-- A propagation from scratch ends in one of the two ways. -/
lemma settles_propagate : Settles p q.own s (q.propagate p) fun _ t =>
    t.memory.activity p = .passive ∧ (q.Apart s.store → q.Met t.store.domain) ∨
      t.memory.activity p = s.memory.activity p ∧
        (q.Apart s.store → q.Rests t.memory t.store.domain waits) := by
  cases q with
  | count c sets =>
    exact (Count.settles_propagate w hfits.1 hfits.2.2).mono fun _ _ _ => .inr
  | maximum c =>
    refine (Maximum.settles_propagate w hfits hp hproper).mono fun _ _ _ h => ?_
    exact h.imp_right fun h => ⟨h.1, fun _ _ => h.2⟩
  | member c =>
    refine (Member.settles_propagate w (hfits c.var Member.var_mem_scope) hp).mono ?_
    exact fun _ _ _ h => .inl ⟨h.1, fun _ => h.2⟩
  | disjunction c =>
    refine (Disjunction.settles_propagate w hfits hp hproper.1 hproper.2).mono fun _ _ _ h => ?_
    exact h.imp (fun h => ⟨h.1, fun _ => h.2⟩) fun h => ⟨h.1, fun _ _ => h.2⟩
  | observer o =>
    refine (settles_record w).mono fun _ t _ h => .inr ⟨?_, fun _ => trivial⟩
    rw [h]

variable (hact : s.memory.activity p = .active)

include hact

lemma reaches_propagate : q.Reaches p s (q.propagate p) waits :=
  (settles_propagate w hfits hproper hp).mono fun _ _ hran h =>
    stands_of_or hact (roots_of_ran hran w) h

/-- A propagation for an event, after which the index does not wait any more. -/
lemma reaches_react (htracks : q.Tracks s.memory s.store.domain) (h : q.Stands p s waits)
    (index : Nat) (events : EventSet) :
    q.Reaches p s (q.react p index events) fun i => waits i ∧ i ≠ index := by
  cases q with
  | count c sets =>
    refine (Count.settles_react w hfits.1 (h.rests hact) hfits.2.2 htracks).mono ?_
    exact fun _ _ hran h => stands_of_or hact (roots_of_ran hran w) (.inr h)
  | maximum c => exact reaches_propagate (q := maximum c) w hfits hproper hp hact
  | member c => exact reaches_propagate (q := member c) w hfits hproper hp hact
  | disjunction c => exact reaches_propagate (q := disjunction c) w hfits hproper hp hact
  | observer o =>
    refine (settles_record w).mono fun _ t hran h => ?_
    refine stands_of_or (q := observer o) hact (roots_of_ran (q := observer o) hran w)
      (.inr ⟨?_, fun _ => trivial⟩)
    rw [h]

end Calls

/-! ### At rest -/

/-- A call changes no domain if no request with grounds narrows anything. -/
lemma quiet_of_closed (w : s.WellFormed) (hfits : q.Fits s.store s.memory) (hproper : q.Proper)
    (hp : p.index < s.memory.activities.size) (hq : ¬ q.IsObserver)
    (hclosed : Grounds.Closed q.Justified s.store.domain) :
    ∃ t, q.propagate p s = .ok () t ∧ t.store = s.store := by
  have hcalls := calls_propagate w hfits hp
  have hsettles := @settles_propagate q (fun _ => True) p s w hfits hproper hp
  cases hrun : q.propagate p s with
  | ok a t => exact ⟨t, rfl, (Ends.of_ok hrun hcalls).1.store.eq_of_closed w.store hclosed⟩
  | error x t =>
    obtain ⟨i, rfl⟩ := Ends.of_error hrun hsettles
    rcases Ends.of_error hrun hcalls with ⟨hrefused, -⟩ | ⟨hobs, -⟩
    · exact absurd hclosed (hrefused.not_closed w.store)
    · exact absurd hobs hq

section Rest

variable (h : q.Stands p s waits) (hact : s.memory.activity p ≠ .inactive)

include h hact in
/-- A propagator that was called has nothing left to do, or rests. -/
lemma Stands.met_or_rests (hapart : q.Apart s.store) :
    q.Met s.store.domain ∨
      s.memory.activity p = .active ∧ q.Rests s.memory s.store.domain waits := by
  cases ha : s.memory.activity p with
  | inactive => exact absurd ha hact
  | active => exact .inr ⟨rfl, h.rests ha hapart⟩
  | passive => exact .inl (h.met ha hapart)

variable (hwaits : ∀ i, ¬ waits i) (w : s.WellFormed) (hfits : q.Fits s.store s.memory)
  (htracks : s.memory.activity p = .active → q.Tracks s.memory s.store.domain)

include hwaits w hfits htracks

/-- At rest, no request with grounds narrows anything. -/
lemma Rests.closed (hrests : q.Rests s.memory s.store.domain waits)
    (ha : s.memory.activity p = .active) (hindep : q.Independent s.store) :
    Grounds.Closed q.Justified s.store.domain := by
  cases q with
  | count c sets =>
    have hne : ∀ v ∈ c.scope, ∃ x, x ∈ s.store.domain v :=
      fun v hv => w.store.domain_nonempty (hfits.1 v hv)
    exact Count.Rests.closed hrests hwaits (htracks ha) w.memory hfits.2.2 hne
      (List.nodup_append.1 hindep.nodup).1
  | maximum c =>
    have hne : ∀ v ∈ c.scope, ∃ x, x ∈ s.store.domain v :=
      fun v hv => w.store.domain_nonempty (hfits v hv)
    exact (hrests hwaits).closed (List.nodup_append.1 hindep.nodup).1 hne
  | member c => exact hrests.elim
  | disjunction c => exact (hrests hwaits).closed
  | observer o => exact fun _ _ hJ => hJ.elim

include h hact in
/-- No request with grounds narrows anything, unless a variable has the greatest of all
values. -/
lemma Stands.closed (hproper : q.Proper) (hindep : q.Independent s.store)
    (hbelow : ∀ v ∈ q.scope, ∀ x, x ∈ s.store.domain v → x < Value.greatest) :
    Grounds.Closed q.Justified s.store.domain := by
  rcases h.met_or_rests hact hindep.apart with hmet | ⟨ha, hrests⟩
  · cases q with
    | count c sets => exact hmet.elim
    | maximum c =>
      exact Maximum.Met.closed hmet fun v hv => w.store.domain_nonempty (hfits v hv)
    | member c =>
      have hvar := Member.var_mem_scope (c := c)
      exact Member.Met.closed hmet (w.store.domain_nonempty (hfits _ hvar)) (hbelow _ hvar)
    | disjunction c =>
      exact Disjunction.Met.closed hmet hproper.1
        (fun v hv => w.store.domain_nonempty (hfits v hv)) hbelow
    | observer o => exact fun _ _ hJ => hJ.elim
  · exact hrests.closed hwaits w hfits htracks ha hindep

include h hact in
/-- Another call changes no domain. -/
lemma Stands.quiet (hproper : q.Proper) (hindep : q.Independent s.store)
    (hp : p.index < s.memory.activities.size) (hq : ¬ q.IsObserver) :
    ∃ t, q.propagate p s = .ok () t ∧ t.store = s.store := by
  rcases h.met_or_rests hact hindep.apart with hmet | ⟨ha, hrests⟩
  · cases q with
    | count c sets => exact hmet.elim
    | maximum c =>
      exact quiet_of_closed w hfits hproper hp hq
        (Maximum.Met.closed hmet fun v hv => w.store.domain_nonempty (hfits v hv))
    | member c => exact Member.quiet_of_met w (hfits _ Member.var_mem_scope) hmet
    | disjunction c => exact Disjunction.quiet_of_met w hfits hproper.1 hproper.2 hmet
    | observer o => exact absurd ⟨o, rfl⟩ hq
  · exact quiet_of_closed w hfits hproper hp hq
      (hrests.closed hwaits w hfits htracks ha hindep)

include h hact in
/-- When all variables of the scope are fixed, to values below the greatest one, they satisfy
the constraint. -/
lemma Stands.holds (hproper : q.Proper) (hapart : q.Apart s.store) {values : VarId → Int}
    (hfixed : ∀ v ∈ q.scope, ∀ x, x ∈ s.store.domain v ↔ x = values v)
    (hbelow : ∀ v ∈ q.scope, values v < Value.greatest) : q.constraint.Holds values := by
  rcases h.met_or_rests hact hapart with hmet | ⟨ha, hrests⟩
  · exact hmet.holds hproper (fun v hv => (hfixed v hv _).2 rfl) hbelow
  · cases q with
    | count c sets =>
      exact Count.Rests.holds hrests hwaits (htracks ha) w.memory hfits.2.2 hfixed
    | maximum c => exact Maximum.Balanced.holds hfixed (hrests hwaits)
    | member c => exact hrests.elim
    | disjunction c => exact Disjunction.Open.holds hfixed (hrests hwaits)
    | observer o => trivial

end Rest

end Propagator

end FiniteDomain
