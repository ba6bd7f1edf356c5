import Mathlib.Tactic
import FiniteDomain.Proofs.Engine.Actions

/-!
New constraints.

A constraint that is accepted gets one propagator, which stands for it.  What the
memory sets aside for the propagator is new.

* `Constraint.Fits`: the sizes that the engine can count with;
* `Constraint.makes_propagator`: the propagator of a constraint, and its memory;
* `Engine.Posts`: the engine after some constraints of a list were accepted, with
  `Engine.posts_add` and `Engine.posts_post`.
-/

namespace FiniteDomain

/-- The number of the variables that are counted is a value; a greater one could not be
compared with the cardinality. -/
def Constraint.Fits : Constraint → Prop
  | .count c => (c.vars.length : Int) ≤ Value.greatest
  | _ => True

/-- The propagator `q` stands for the constraint, and `m'` is the memory with room for
it. -/
structure Constraint.Makes (c : Constraint) (m : Memory) (q : Propagator) (m' : Memory) :
    Prop where
  grows : m.Grows m'
  size : m'.activities.size = m.activities.size
  own : ∀ k ∈ q.own, m.sets.size ≤ k.index ∧ k.index < m'.sets.size
  holds : ∀ values, q.constraint.Holds values ↔ c.Holds values
  fits : ∀ s : Store, c.Fits → (¬ q.IsObserver → ∀ v ∈ q.scope, s.has v = true) → q.Fits s m'

/-- A propagator without sets needs no room. -/
lemma Constraint.makes_same {c : Constraint} {m : Memory} {q : Propagator} (w : m.WellFormed)
    (hown : q.own = []) (hholds : ∀ values, q.constraint.Holds values ↔ c.Holds values)
    (hfits : ∀ s : Store, (¬ q.IsObserver → ∀ v ∈ q.scope, s.has v = true) → q.Fits s m) :
    c.Makes m q m where
  grows := .refl w
  size := rfl
  own k hk := by
    rw [hown] at hk
    cases hk
  holds := hholds
  fits s _ := hfits s

lemma Constraint.makes_count {c : Count} {m : Memory} (w : m.WellFormed) :
    (Constraint.count c).Makes m
      (.count c ⟨(m.addSet c.vars.length).1, ((m.addSet c.vars.length).2.addSet c.vars.length).1⟩)
      ((m.addSet c.vars.length).2.addSet c.vars.length).2 := by
  have hfirst := Memory.grows_addSet w c.vars.length
  have hsecond := Memory.grows_addSet hfirst.wellFormed c.vars.length
  have hlt : (m.addSet c.vars.length).1.index < (m.addSet c.vars.length).2.sets.size := by
    simp [Memory.addSet]
  refine ⟨hfirst.trans hsecond, rfl, fun k hk => ?_, fun _ => Iff.rfl, fun s hlen hscope => ?_⟩
  · simp only [Propagator.own, Count.Sets.own, List.mem_cons, List.not_mem_nil, or_false] at hk
    rcases hk with rfl | rfl <;> simp [Memory.addSet]
  · refine ⟨hscope ?_, hlen, fun h => ?_, ?_, ?_⟩
    · rintro ⟨o, ho⟩
      cases ho
    · have := congrArg SetId.index h
      simp [Memory.addSet] at this
    · rw [hsecond.set _ hlt, Memory.set_addSet_new]
      exact Array.size_range
    · rw [Memory.set_addSet_new]
      exact Array.size_range

lemma Constraint.makes_propagator {c : Constraint} {m m' : Memory} {q : Propagator}
    (w : m.WellFormed) (h : c.propagator m = .ok (q, m')) : c.Makes m q m' := by
  cases c with
  | count c =>
    cases h
    exact makes_count w
  | maximum c =>
    rw [propagator] at h
    split at h
    · cases h
    · cases h
      exact makes_same w rfl (fun _ => Iff.rfl) fun s hscope => hscope nofun
  | member c =>
    cases h
    exact makes_same w rfl (fun _ => Iff.rfl) fun s hscope => hscope nofun
  | disjunction ls =>
    cases h
    refine makes_same w rfl (fun values => ?_) fun s hscope => hscope nofun
    change Clause.Holds values (Clause.addAll ls []) ↔ Clause.Holds values ls
    rw [Clause.holds_addAll, or_iff_left Clause.not_holds_nil]
  | observer o =>
    rw [propagator] at h
    split at h
    · cases h
    · cases h
      exact makes_same w rfl (fun _ => Iff.rfl) fun _ _ => trivial

namespace Engine

variable {e e' e'' : Engine} {c : Constraint} {cs cs' : List Constraint} {q : Propagator}

/-- All variables of a propagator that narrows domains are looked up. -/
lemma has_of_unknown?_eq_none (h : e.unknown? q = none) (hq : ¬ q.IsObserver) :
    ∀ v ∈ q.scope, e.store.has v = true := by
  intro v hv
  obtain ⟨i, hi, hget⟩ := List.getElem_of_mem hv
  rw [unknown?, Option.map_eq_none_iff, List.find?_eq_none] at h
  have := h (v, i) (List.mem_zipIdx_iff_getElem?.2 (List.getElem?_eq_some_iff.2 ⟨hi, hget⟩))
  have hcond : (q.condition i).isEmpty = false := by
    cases q with
    | observer o => exact absurd ⟨o, rfl⟩ hq
    | _ => rfl
  simpa [hcond] using this

/-- The propagator says what the constraint says. -/
def StandsFor (q : Propagator) (c : Constraint) : Prop :=
  ∀ values, q.constraint.Holds values ↔ c.Holds values

/-- Some constraints, the first ones of the list, got their propagators; nothing else
changed. -/
structure Posts (cs : List Constraint) (e e' : Engine) : Prop where
  invariant : e'.Invariant
  store : e'.store = e.store
  infeasible : e'.infeasible = e.infeasible
  propagators : ∃ new : List Propagator, e'.propagators = e.propagators ++ new ∧
    List.Forall₂ StandsFor new (cs.take new.length)

lemma Posts.continues (h : Posts cs e e') : e.store.Continues e'.store := by
  rw [h.store]
  exact .refl _

/-- The constraints that got propagators. -/
lemma Posts.exists_constraint (h : Posts cs e e') (hq : q ∈ e'.propagators) :
    q ∈ e.propagators ∨
      ∃ c ∈ cs.take (e'.propagators.length - e.propagators.length), StandsFor q c := by
  obtain ⟨new, hnew, hholds⟩ := h.propagators
  rw [hnew, List.length_append, Nat.add_sub_cancel_left]
  rw [hnew] at hq
  refine (List.mem_append.1 hq).imp_right fun hq => ?_
  obtain ⟨i, hi, rfl⟩ := List.getElem_of_mem hq
  exact ⟨_, List.getElem_mem (hholds.length_eq ▸ hi), hholds.get hi (hholds.length_eq ▸ hi)⟩

lemma Posts.exists_propagator (h : Posts cs e e')
    (hc : c ∈ cs.take (e'.propagators.length - e.propagators.length)) :
    ∃ q ∈ e'.propagators, StandsFor q c := by
  obtain ⟨new, hnew, hholds⟩ := h.propagators
  rw [hnew, List.length_append, Nat.add_sub_cancel_left] at hc
  obtain ⟨i, hi, rfl⟩ := List.getElem_of_mem hc
  have hi' : i < new.length := hholds.length_eq ▸ hi
  refine ⟨new[i], ?_, hholds.get hi' hi⟩
  rw [hnew]
  exact List.mem_append_right _ (List.getElem_mem hi')

lemma Posts.of_alike (h : Alike e e') (hstore : e'.store = e.store) (inv : e.Invariant) :
    Posts cs e e' :=
  ⟨h.invariant inv, hstore, h.infeasible, [], by rw [h.propagators, List.append_nil],
    by simp⟩

lemma Posts.refl (inv : e.Invariant) : Posts cs e e := .of_alike (.refl e) rfl inv

/-- The constraints behind those that were looked at do not matter. -/
lemma Posts.append (h : Posts cs e e') (cs' : List Constraint) : Posts (cs ++ cs') e e' := by
  obtain ⟨new, hnew, hholds⟩ := h.propagators
  refine ⟨h.invariant, h.store, h.infeasible, new, hnew, ?_⟩
  have hlen := hholds.length_eq
  rw [List.length_take] at hlen
  rwa [List.take_append_of_le_length (by omega)]

/-- Constraints posted after one that was accepted. -/
lemma Posts.cons (h : Posts [c] e e') (hone : e'.propagators.length = e.propagators.length + 1)
    (h' : Posts cs e' e'') : Posts (c :: cs) e e'' := by
  obtain ⟨new, hnew, hholds⟩ := h.propagators
  obtain ⟨new', hnew', hholds'⟩ := h'.propagators
  have hlen : new.length = 1 := by
    rw [hnew, List.length_append] at hone
    omega
  obtain ⟨q, rfl⟩ := List.length_eq_one_iff.1 hlen
  refine ⟨h'.invariant, h'.store.trans h.store, h'.infeasible.trans h.infeasible, q :: new', ?_, ?_⟩
  · rw [hnew', hnew, List.append_assoc, List.singleton_append]
  · rw [List.length_cons, List.take_succ_cons]
    exact .cons (by simpa using hholds) hholds'

/-- The engine with the propagator of an accepted constraint. -/
lemma posts_accept (inv : e.Invariant) (hnone : e.conflict = none) (hc : c.Fits) {m : Memory}
    (hmakes : c.Makes e.memory q m) (hunknown : e.unknown? q = none) :
    Posts [c] e (e.accept q m) ∧
      (e.accept q m).propagators.length = e.propagators.length + 1 := by
  have hpropagators : (e.accept q m).propagators = e.propagators ++ [q] := by
    simp [propagators, accept]
  have hfits : q.Fits e.store m.addActivity :=
    (hmakes.fits e.store hc (has_of_unknown?_eq_none hunknown)).mono (fun _ hv => hv)
      fun _ _ => rfl
  obtain ⟨hconsistent, hready⟩ := inv.consistent.addPropagator hmakes.grows hmakes.size hfits
    hmakes.own
  refine ⟨⟨⟨?_, fun _ => ?_, fun h => ?_⟩, rfl, rfl, [q], hpropagators, ?_⟩, ?_⟩
  · rw [hpropagators]
    exact hconsistent
  · rw [hpropagators]
    exact hready (inv.ready hnone)
  · rw [show (e.accept q m).conflict = e.conflict from rfl, hnone] at h
    cases h
  · exact .cons hmakes.holds .nil
  · rw [hpropagators, List.length_append, List.length_singleton]

/-- The reasons that only clauses without a possible literal give. -/
def Condemns (reason : PostError) : Prop :=
  reason = .infeasibleClause ∨ reason = .unsupportedDerivation

/-- A constraint that is accepted gets one propagator; one that is refused gets none, and
the problem is not said to have no solution. -/
def Accepted (e e' : Engine) : Except PostError PropId → Prop
  | .ok _ => e'.propagators.length = e.propagators.length + 1
  | .error reason => e'.propagators.length = e.propagators.length ∧ ¬ Condemns reason

lemma posts_add (inv : e.Invariant) (hc : c.Fits) :
    Ends (add c) e (fun r e' => Posts [c] e e' ∧ Accepted e e' r)
      fun _ e' => Posts [c] e e' ∧ e'.propagators.length = e.propagators.length := by
  have hkept : Posts [c] e e ∧ e.propagators.length = e.propagators.length := ⟨.refl inv, rfl⟩
  rw [add]
  refine ends_bind_get ?_
  split
  · exact ends_pure ⟨hkept.1, rfl, by simp [Condemns]⟩
  refine ends_bind_require hkept fun hidle => ?_
  have hnone : e.conflict = none := by simpa [isFailed] using hidle
  split
  · rename_i reason hrefused
    refine ends_pure ⟨hkept.1, rfl, ?_⟩
    cases c <;> simp only [Constraint.propagator] at hrefused
    · cases hrefused
    · split at hrefused <;> cases hrefused
      simp [Condemns]
    · cases hrefused
    · cases hrefused
    · split at hrefused <;> cases hrefused
      simp [Condemns]
  · rename_i q m hmade
    have hmakes := Constraint.makes_propagator inv.consistent.memory hmade
    split
    · exact ends_pure ⟨hkept.1, rfl, by simp [Condemns]⟩
    · split
      · exact ends_throw hkept
      · rename_i hunknown
        have h := posts_accept inv hnone hc hmakes hunknown
        exact ends_bind_set (ends_pure h)

/-- Constraints are posted up to the first that is not accepted. -/
lemma posts_post (inv : e.Invariant) (hcs : ∀ c ∈ cs, c.Fits) :
    Ends (post cs) e
      (fun r e' => Posts cs e e' ∧ ∀ reason, r = .error reason →
        e'.propagators.length < e.propagators.length + cs.length ∧ ¬ Condemns reason)
      fun _ e' => Posts cs e e' ∧
        e'.propagators.length < e.propagators.length + cs.length := by
  induction cs generalizing e with
  | nil => exact ends_pure ⟨.refl inv, nofun⟩
  | cons c cs ih =>
    rw [post]
    refine Ends.bind (Q := fun r e' => Posts [c] e e' ∧ Accepted e e' r)
      (E := fun _ e' => Posts (c :: cs) e e' ∧
        e'.propagators.length < e.propagators.length + (c :: cs).length) ?_ fun r e' h => ?_
    · refine (posts_add inv (hcs c List.mem_cons_self)).mono (fun _ _ h => h)
        fun _ _ h => ⟨h.1.append cs, ?_⟩
      rw [h.2, List.length_cons]
      omega
    cases r with
    | error reason =>
      refine ends_pure ⟨h.1.append cs, ?_⟩
      rintro _ ⟨rfl⟩
      rw [h.2.1, List.length_cons]
      exact ⟨by omega, h.2.2⟩
    | ok p =>
      have hone : e'.propagators.length = e.propagators.length + 1 := h.2
      refine (ih h.1.invariant fun c' hc' => hcs c' (List.mem_cons_of_mem c hc')).mono
        (fun r e'' h' => ⟨h.1.cons hone h'.1, fun reason hr => ?_⟩)
        fun _ e'' h' => ⟨h.1.cons hone h'.1, ?_⟩
      · obtain ⟨hlt, hreason⟩ := h'.2 reason hr
        rw [List.length_cons]
        exact ⟨by omega, hreason⟩
      · have hlt := h'.2
        rw [List.length_cons]
        omega

end Engine

end FiniteDomain
