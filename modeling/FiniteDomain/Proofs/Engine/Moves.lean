import Mathlib.Tactic
import FiniteDomain.Engine.Learning
import FiniteDomain.Proofs.Engine.Actions
import FiniteDomain.Proofs.Engine.Analysis
import FiniteDomain.Proofs.Engine.Posting

/-!
What calls of the engine are made of.

But for decisions, checkpoints and going back, every call of the engine is a sequence of
moves of five kinds.  So whatever the moves keep, the calls keep.

* `Engine.Move`: one move, and `Engine.Moves`: several, with `Engine.Move.invariant`: the
  moves keep the invariant;
* `Engine.Travels`: a call that is a sequence of moves, with `Engine.travels_add`,
  `Engine.travels_build` and others;
* `Engine.travels_handleConflict`: moves, going back, and moves again.
-/

namespace FiniteDomain

/-- The note is neither on events nor on a call of a propagator. -/
def Note.Quiet : Note → Prop
  | propagated _ _ | reacted _ _ _ _ | raised _ _ _ => False
  | _ => True

namespace Engine

variable {e e' e'' : Engine} {q : Propagator} {m : Memory}

/-- The engines differ in their accounts only. -/
structure Accounts (e e' : Engine) : Prop where
  space : e'.space = e.space
  slots : e'.slots = e.slots
  agenda : e'.agenda = e.agenda
  phase : e'.phase = e.phase
  conflict : e'.conflict = e.conflict
  journal : ∃ ns : List Note, (∀ n ∈ ns, n.Quiet) ∧ e'.journal.toList = e.journal.toList ++ ns

/-- A move of the engine. -/
inductive Move : Engine → Engine → Prop
  | account {e e' : Engine} (h : Accounts e e') : Move e e'
  | newRoot (e : Engine) {d : IntervalSet} (hd : ∃ x, x ∈ d) (hr : d.InRange) :
    Move e { e with space := { e.space with store := (e.store.addRoot d).2 } }
  | newView (e : Engine) {w : View} (hb : e.store.has w.base = true)
    (hneg : w.condition = .negation → ∀ y, y ∈ e.store.initial w.base → y = 0 ∨ y = 1) :
    Move e { e with space := { e.space with store := (e.store.addView w).2 } }
  | accept {e : Engine} {c : Constraint} {q : Propagator} {m : Memory} (hnone : e.conflict = none)
    (hfits : c.Fits) (hmade : c.propagator e.memory = .ok (q, m)) (hscope : q.scope ≠ [])
    (hunknown : e.unknown? q = none) : Move e (e.accept q m)
  | propagate {e e' : Engine}
    (h : (∃ r, propagate e = .ok r e') ∨ ∃ x, propagate e = .error x e') : Move e e'

/-- Several moves. -/
def Moves : Engine → Engine → Prop := Relation.ReflTransGen Move

lemma Moves.refl (e : Engine) : Moves e e := Relation.ReflTransGen.refl

lemma Moves.trans (h : Moves e e') (h' : Moves e' e'') : Moves e e'' :=
  Relation.ReflTransGen.trans h h'

lemma Move.moves (h : Move e e') : Moves e e' := Relation.ReflTransGen.single h

lemma Accounts.moves (h : Accounts e e') : Moves e e' := (Move.account h).moves

/-- What every move keeps, moves keep. -/
lemma Moves.induct {P : Engine → Prop} (h : Moves e e') (hstep : ∀ e e', Move e e' → P e → P e')
    (he : P e) : P e' := by
  induction h with
  | refl => exact he
  | tail _ hmove ih => exact hstep _ _ hmove ih

/-! ### Accounts -/

lemma Accounts.of_journal_eq (hspace : e'.space = e.space) (hslots : e'.slots = e.slots)
    (hagenda : e'.agenda = e.agenda) (hphase : e'.phase = e.phase)
    (hconflict : e'.conflict = e.conflict) (hjournal : e'.journal = e.journal) :
    Accounts e e' :=
  ⟨hspace, hslots, hagenda, hphase, hconflict, [], by simp, by simp [hjournal]⟩

lemma Accounts.refl (e : Engine) : Accounts e e := .of_journal_eq rfl rfl rfl rfl rfl rfl

lemma accounts_note (e : Engine) {n : Note} (hn : n.Quiet) : Accounts e (e.note n) :=
  ⟨rfl, rfl, rfl, rfl, rfl, [n], by simpa using hn, by simp [note]⟩

lemma accounts_count (e : Engine) (f : Counters → Counters) : Accounts e (e.count f) :=
  .of_journal_eq rfl rfl rfl rfl rfl rfl

lemma accounts_rename (e : Engine) (v : VarId) (name : Option String) :
    Accounts e (e.rename v name) := by
  cases name <;> exact .of_journal_eq rfl rfl rfl rfl rfl rfl

/-- What differs when the accounts do. -/
lemma Accounts.exists_eq (h : Accounts e e') : ∃ infeasible counters names strategy journal,
    e' = { e with
      infeasible := infeasible, counters := counters, names := names, strategy := strategy,
      journal := journal } := by
  obtain ⟨space, slots, agenda, phase, conflict⟩ := e
  obtain ⟨space', slots', agenda', phase', conflict'⟩ := e'
  cases h.space
  cases h.slots
  cases h.agenda
  cases h.phase
  cases h.conflict
  exact ⟨_, _, _, _, _, rfl⟩

lemma Accounts.propagators (h : Accounts e e') : e'.propagators = e.propagators := by
  rw [Engine.propagators, Engine.propagators, h.slots]

lemma Accounts.invariant (h : Accounts e e') (inv : e.Invariant) : e'.Invariant where
  consistent := by
    rw [h.space, h.propagators]
    exact inv.consistent
  ready hnone := by
    rw [h.conflict] at hnone
    rw [h.space, h.propagators]
    exact inv.ready hnone
  failed hsome hobs := by
    rw [h.conflict] at hsome
    rw [h.propagators] at hobs
    rw [Engine.store, h.space]
    exact inv.failed hsome hobs

/-- Moves keep the invariant. -/
lemma Move.invariant (h : Move e e') (inv : e.Invariant) : e'.Invariant := by
  cases h with
  | account h => exact h.invariant inv
  | newRoot hd hr =>
    exact (invariant_extend inv (inv.consistent.store.addRoot hd hr) (Store.extends_addRoot _ _)
      rfl rfl).1
  | newView hb hneg =>
    exact (invariant_extend inv (inv.consistent.store.addView hb hneg) (Store.extends_addView _ _)
      rfl rfl).1
  | accept hnone hfits hmade _ hunknown =>
    exact (posts_accept inv hnone hfits (Constraint.makes_propagator inv.consistent.memory hmade)
      hunknown).1.invariant
  | propagate h =>
    have hkeeps := keeps_propagate inv
    rcases h with ⟨r, hrun⟩ | ⟨x, hrun⟩
    · exact (Ends.of_ok hrun hkeeps).1
    · exact (Ends.of_error hrun hkeeps).1

lemma Moves.invariant (h : Moves e e') (inv : e.Invariant) : e'.Invariant :=
  h.induct (fun _ _ hmove => hmove.invariant) inv

/-! ### Calls -/

/-- Whatever comes of the call, it is a sequence of moves. -/
def Travels {α : Type} (f : Action α) (e : Engine) : Prop :=
  Ends f e (fun _ e' => Moves e e') fun _ e' => Moves e e'

section Travels

variable {α β : Type} {f : Action α} {g : α → Action β}

lemma Travels.bind (h : Travels f e) (hg : ∀ a e', Moves e e' → Travels (g a) e') :
    Travels (f >>= g) e :=
  Ends.bind h fun a e' he =>
    Ends.mono (hg a e' he) (fun _ _ h => he.trans h) fun _ _ h => he.trans h

lemma travels_pure {a : α} : Travels (pure a : Action α) e := ends_pure (.refl e)

lemma travels_throw {x : Fault} : Travels (throw x : Action α) e := ends_throw (.refl e)

lemma travels_get {g : Engine → Action β} (h : Travels (g e) e) : Travels (get >>= g) e := h

lemma travels_require {b : Bool} {m : Misuse} {g : Unit → Action β}
    (h : b = true → Travels (g ()) e) : Travels (Action.require b m >>= g) e :=
  ends_bind_require (.refl e) h

lemma travels_modify {k : Engine → Engine} (h : Accounts e (k e)) :
    Travels (modify k : Action PUnit) e :=
  ends_modify h.moves

end Travels

/-- A new root is a move, and its name another one. -/
lemma moves_newRoot (e : Engine) (name : Option String) (d : IntervalSet) (hne : ∃ x, x ∈ d)
    (hd : d.InRange) : Moves e (Engine.rename
      { e with space := { e.space with store := (e.store.addRoot d).2 } }
      (e.store.addRoot d).1 name) :=
  (Move.newRoot e hne hd).moves.trans (accounts_rename _ _ _).moves

lemma travels_newVariable {lo hi : Int} (hlo : Value.InRange lo) (hhi : Value.InRange hi)
    (name : Option String) : Travels (newVariable lo hi name) e :=
  ends_newVariable name (.refl e) (moves_newRoot e name) hlo hhi

lemma travels_newSparseVariable {values : List Int} (hvalues : ∀ x ∈ values, Value.InRange x)
    (name : Option String) : Travels (newSparseVariable values name) e :=
  ends_newSparseVariable name (.refl e) (moves_newRoot e name) hvalues

lemma travels_newView (w : View) : Travels (newView w) e :=
  ends_newView w (.refl e) fun hb hneg => (Move.newView e hb hneg).moves

lemma travels_add {c : Constraint} (hc : c.Fits) : Travels (add c) e := by
  rw [add]
  refine travels_get ?_
  split
  · exact travels_pure
  refine travels_require fun hidle => ?_
  have hnone : e.conflict = none := by simpa [isFailed] using hidle
  split
  · exact travels_pure
  · rename_i q m hmade
    split
    · exact travels_pure
    · rename_i hscope
      split
      · exact travels_throw
      · rename_i hunknown
        have hscope : q.scope ≠ [] := fun h => hscope (List.isEmpty_iff.2 h)
        exact ends_bind_set (ends_pure (Move.accept hnone hc hmade hscope hunknown).moves)

lemma travels_post {cs : List Constraint} (hcs : ∀ c ∈ cs, c.Fits) : Travels (post cs) e := by
  induction cs generalizing e with
  | nil => exact travels_pure
  | cons c cs ih =>
    rw [post]
    refine Travels.bind (travels_add (hcs c List.mem_cons_self)) fun r e' _ => ?_
    cases r with
    | error reason => exact travels_pure
    | ok p => exact ih fun c' hc' => hcs c' (List.mem_cons_of_mem c hc')

lemma travels_propagate : Travels Engine.propagate e := by
  rw [Travels, Ends]
  cases hrun : Engine.propagate e with
  | ok r e' => exact (Move.propagate (.inl ⟨r, hrun⟩)).moves
  | error x e' => exact (Move.propagate (.inr ⟨x, hrun⟩)).moves

lemma accounts_resolveConflict :
    Ends resolveConflict e (fun _ => Accounts e) fun _ => Accounts e :=
  ends_resolveConflict (.refl e) fun _ => accounts_note e trivial

/-- Learning a clause changes the accounts only. -/
lemma accounts_learn : Ends learn e (fun _ => Accounts e) fun _ => Accounts e := by
  rw [learn]
  refine ends_bind_get ?_
  split
  · exact accounts_resolveConflict
  · exact ends_pure (.refl e)

lemma travels_analyse : Travels analyse e := by
  rw [analyse]
  exact travels_get (travels_require fun _ =>
    accounts_resolveConflict.mono (fun _ _ h => h.moves) fun _ _ h => h.moves)

lemma travels_declareInfeasible : Travels declareInfeasible e :=
  travels_modify ⟨rfl, rfl, rfl, rfl, rfl, [.infeasible], by simp [Note.Quiet], by simp [note]⟩

lemma travels_build (b : ClauseBuilder) : Travels (build b) e := by
  rw [build]
  split
  · exact (travels_modify (accounts_note e (n := .alwaysTrue) trivial)).bind
      fun _ _ _ => travels_pure
  · exact (travels_modify (accounts_note e (n := .alwaysTrueOnRoots) trivial)).bind
      fun _ _ _ => travels_pure
  · exact travels_declareInfeasible.bind fun _ _ _ => travels_pure
  · exact travels_declareInfeasible.bind fun _ _ _ => travels_pure
  · rename_i l _
    refine (travels_modify (accounts_note e (n := .postingMember l) trivial)).bind
      fun _ _ _ => travels_post ?_
    exact List.forall_mem_singleton.2 trivial
  · rename_i c _
    refine (travels_modify (accounts_note e (n := .postingClause c.length) trivial)).bind
      fun _ _ _ => travels_post ?_
    exact List.forall_mem_singleton.2 trivial

lemma travels_addLearned (c : Clause) : Travels (addLearned c) e := by
  rw [addLearned]
  split
  · exact (travels_declareInfeasible.bind fun _ _ _ => travels_pure).bind
      fun _ _ _ => travels_pure
  · refine (travels_modify (accounts_count e _)).bind fun _ _ _ => travels_get (travels_build _)

/-- A conflict is analysed before the engine goes back, and the clause is added behind. -/
lemma travels_handleConflict {level : Nat} :
    Ends (handleConflict level) e
      (fun _ e' => ∃ e₁, Accounts e e₁ ∧ Moves (e₁.goBack level) e')
      fun _ e' => Accounts e e' ∨ ∃ e₁, Accounts e e₁ ∧ Moves (e₁.goBack level) e' := by
  rw [handleConflict]
  refine ends_bind_get (ends_bind_require (.inl (.refl e)) fun _ => ?_)
  refine Ends.bind (accounts_learn.mono (fun _ _ h => h) fun _ _ h => .inl h)
    fun learned e₁ h₁ => ?_
  refine Ends.bind (Q := fun _ t => e₁.goBack level = t) (E := fun _ t => Accounts e t ∨ _) ?_ ?_
  · rw [restore]
    exact ends_bind_get (ends_bind_require (.inl h₁) fun _ => ends_modify rfl)
  rintro _ _ rfl
  cases learned with
  | none => exact ends_pure ⟨e₁, h₁, .refl _⟩
  | some c =>
    refine Ends.bind ((travels_addLearned c).mono (fun _ _ h => h) fun _ _ h => .inr ⟨e₁, h₁, h⟩)
      fun r e₂ h₂ => ?_
    cases r with
    | error reason => exact ends_pure ⟨e₁, h₁, h₂⟩
    | ok _ => exact ends_pure ⟨e₁, h₁, h₂⟩

end Engine

end FiniteDomain
