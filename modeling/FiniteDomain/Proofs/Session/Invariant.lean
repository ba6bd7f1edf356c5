import Mathlib.Tactic
import FiniteDomain.Proofs.Engine.Learning
import FiniteDomain.Session

/-!
Sessions that runs lead to.

Commands may fail in many ways, and a session goes on after each of them.  What a caller
has to see to is only that values fit into their type, and that going back is going back
below the current level.

* `Command.Fits`, `Session.Admissible`: what is asked of a command, and of a run;
* `Session.Reachable`: a run leads to the session;
* `Session.calls_steady` and others: what each command does;
* `Session.Invariant`: the engine and the clause builder are in order, with
  `Session.Invariant.after` for one command and `Session.Reachable.invariant` for runs.
-/

namespace FiniteDomain

/-- The values of a command are values of variables, and going back is to a level below the
current one. -/
def Command.Fits (s : Session) : Command → Prop
  | .newVariable lo hi _ => Value.InRange lo ∧ Value.InRange hi
  | .newSparseVariable values _ => ∀ x ∈ values, Value.InRange x
  | .add c => c.Fits
  | .post cs => ∀ c ∈ cs, c.Fits
  | .restore t | .handleConflict t => t.resolve s.engine < s.engine.level
  | _ => True

instance (c : Constraint) : Decidable c.Fits :=
  match c with
  | .count c => inferInstanceAs (Decidable ((c.vars.length : Int) ≤ Value.greatest))
  | .maximum _ | .member _ | .disjunction _ | .observer _ => .isTrue trivial

instance (s : Session) (c : Command) : Decidable (c.Fits s) :=
  match c with
  | .newVariable lo hi _ => inferInstanceAs (Decidable (Value.InRange lo ∧ Value.InRange hi))
  | .newSparseVariable values _ => inferInstanceAs (Decidable (∀ x ∈ values, Value.InRange x))
  | .add c => inferInstanceAs (Decidable c.Fits)
  | .post cs => inferInstanceAs (Decidable (∀ c ∈ cs, c.Fits))
  | .restore t | .handleConflict t =>
    inferInstanceAs (Decidable (t.resolve s.engine < s.engine.level))
  | .newView _ | .decide _ _ | .propagate | .checkpoint | .analyse | .declareInfeasible
  | .newBuilder | .put _ | .forbid _ _ | .build => .isTrue trivial

/-- Commands that leave the clause builder alone and post no constraints. -/
def Command.isSteady : Command → Bool
  | .add _ | .post _ | .handleConflict _ | .newBuilder | .put _ | .forbid _ _ | .build => false
  | _ => true

namespace Session

/-- All commands of a run fit the sessions in which they are carried out. -/
def Admissible (s : Session) : List Command → Prop
  | [] => True
  | c :: cs => c.Fits s ∧ (s.after c).Admissible cs

instance decidableAdmissible : (s : Session) → (cs : List Command) → Decidable (s.Admissible cs)
  | _, [] => .isTrue trivial
  | s, c :: cs => @instDecidableAnd _ _ _ (decidableAdmissible (s.after c) cs)

/-- Some run leads from a new session to this one. -/
def Reachable (s : Session) : Prop :=
  ∃ (strategy : Strategy) (cs : List Command),
    (new strategy).Admissible cs ∧ s = (new strategy).run cs

variable {s s' : Session} {c : Command} {cs : List Command} {α : Type}

/-- The engine is in order, and the clause builder knows variables of its store. -/
structure Invariant (s : Session) : Prop where
  engine : s.engine.Invariant
  builder : ∀ b, s.builder = some b → b.WellFormed ∧ b.store.Continues s.engine.store

/-- What a command leaves, whatever the answer. -/
lemma after_of_ends {Q : Session → Prop} (h : Ends (step c) s (fun _ => Q) fun _ => Q) :
    Q (s.after c) := by
  rw [after]
  cases hrun : step c s with
  | ok a s' => exact Ends.of_ok hrun h
  | error x s' => exact Ends.of_error hrun h

/-! ### Calls of the engine -/

/-- A call left the engine as `P` says; a misuse costs the clause builder. -/
structure Calls (P : Engine → Prop) (s s' : Session) : Prop where
  engine : P s'.engine
  builder : ∀ b, s'.builder = some b → s.builder = some b

/-- The engine is in order, with the propagators that it had. -/
def Steady (e e' : Engine) : Prop := e'.Invariant ∧ e.Follows e'

section Calls

variable {P : Engine → Prop} {f : FiniteDomain.Action α}

lemma ends_onEngine {Q : α → Engine → Prop} {E : Fault → Engine → Prop}
    (h : Ends f s.engine Q E) :
    Ends (onEngine f) s (fun a s' => Q a s'.engine ∧ s'.builder = s.builder)
      fun _ s' => (∃ x, E x s'.engine) ∧ s'.builder = none := by
  rw [Ends, onEngine]
  cases hrun : f s.engine with
  | ok a e => exact ⟨Ends.of_ok hrun h, rfl⟩
  | error x e => exact ⟨⟨x, Ends.of_error hrun h⟩, rfl⟩

/-- The result of a call of the engine as a reply. -/
lemma calls_reply {g : α → Reply} (h : Ends f s.engine (fun _ => P) fun _ => P) :
    Ends (do return g (← onEngine f)) s (fun _ => Calls P s) fun _ => Calls P s := by
  refine Ends.bind ((ends_onEngine h).mono
    (fun _ s' h => (⟨h.1, fun b hb => h.2 ▸ hb⟩ : Calls P s s')) fun _ s' h => ?_)
    fun _ _ h => ends_pure h
  obtain ⟨⟨_, h⟩, hnone⟩ := h
  exact ⟨h, fun b hb => by rw [hnone] at hb; cases hb⟩

/-- A builder stays in order while the engine goes on. -/
lemma Calls.invariant (h : Calls P s s') (inv : s.Invariant)
    (hP : ∀ e, P e → e.Invariant ∧ s.engine.store.Continues e.store) :
    s'.Invariant ∧ s.engine.store.Continues s'.engine.store := by
  obtain ⟨hinv, hcontinues⟩ := hP _ h.engine
  refine ⟨⟨hinv, fun b hb => ?_⟩, hcontinues⟩
  obtain ⟨w, hbuilder⟩ := inv.builder b (h.builder b hb)
  exact ⟨w, hbuilder.trans hcontinues⟩

end Calls

lemma calls_steady (inv : s.engine.Invariant) (h : c.Fits s) (hc : c.isSteady = true) :
    Calls (Steady s.engine) s (s.after c) := by
  refine after_of_ends ?_
  cases c with
  | newVariable lo hi name => exact calls_reply (Engine.keeps_newVariable inv h.1 h.2 name)
  | newSparseVariable values name =>
    exact calls_reply (Engine.keeps_newSparseVariable inv h name)
  | newView w => exact calls_reply (Engine.keeps_newView inv w)
  | decide v d => exact calls_reply (Engine.keeps_decide inv v d)
  | propagate => exact calls_reply (Engine.keeps_propagate inv)
  | checkpoint => exact calls_reply (Engine.keeps_checkpoint inv)
  | restore t => exact ends_bind_get (calls_reply (Engine.keeps_restore inv h))
  | analyse => exact calls_reply (Engine.keeps_analyse inv)
  | declareInfeasible =>
    have hkeeps : Engine.Keeps Engine.declareInfeasible s.engine :=
      ends_modify ⟨⟨inv.consistent, inv.ready, inv.failed⟩, .refl _, rfl⟩
    exact calls_reply hkeeps
  | add | post | handleConflict | newBuilder | put | forbid | build => cases hc

lemma calls_add (inv : s.engine.Invariant) {constraint : Constraint} (h : constraint.Fits) :
    Calls (Engine.Posts [constraint] s.engine) s (s.after (.add constraint)) :=
  after_of_ends (calls_reply
    ((Engine.posts_add inv h).mono (fun _ _ h => h.1) fun _ _ h => h.1))

lemma calls_post (inv : s.engine.Invariant) {constraints : List Constraint}
    (h : ∀ constraint ∈ constraints, constraint.Fits) :
    Calls (Engine.Posts constraints s.engine) s (s.after (.post constraints)) :=
  after_of_ends (calls_reply
    ((Engine.posts_post inv h).mono (fun _ _ h => h.1) fun _ _ h => h.1))

lemma calls_handleConflict (inv : s.engine.Invariant) {t : Target}
    (h : t.resolve s.engine < s.engine.level) :
    Calls (Engine.Learns s.engine) s (s.after (.handleConflict t)) :=
  after_of_ends <| ends_bind_get (calls_reply <|
    (Engine.learns_handleConflict inv h).mono (fun _ _ h => h.1) fun _ _ h => h)

/-! ### Clause builders -/

lemma after_newBuilder : Engine.Alike s.engine (s.after .newBuilder).engine ∧
    (s.after .newBuilder).engine.store = s.engine.store ∧
    (s.after .newBuilder).builder = some { store := s.engine.store } := by
  have hafter : s.after .newBuilder = s.renewBuilder := rfl
  rw [hafter, renewBuilder]
  cases s.builder with
  | none => exact ⟨.refl _, rfl, rfl⟩
  | some b =>
    dsimp only
    split
    · exact ⟨.refl _, rfl, rfl⟩
    · exact ⟨Engine.alike_note _ _, rfl, rfl⟩

/-- The clause builder was changed by `g`, if there is one that knows the variable. -/
def Edits (v : VarId) (g : ClauseBuilder → ClauseBuilder) (s s' : Session) : Prop :=
  ∃ b, s.builder = some b ∧ b.store.has v = true ∧ s' = { s with builder := some (g b) }

lemma ends_edit (v : VarId) (g : ClauseBuilder → ClauseBuilder) :
    Ends (do keep (g (← builderFor v))) s
      (fun r s' => (∃ b, r = .isEmpty b) ∧ Edits v g s s') fun _ s' => s' = s := by
  simp only [builderFor, bind_assoc]
  refine ends_bind_get ?_
  split
  · exact ends_throw rfl
  · rename_i b hb
    split
    · rename_i hv
      rw [pure_bind, keep]
      refine ends_bind_modify ?_
      exact ends_pure ⟨⟨_, rfl⟩, b, hb, hv, rfl⟩
    · exact ends_throw rfl

/-- Another literal in the builder. -/
lemma Invariant.edit (inv : s.Invariant) {l : ClauseBuilder → Literal} {v : VarId}
    (hl : ∀ b, (l b).var = v) :
    Ends (builderFor v >>= fun b => keep (b.put (l b))) s
      (fun _ s' => s'.Invariant ∧ s.engine.store.Continues s'.engine.store)
      fun _ s' => s'.Invariant ∧ s.engine.store.Continues s'.engine.store := by
  refine (ends_edit v fun b => b.put (l b)).mono (fun _ s' h => ?_) ?_
  · obtain ⟨-, b, hb, hv, rfl⟩ := h
    obtain ⟨w, hcontinues⟩ := inv.builder b hb
    refine ⟨⟨inv.engine, fun b' hb' => ?_⟩, .refl _⟩
    cases hb'
    refine ⟨w.put ((hl b).symm ▸ hv), ?_⟩
    rw [ClauseBuilder.store_put]
    exact hcontinues
  · rintro _ _ rfl
    exact ⟨inv, .refl _⟩

/-- The clause of the builder was posted, and the builder is empty again. -/
def Builds (s : Session) (r : Reply) (s' : Session) : Prop :=
  ∃ b, s.builder = some b ∧ s'.builder = some b.reset ∧
    Engine.Adds (fun values => b.result.Holds values) s.engine s'.engine ∧
    (r = .done ∨ (∃ reason, r = .refused reason) ∧
      s'.engine.propagators = s.engine.propagators)

/-- A clause is built, or refused; a misuse costs the builder. -/
lemma ends_build (inv : s.engine.Invariant) :
    Ends (step .build) s (Builds s) fun _ => Calls (Steady s.engine) s := by
  rw [step]
  refine ends_bind_get ?_
  split
  · exact ends_throw ⟨⟨inv, .refl _⟩, fun _ => id⟩
  rename_i b hb
  refine Ends.bind ((ends_onEngine (Engine.adds_build inv b)).mono (fun _ _ h => h.1) ?_)
    fun r s' h => ?_
  · rintro _ s' ⟨⟨x, hadds, hpropagators⟩, hnone⟩
    refine ⟨⟨hadds.invariant, hadds.continues, hpropagators⟩, fun b' hb' => ?_⟩
    rw [hnone] at hb'
    cases hb'
  refine ends_bind_modify ?_
  refine ends_pure ⟨b, hb, rfl, h.1, ?_⟩
  cases r with
  | ok _ => exact .inl rfl
  | error reason => exact .inr ⟨⟨reason, rfl⟩, (h.2 reason rfl).1⟩

lemma Builds.invariant {r : Reply} (h : Builds s r s') (inv : s.Invariant) :
    s'.Invariant ∧ s.engine.store.Continues s'.engine.store := by
  obtain ⟨b, hb, hb', hadds, -⟩ := h
  obtain ⟨w, hcontinues⟩ := inv.builder b hb
  refine ⟨⟨hadds.invariant, fun b' hreset => ?_⟩, hadds.continues⟩
  cases hb'.symm.trans hreset
  exact ⟨⟨w.store, Clause.distinct_nil, fun v hv => absurd hv List.not_mem_nil⟩,
    hcontinues.trans hadds.continues⟩

/-! ### Runs -/

/-- Every command that fits keeps the invariant, whatever comes of it. -/
lemma Invariant.after (inv : s.Invariant) (h : c.Fits s) :
    (s.after c).Invariant ∧ s.engine.store.Continues (s.after c).engine.store := by
  have hengine := inv.engine
  cases c with
  | add constraint =>
    exact (calls_add hengine h).invariant inv fun _ h => ⟨h.invariant, h.continues⟩
  | post constraints =>
    exact (calls_post hengine h).invariant inv fun _ h => ⟨h.invariant, h.continues⟩
  | handleConflict t =>
    exact (calls_handleConflict hengine h).invariant inv fun _ h => ⟨h.invariant, h.continues⟩
  | newBuilder =>
    obtain ⟨halike, hstore, hbuilder⟩ := after_newBuilder (s := s)
    refine ⟨⟨halike.invariant hengine, fun b hb => ?_⟩, halike.follows.store⟩
    cases hbuilder.symm.trans hb
    rw [hstore]
    exact ⟨⟨hengine.consistent.store, Clause.distinct_nil,
      fun v hv => absurd hv List.not_mem_nil⟩, .refl _⟩
  | put l => exact after_of_ends (c := .put l) (inv.edit fun _ => rfl)
  | forbid v forbidden => exact after_of_ends (c := .forbid v forbidden) (inv.edit fun _ => rfl)
  | build =>
    refine after_of_ends ((ends_build hengine).mono (fun _ _ h => h.invariant inv) ?_)
    exact fun _ _ h => h.invariant inv fun _ h => ⟨h.1, h.2.store⟩
  | _ => exact (calls_steady hengine h rfl).invariant inv fun _ h => ⟨h.1, h.2.store⟩

/-- Nothing has happened in a new session. -/
lemma invariant_new (strategy : Strategy) : (new strategy).Invariant :=
  ⟨Engine.invariant_empty strategy, nofun⟩

lemma Invariant.run (inv : s.Invariant) (h : s.Admissible cs) : (s.run cs).Invariant := by
  induction cs generalizing s with
  | nil => exact inv
  | cons c cs ih => exact ih (inv.after h.1).1 h.2

lemma Reachable.after (h : s.Reachable) (hc : c.Fits s) : (s.after c).Reachable := by
  obtain ⟨strategy, cs, hadmissible, rfl⟩ := h
  have happend : ∀ (cs : List Command) (s : Session), s.Admissible cs → c.Fits (s.run cs) →
      s.Admissible (cs ++ [c]) := by
    intro cs
    induction cs with
    | nil => exact fun s _ hc => ⟨hc, trivial⟩
    | cons c' cs ih => exact fun s hcs hc => ⟨hcs.1, ih (s.after c') hcs.2 hc⟩
  refine ⟨strategy, cs ++ [c], happend cs _ hadmissible hc, ?_⟩
  rw [run, run, List.foldl_append]
  rfl

lemma Reachable.invariant (h : s.Reachable) : s.engine.Invariant := by
  obtain ⟨strategy, cs, hadmissible, rfl⟩ := h
  exact ((invariant_new strategy).run hadmissible).engine

end Session

end FiniteDomain
