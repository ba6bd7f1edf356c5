import Mathlib.Tactic
import FiniteDomain.Proofs.BuiltClause
import FiniteDomain.Proofs.Engine.Progress
import FiniteDomain.Proofs.Session.Ending

/-!
Clause builders post the clause that was put into them.

A builder knows the variables that were there when it was made.  The engine may go on before the
clause is built: these variables stay, with the views below them and their initial domains.

* `Session.Arises.rooted`: in all sessions, variables without views below them are roots;
* `Session.continues_after`: what commands leave of the variables;
* `Engine.Answers`: what the engine makes of a statement on assignments, with
  `Engine.ends_build_amounts`: so it does of what a builder amounts to;
* `Session.Fills`: a builder that entries were put into while the engine went on, with
  `Session.Fills.filled`: it holds these, and the variables are still there;
* `Session.build_posts_exactly`: a clause that is put into a builder and built.
-/

namespace FiniteDomain

/-! ### Roots and variables -/

namespace Store

variable {s t : Store}

lemma Rooted.of_eq (h : s.Rooted) (w : t.WellFormed) (hhas : ∀ v, t.has v = s.has v)
    (hroot : ∀ v, t.root v = s.root v) (hchain : ∀ v, t.chain v = s.chain v) : t.Rooted := by
  intro v hv hnil
  refine (w.isRoot_iff hv).2 ((hroot v).trans (h v ?_ ?_).root_eq)
  · rw [← hhas]
    exact hv
  · rw [← hchain]
    exact hnil

lemma Rooted.addRoot (h : s.Rooted) (d : IntervalSet) : (s.addRoot d).2.Rooted := by
  have hext := extends_addRoot s d
  intro v hv hnil
  rcases eq_of_has_addRoot hv with hold | rfl
  · rw [hext.chain hold] at hnil
    exact (hext.isRoot hold).2 (h v hold hnil)
  · exact ⟨_, _, getElem?_addRoot s d⟩

lemma Rooted.addView (h : s.Rooted) (x : View) : (s.addView x).2.Rooted := by
  have hext := extends_addView s x
  intro v hv hnil
  rcases eq_of_has_addView hv with hold | rfl
  · rw [hext.chain hold] at hnil
    exact (hext.isRoot hold).2 (h v hold hnil)
  · rw [chain_addView] at hnil
    cases hnil

end Store

namespace Engine

variable {e e' : Engine} {P : (VarId → Int) → Prop}

lemma Trims.rooted (h : Trims e e') (hr : e.store.Rooted) : e'.store.Rooted :=
  hr.of_eq h.intact.store h.store.has h.store.root h.store.chain

lemma Move.rooted (hmove : Move e e') (w : e.Intact) (h : e.store.Rooted) : e'.store.Rooted := by
  cases hmove with
  | account ha =>
    rw [store, ha.space]
    exact h
  | newRoot => exact h.addRoot _
  | newView => exact h.addView _
  | accept => exact h
  | propagate hrun => exact (trims_propagate w hrun).rooted h

lemma rooted_goBack (w : e.Intact) (h : e.store.Rooted) (level : Nat) :
    (e.goBack level).store.Rooted := by
  have hmaps := Store.maps_restore e.store level
  rw [store_goBack]
  exact h.of_eq w.store.restore hmaps.has hmaps.root hmaps.chain

/-- Propagators and decisions narrow domains only. -/
lemma Trims.continues (h : Trims e e') : e.store.Continues e'.store := by
  have hroot : ∀ v, e.store.IsRoot v → e'.store.IsRoot v := fun v hv =>
    (h.intact.store.isRoot_iff ((h.store.has v).trans hv.has)).2 ((h.store.root v).trans hv.root_eq)
  exact (h.store.continues hroot).trans (Store.continues_of_eq rfl rfl)

lemma Move.continues (hmove : Move e e') (w : e.Intact) : e.store.Continues e'.store := by
  cases hmove with
  | account ha =>
    rw [store, store, ha.space]
    exact .refl _
  | newRoot => exact (Store.extends_addRoot _ _).continues w.store rfl
  | newView => exact (Store.extends_addView _ _).continues w.store rfl
  | accept => exact .refl _
  | propagate hrun => exact (trims_propagate w hrun).continues

lemma continues_goBack (w : e.Intact) (level : Nat) :
    e.store.Continues (e.goBack level).store := by
  rw [store_goBack]
  rcases Nat.lt_or_ge level e.store.trail.level with hl | hl
  · exact Store.continues_restore w.store hl
  · exact Store.continues_restore_of_le w.store hl

/-! ### Building -/

/-- What the engine makes of a statement on assignments.  If it holds for no assignment from the
initial domains, the problem has no solution, and nothing is posted.  If it holds for all of them,
nothing is posted either.  Otherwise one constraint is posted that says the same: that a root takes
one of some values, or a clause on several roots. -/
inductive Answers (P : (VarId → Int) → Prop) (e : Engine) : Except PostError Unit → Engine → Prop
  | refuted {e' : Engine} (hno : ∀ ρ, e.store.Initial ρ → ¬ P ρ) (hsame : Accounts e e')
    (hinfeasible : e'.infeasible = true) : Answers P e (.error .infeasibleClause) e'
  | certain {e' : Engine} (hsome : ∃ ρ, e.store.Initial ρ ∧ P ρ)
    (hall : ∀ ρ, e.store.Initial ρ → P ρ) (hsame : Accounts e e')
    (hfeasible : e'.infeasible = false) : Answers P e (.ok ()) e'
  | posted {e' : Engine} {c : Clause} {q : Propagator} (hsome : ∃ ρ, e.store.Initial ρ ∧ P ρ)
    (hrenders : e.store.Renders c P)
    (hkind : (∃ l, c = [l] ∧ q = .member ⟨l.var, l.allowed⟩) ∨
      2 ≤ c.length ∧ q = .disjunction ⟨c⟩)
    (hholds : ∀ ρ, e.store.Initial ρ → (q.constraint.Holds (e.store.value ρ) ↔ P ρ))
    (hsame : Accounts e e') (hfeasible : e'.infeasible = false) :
    Answers P e (.ok ()) (e'.accept q e.memory)

section Build

variable (w : e.store.WellFormed) (hfeasible : e.infeasible = false) (hnone : e.conflict = none)

include w hfeasible hnone

/-- A clause on roots is posted. -/
lemma ends_post_renders {c : Clause} {q : Propagator} {constraint : Constraint} {n : Note}
    (hn : n.Quiet) (hrenders : e.store.Renders c P) (hne : c ≠ [])
    (hmade : constraint.propagator e.memory = .ok (q, e.memory))
    (hkind : (∃ l, c = [l] ∧ q = .member ⟨l.var, l.allowed⟩) ∨
      2 ≤ c.length ∧ q = .disjunction ⟨c⟩) :
    Ends (post [constraint]) (e.note n) (Answers P e) fun _ _ => False := by
  have hscope : q.scope = c.map Literal.var := by
    rcases hkind with ⟨l, rfl, rfl⟩ | ⟨-, rfl⟩ <;> rfl
  have hholds : ∀ values, q.constraint.Holds values ↔ c.Holds values := by
    intro values
    rcases hkind with ⟨l, rfl, rfl⟩ | ⟨-, rfl⟩
    · rw [Clause.holds_cons, or_iff_left Clause.not_holds_nil]
      rfl
    · exact Iff.rfl
  have hhas : ∀ v ∈ q.scope, (e.note n).store.has v = true := by
    intro v hv
    rw [hscope] at hv
    obtain ⟨l, hl, rfl⟩ := List.mem_map.1 hv
    exact (hrenders.isRoot l hl).has
  have hscope : q.scope ≠ [] := fun hnil => hne (List.map_eq_nil_iff.1 (hscope.symm.trans hnil))
  rw [post]
  refine Ends.bind (ends_add (e := e.note n) hfeasible hnone hmade hscope hhas) ?_
  rintro _ _ ⟨⟨p, rfl⟩, rfl⟩
  refine ends_pure (.posted (hrenders.exists_holds w hne) hrenders hkind (fun ρ hρ => ?_)
    (accounts_note e hn) hfeasible)
  rw [hholds, hrenders.holds_iff ρ hρ]

/-- The engine answers as the builder amounts to. -/
lemma ends_build_amounts {b : ClauseBuilder} (h : b.result.Amounts e.store P) :
    Ends (build b) e (Answers P e) fun _ _ => False := by
  have hcertain : ∀ n : Note, n.Quiet → (∀ ρ, e.store.Initial ρ → P ρ) →
      Answers P e (.ok ()) (e.note n) := fun n hn hall =>
    have ⟨ρ, hρ⟩ := w.exists_initial
    .certain ⟨ρ, hρ, hall ρ hρ⟩ hall (accounts_note e hn) hfeasible
  rw [build]
  cases hresult : b.result with
  | alwaysTrue =>
    rw [hresult] at h
    exact ends_bind_modify (ends_pure (hcertain .alwaysTrue trivial h))
  | alwaysTrueOnRoots =>
    rw [hresult] at h
    exact ends_bind_modify (ends_pure (hcertain .alwaysTrueOnRoots trivial h))
  | nothing =>
    rw [hresult] at h
    exact h.elim
  | neverTrue =>
    rw [hresult] at h
    refine ends_bind_modify (ends_pure (.refuted h ?_ rfl))
    exact ⟨rfl, rfl, rfl, rfl, rfl, [.infeasible], by simp [Note.Quiet], by simp [note]⟩
  | member l =>
    rw [hresult] at h
    exact ends_bind_modify (ends_post_renders w hfeasible hnone (n := .postingMember l) trivial h
      (List.cons_ne_nil _ _) rfl (.inl ⟨l, rfl, rfl⟩))
  | clause c =>
    rw [hresult] at h
    obtain ⟨hlength, hrenders⟩ := h
    have hmade : (Constraint.disjunction c).propagator e.memory =
        .ok (.disjunction ⟨c⟩, e.memory) := by
      have hdistinct : Clause.Distinct ([] ++ c) := hrenders.distinct
      rw [Constraint.propagator, Disjunction.ofLiterals, Clause.addAll_of_distinct hdistinct]
      rfl
    have hne : c ≠ [] := List.ne_nil_of_length_pos (by omega)
    exact ends_bind_modify (ends_post_renders w hfeasible hnone (n := .postingClause c.length)
      trivial hrenders hne hmade (.inr ⟨hlength, rfl⟩))

end Build

end Engine

namespace Session

variable {s s₀ : Session} {c : Command} {xs : List ClauseBuilder.Entry}

/-- In all sessions, variables without views below them are roots. -/
lemma Arises.rooted (h : s.Arises) : s.engine.store.Rooted := by
  refine h.induct (P := fun s => s.engine.store.Rooted) (fun strategy v hv => ?_)
    fun s c h hc hrooted => ?_
  · exact absurd (Store.has_iff.1 hv) (Nat.not_lt_zero _)
  · exact kept_after_of_intact (P := fun e => e.store.Rooted) h.intact hrooted
      (fun _ _ w hmove => hmove.rooted w) (fun _ _ htrims => htrims.rooted) (fun _ => id)
      (fun _ level w h => Engine.rooted_goBack w h level) hc

/-- Variables stay, whatever a command does. -/
lemma continues_after (w : s.engine.Intact) (hc : c.IsTyped) :
    s.engine.store.Continues (s.after c).engine.store :=
  kept_after_of_intact (P := fun e => s.engine.store.Continues e.store) w (.refl _)
    (fun _ _ w hmove h => h.trans (hmove.continues w))
    (fun _ _ htrims h => h.trans htrims.continues)
    (fun _ h => h.trans (Store.continues_mark _))
    (fun _ level w h => h.trans (Engine.continues_goBack w level)) hc

/-! ### Entries -/

/-- The command that puts an entry into the clause builder. -/
def entryCommand : ClauseBuilder.Entry → Command
  | .put l => .put l
  | .forbid v forbidden => .forbid v forbidden

lemma step_edit {v : VarId} {b : ClauseBuilder} {g : ClauseBuilder → ClauseBuilder}
    (hstep : step c = do keep (g (← builderFor v))) (hb : s.builder = some b)
    (hv : b.store.has v = true) : s.after c = { s with builder := some (g b) } := by
  have hget : builderFor v s = .ok b s := by
    rw [builderFor, bind_get, hb]
    dsimp only
    rw [if_pos hv]
    rfl
  rw [after, hstep, bind_of_ok hget]
  rfl

lemma after_entry {x : ClauseBuilder.Entry} {b : ClauseBuilder} (hb : s.builder = some b)
    (hx : b.store.has x.var = true) :
    s.after (entryCommand x) = { s with builder := some (x.into b) } := by
  cases x with
  | put l => exact step_edit (g := fun b => b.put l) rfl hb hx
  | forbid v forbidden => exact step_edit (g := fun b => b.forbid v forbidden) rfl hb hx

/-- The clause that the builder holds is built, and the builder is as new. -/
lemma step_build {b : ClauseBuilder} {r : Except PostError Unit} {e : Engine}
    (hb : s.builder = some b) (hrun : Engine.build b s.engine = .ok r e) :
    step .build s = .ok (replyOfPost (fun _ => .done) r)
      { engine := e, builder := some b.reset } := by
  have hcall : onEngine (Engine.build b) s = .ok r { s with engine := e } := by
    rw [onEngine, hrun]
  rw [step, bind_get, hb]
  dsimp only
  rw [bind_of_ok hcall]
  rfl

/-- A builder that is still there after a clause was built is as new. -/
lemma builder_after_build {b : ClauseBuilder} (hb : s.builder = some b)
    (hkept : (s.after .build).builder.isSome = true) :
    (s.after .build).builder = some b.reset := by
  cases hrun : Engine.build b s.engine with
  | ok r e => rw [after, step_build hb hrun]
  | error x e =>
    have hcall : onEngine (Engine.build b) s = .error (.engine x) ⟨e, none⟩ := by
      rw [onEngine, hrun]
      rfl
    have hstep : step .build s = .error (.engine x) ⟨e, none⟩ := by
      rw [step, bind_get, hb]
      simp only [Bind.bind, EStateM.bind, hcall]
    rw [after, hstep] at hkept
    cases hkept

end Session

/-- The command asks something of the engine, not of the clause builder. -/
def Command.isForEngine : Command → Bool
  | .newBuilder | .put _ | .forbid _ _ | .build => false
  | _ => true

namespace Session

variable {s s₀ : Session} {c : Command} {xs : List ClauseBuilder.Entry}

/-- A builder that is still there after the engine was asked for something is the same. -/
lemma builder_of_after {b : ClauseBuilder} (hc : c.isForEngine = true)
    (hb : (s.after c).builder = some b) : s.builder = some b := by
  have hany : ∀ {α : Type} (f : FiniteDomain.Action α),
      Ends f s.engine (fun _ _ => True) fun _ _ => True := by
    intro α f
    rw [Ends]
    split <;> trivial
  have hcalls : Calls (fun _ => True) s (s.after c) := by
    refine after_of_ends ?_
    cases c with
    | newBuilder | put | forbid | build => cases hc
    | restore | handleConflict => exact ends_bind_get (calls_reply (hany _))
    | _ => exact calls_reply (hany _)
  exact hcalls.builder b hb

/-- The session has a clause builder that was made in the session `s₀`.  Since then, or since a
clause was built last, the entries were put into it.  Meanwhile, the engine may have been asked for
anything that was allowed. -/
inductive Fills (s₀ : Session) : Session → List ClauseBuilder.Entry → Prop
  | made : Fills s₀ (s₀.after .newBuilder) []
  | enter {s : Session} {xs : List ClauseBuilder.Entry} {x : ClauseBuilder.Entry}
    (h : Fills s₀ s xs) (hx : s₀.engine.store.has x.var = true) :
    Fills s₀ (s.after (entryCommand x)) (xs ++ [x])
  | build {s : Session} {xs : List ClauseBuilder.Entry} (h : Fills s₀ s xs)
    (hkept : (s.after .build).builder.isSome = true) : Fills s₀ (s.after .build) []
  | meanwhile {s : Session} {xs : List ClauseBuilder.Entry} {c : Command} (h : Fills s₀ s xs)
    (hc : c.IsTyped) (hengine : c.isForEngine = true)
    (hkept : (s.after c).builder.isSome = true) : Fills s₀ (s.after c) xs

/-- A builder that was filled holds the entries, and the variables that it knows are still there. -/
structure Filled (s₀ s : Session) (xs : List ClauseBuilder.Entry) : Prop where
  arises : s.Arises
  continues : s₀.engine.store.Continues s.engine.store
  has : ∀ x ∈ xs, s₀.engine.store.has x.var = true
  builder : s.builder = some (xs.foldl ClauseBuilder.Entry.into { store := s₀.engine.store })

lemma Fills.filled (h₀ : s₀.Arises) (h : s₀.Fills s xs) : Filled s₀ s xs := by
  induction h with
  | made =>
    obtain ⟨-, hstore, hbuilder⟩ := after_newBuilder (s := s₀)
    exact ⟨h₀.after trivial, hstore ▸ .refl _, List.forall_mem_nil _, hbuilder⟩
  | @enter s xs x _ hx ih =>
    have hstore : (xs.foldl ClauseBuilder.Entry.into { store := s₀.engine.store }).store
        = s₀.engine.store := ClauseBuilder.store_entries
    have hafter := after_entry ih.builder (hstore.symm ▸ hx)
    have htyped : (entryCommand x).IsTyped := by cases x <;> trivial
    refine ⟨ih.arises.after htyped, ?_, ?_, ?_⟩
    · rw [hafter]
      exact ih.continues
    · exact List.forall_mem_append.2 ⟨ih.has, List.forall_mem_singleton.2 hx⟩
    · rw [hafter, List.foldl_append]
      rfl
  | @build s xs _ hkept ih =>
    refine ⟨ih.arises.after trivial, ih.continues.trans (continues_after ih.arises.intact trivial),
      List.forall_mem_nil _, ?_⟩
    rw [builder_after_build ih.builder hkept, ClauseBuilder.reset, ClauseBuilder.store_entries]
    rfl
  | meanwhile _ hc hengine hkept ih =>
    obtain ⟨b, hb⟩ := Option.isSome_iff_exists.1 hkept
    refine ⟨ih.arises.after hc, ih.continues.trans (continues_after ih.arises.intact hc), ih.has,
      ?_⟩
    rw [hb, ← builder_of_after hengine hb]
    exact ih.builder

/-- A clause builder is made in a session that a run leads to, and filled with entries on the
variables that exist then, whatever the engine is asked for meanwhile.  If the clause is built when
the engine is neither failed nor infeasible, then the builder is as new, and the engine answers what
the entries say: that one of them holds. -/
theorem build_posts_exactly (h₀ : s₀.Arises) (hfills : s₀.Fills s xs)
    (hidle : s.engine.isFailed = false) (hfeasible : s.engine.infeasible = false) :
    ∃ r e, step .build s = .ok (replyOfPost (fun _ => .done) r)
        { engine := e, builder := some { store := s₀.engine.store } } ∧
      (xs ≠ [] → Engine.Answers (fun ρ => ∃ x ∈ xs, x.Holds (s₀.engine.store.value ρ))
        s.engine r e) := by
  let b : ClauseBuilder := xs.foldl ClauseBuilder.Entry.into { store := s₀.engine.store }
  obtain ⟨harises, hcontinues, hhas, hbuilder⟩ := hfills.filled h₀
  have hnone : s.engine.conflict = none := by simpa [Engine.isFailed] using hidle
  have hbuild : ∃ r e, Engine.build b s.engine = .ok r e ∧
      (xs ≠ [] → Engine.Answers (fun ρ => ∃ x ∈ xs, x.Holds (s₀.engine.store.value ρ))
        s.engine r e) := by
    by_cases hne : xs = []
    · have hb : b = { store := s₀.engine.store } :=
        congrArg (List.foldl ClauseBuilder.Entry.into { store := s₀.engine.store }) hne
      rw [hb]
      exact ⟨_, _, rfl, fun h => absurd hne h⟩
    · have hamounts := (ClauseBuilder.amounts_entries h₀.intact.store h₀.rooted hhas hne).continues
        hcontinues
      obtain ⟨r, e, hrun, hanswers⟩ :=
        (Engine.ends_build_amounts harises.intact.store hfeasible hnone hamounts).exists_ok
      exact ⟨r, e, hrun, fun _ => hanswers⟩
  obtain ⟨r, e, hrun, hanswers⟩ := hbuild
  have hreset : b.reset = { store := s₀.engine.store } :=
    congrArg (fun store => ({ store := store } : ClauseBuilder)) ClauseBuilder.store_entries
  refine ⟨r, e, ?_, hanswers⟩
  rw [← hreset]
  exact step_build hbuilder hrun

/-- A sparse root, a constant, and views on views: `x3` is 1 where `x0` is above 4, and `x4` where
it is not. -/
def layered : Session := (new .allDecision).run
  [.newSparseVariable [1, 4, 6, 9] none, .newVariable 7 7 none, .newView ⟨.atMost 4, ⟨0⟩⟩,
    .newView ⟨.negation, ⟨2⟩⟩, .newView ⟨.negation, ⟨3⟩⟩, .newVariable 0 5 none]

/-- Two literals on views of one root, one on the root itself, one that is false, and one on another
root, which is forbidden some values. -/
def disjuncts : List ClauseBuilder.Entry :=
  [.put ⟨⟨3⟩, .single 0⟩, .put ⟨⟨1⟩, .ofRange 0 6⟩, .put ⟨⟨4⟩, .single 1⟩,
    .put ⟨⟨0⟩, .ofRange 8 20⟩, .forbid ⟨5⟩ (.ofRange 2 9)]

/-- They are put into a builder, while there is a new variable, a decision above a checkpoint, and
another one after going back. -/
def entered : Session := layered.run
  [.newBuilder, .put ⟨⟨3⟩, .single 0⟩, .newVariable 0 3 none, .checkpoint,
    .put ⟨⟨1⟩, .ofRange 0 6⟩, .decide ⟨0⟩ (.apply (.atLeast 6)), .put ⟨⟨4⟩, .single 1⟩,
    .put ⟨⟨0⟩, .ofRange 8 20⟩, .restore (.level 0), .forbid ⟨5⟩ (.ofRange 2 9),
    .decide ⟨5⟩ (.apply (.atMost 4))]

lemma layered_fills : layered.Fills entered disjuncts := by
  have h₀ : layered.Fills (layered.after .newBuilder) [] := .made
  have h₁ := h₀.enter (x := .put ⟨⟨3⟩, .single 0⟩) (by decide +kernel)
  have h₂ := h₁.meanwhile (c := .newVariable 0 3 none) (by decide) rfl (by decide +kernel)
  have h₃ := h₂.meanwhile (c := .checkpoint) trivial rfl (by decide +kernel)
  have h₄ := h₃.enter (x := .put ⟨⟨1⟩, .ofRange 0 6⟩) (by decide +kernel)
  have h₅ := h₄.meanwhile (c := .decide ⟨0⟩ (.apply (.atLeast 6))) trivial rfl (by decide +kernel)
  have h₆ := h₅.enter (x := .put ⟨⟨4⟩, .single 1⟩) (by decide +kernel)
  have h₇ := h₆.enter (x := .put ⟨⟨0⟩, .ofRange 8 20⟩) (by decide +kernel)
  have h₈ := h₇.meanwhile (c := .restore (.level 0)) trivial rfl (by decide +kernel)
  have h₉ := h₈.enter (x := .forbid ⟨5⟩ (.ofRange 2 9)) (by decide +kernel)
  have h₁₀ := h₉.meanwhile (c := .decide ⟨5⟩ (.apply (.atMost 4))) trivial rfl (by decide +kernel)
  simp only [entered, run, List.foldl_cons, List.foldl_nil]
  exact h₁₀

/-- The engine answers what they say. -/
theorem build_posts_exactly_layered : entered.engine.isFailed = false ∧
    entered.engine.infeasible = false ∧
    ∃ r e, step .build entered = .ok (replyOfPost (fun _ => .done) r)
        { engine := e, builder := some { store := layered.engine.store } } ∧
      Engine.Answers (fun ρ => ∃ x ∈ disjuncts, x.Holds (layered.engine.store.value ρ))
        entered.engine r e := by
  have harises : layered.Arises := ⟨.allDecision, _, by decide +kernel, rfl⟩
  have hidle : entered.engine.isFailed = false := by decide +kernel
  have hfeasible : entered.engine.infeasible = false := by decide +kernel
  obtain ⟨r, e, hrun, hanswers⟩ := build_posts_exactly harises layered_fills hidle hfeasible
  exact ⟨hidle, hfeasible, r, e, hrun, hanswers (List.cons_ne_nil _ _)⟩

end Session

end FiniteDomain
