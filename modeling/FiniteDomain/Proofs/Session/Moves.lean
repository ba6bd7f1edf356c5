import Mathlib.Tactic
import FiniteDomain.Proofs.Engine.Fixpoint
import FiniteDomain.Proofs.Session.Invariant

/-!
What commands are made of.

All that commands do to the engine are moves, decisions, checkpoints and going back.  What
these four keep, every run keeps.

* `Command.IsTyped`: what a command has to be, wherever it is carried out;
* `Command.Leads`: what a command makes of the engine, with `Session.leads_after`;
* `Session.accepts`: commands that are carried out, with `Session.decide_cases` and
  `Session.checkpoint_cases`: what they do then, and otherwise;
* `Session.keeps_after`: what these four keep, every command keeps;
* `Session.Reachable.scheduled`: their agendas are in order.
-/

namespace FiniteDomain

/-- The values of a command are values of variables. -/
def Command.IsTyped : Command → Prop
  | .newVariable lo hi _ => Value.InRange lo ∧ Value.InRange hi
  | .newSparseVariable values _ => ∀ x ∈ values, Value.InRange x
  | .add c => c.Fits
  | .post cs => ∀ c ∈ cs, c.Fits
  | _ => True

instance (c : Command) : Decidable c.IsTyped :=
  match c with
  | .newVariable lo hi _ => inferInstanceAs (Decidable (Value.InRange lo ∧ Value.InRange hi))
  | .newSparseVariable values _ => inferInstanceAs (Decidable (∀ x ∈ values, Value.InRange x))
  | .add c => inferInstanceAs (Decidable c.Fits)
  | .post cs => inferInstanceAs (Decidable (∀ c ∈ cs, c.Fits))
  | .newView _ | .decide _ _ | .propagate | .checkpoint | .restore _ | .handleConflict _ | .analyse
  | .declareInfeasible | .newBuilder | .put _ | .forbid _ _ | .build => .isTrue trivial

lemma Command.Fits.isTyped {s : Session} {c : Command} (h : c.Fits s) : c.IsTyped := by
  cases c with
  | restore | handleConflict => trivial
  | _ => exact h

/-- What a command makes of the engine. -/
def Command.Leads (e e' : Engine) : Command → Prop
  | .decide v d => e' = e ∨ ∃ r, Engine.decide v d e = .ok r e'
  | .checkpoint => e' = e ∨ ∃ n, Engine.checkpoint e = .ok n e'
  | .restore t | .handleConflict t =>
    Engine.Accounts e e' ∨
      ∃ e₁, Engine.Accounts e e₁ ∧ Engine.Moves (e₁.goBack (t.resolve e)) e'
  | _ => Engine.Moves e e'

namespace Session

variable {s : Session} {c : Command} {α : Type}

lemma leads_of_travels {f : FiniteDomain.Action α} {g : α → Reply}
    (hstep : step c = do return g (← onEngine f)) (h : Engine.Travels f s.engine) :
    Engine.Moves s.engine (s.after c).engine :=
  (after_of_ends (hstep ▸ calls_reply h)).engine

/-- A call that is not carried out leaves the engine as it was. -/
lemma leads_of_result {f : FiniteDomain.Action α} {g : α → Reply}
    (hstep : step c = do return g (← onEngine f))
    (h : Ends f s.engine (fun _ _ => True) fun _ e' => e' = s.engine) :
    (s.after c).engine = s.engine ∨ ∃ r, f s.engine = .ok r (s.after c).engine := by
  have hcalls : Ends f s.engine (fun _ e' => e' = s.engine ∨ ∃ r, f s.engine = .ok r e')
      fun _ e' => e' = s.engine ∨ ∃ r, f s.engine = .ok r e' := by
    rw [Ends] at *
    cases hrun : f s.engine with
    | ok r e' => exact .inr ⟨r, rfl⟩
    | error x e' => exact .inl (by rwa [hrun] at h)
  exact (after_of_ends (hstep ▸ calls_reply hcalls)).engine

lemma accounts_renewBuilder (s : Session) : Engine.Accounts s.engine s.renewBuilder.engine := by
  rw [renewBuilder]
  cases s.builder with
  | none => exact .refl _
  | some b =>
    dsimp only
    split
    · exact .refl _
    · exact Engine.accounts_note _ trivial

lemma engine_edit {v : VarId} {g : ClauseBuilder → ClauseBuilder}
    (hstep : step c = do keep (g (← builderFor v))) : (s.after c).engine = s.engine := by
  refine after_of_ends (Q := fun s' => s'.engine = s.engine) ?_
  rw [hstep]
  refine (ends_edit v g).mono (fun _ _ h => ?_) fun _ _ h => ?_
  · obtain ⟨-, b, -, -, rfl⟩ := h
    rfl
  · rw [h]

lemma moves_build : Engine.Moves s.engine (s.after .build).engine := by
  refine after_of_ends (Q := fun s' => Engine.Moves s.engine s'.engine) ?_
  rw [step]
  refine ends_bind_get ?_
  split
  · exact ends_throw (.refl _)
  · rename_i b _
    refine Ends.bind ((ends_onEngine (Engine.travels_build b)).mono (fun _ _ h => h.1) ?_)
      fun r s' h => ends_bind_modify (ends_pure h)
    rintro _ _ ⟨⟨_, h⟩, -⟩
    exact h

/-- The engine after a call, when the result is known. -/
lemma engine_after {f : FiniteDomain.Action α} {g : α → Reply} {a : α}
    (hstep : step c = do return g (← onEngine f)) (h : result? f s.engine = some a) :
    f s.engine = .ok a (s.after c).engine := by
  obtain ⟨e, he⟩ := exists_of_result? h
  have hcall : onEngine f s = .ok a { s with engine := e } := by
    rw [onEngine, he]
  rw [he, after, hstep, bind_of_ok hcall]
  rfl

/-- Every command that is typed does what it is said to do, whatever comes of it. -/
lemma leads_after (w : s.engine.store.WellFormed) (h : c.IsTyped) :
    c.Leads s.engine (s.after c).engine := by
  cases c with
  | newVariable lo hi name => exact leads_of_travels rfl (Engine.travels_newVariable h.1 h.2 name)
  | newSparseVariable values name =>
    exact leads_of_travels rfl (Engine.travels_newSparseVariable h name)
  | newView w => exact leads_of_travels rfl (Engine.travels_newView w)
  | decide v d =>
    exact leads_of_result rfl
      ((Engine.ends_decide w v d).mono (fun _ _ _ => trivial) fun _ _ h => h)
  | add c => exact leads_of_travels rfl (Engine.travels_add h)
  | post cs => exact leads_of_travels rfl (Engine.travels_post h)
  | propagate => exact leads_of_travels rfl Engine.travels_propagate
  | checkpoint =>
    exact leads_of_result rfl (Engine.ends_checkpoint.mono (fun _ _ _ => trivial) fun _ _ h => h)
  | restore t =>
    have hends : Ends (Engine.restore (t.resolve s.engine)) s.engine
        (fun _ e' => Command.Leads s.engine e' (.restore t))
        fun _ e' => Command.Leads s.engine e' (.restore t) := by
      rw [Engine.restore]
      refine ends_bind_get (Engine.ends_bind_require (.inl (.refl _)) fun _ => ends_modify ?_)
      exact .inr ⟨_, .refl _, .refl _⟩
    exact (after_of_ends (c := .restore t) (ends_bind_get (calls_reply hends))).engine
  | handleConflict t =>
    have hends : Ends (Engine.handleConflict (t.resolve s.engine)) s.engine
        (fun _ e' => Command.Leads s.engine e' (.handleConflict t))
        fun _ e' => Command.Leads s.engine e' (.handleConflict t) :=
      Engine.travels_handleConflict.mono (fun _ _ h => .inr h) fun _ _ h => h
    exact (after_of_ends (c := .handleConflict t) (ends_bind_get (calls_reply hends))).engine
  | analyse => exact leads_of_travels rfl Engine.travels_analyse
  | declareInfeasible =>
    exact leads_of_travels (f := Engine.declareInfeasible) (g := fun _ => .done) rfl
      Engine.travels_declareInfeasible
  | newBuilder => exact (accounts_renewBuilder s).moves
  | put l =>
    change Engine.Moves s.engine _
    rw [engine_edit (c := .put l) (g := fun b => b.put l) rfl]
    exact .refl _
  | forbid v forbidden =>
    change Engine.Moves s.engine _
    rw [engine_edit (c := .forbid v forbidden) (g := fun b => b.forbid v forbidden) rfl]
    exact .refl _
  | build => exact moves_build

/-! ### Commands that are carried out -/

/-- The command is carried out. -/
def accepts (s : Session) (c : Command) : Bool :=
  match step c s with
  | .ok (.refused _) _ | .error _ _ => false
  | .ok _ _ => true

/-- A call of the engine that cannot be refused is carried out, or it is at fault. -/
lemma accepts_cases {α : Type} {f : FiniteDomain.Action α} {g : α → Reply} {s : Session}
    {c : Command} (hstep : step c = do return g (← onEngine f))
    (hg : ∀ a reason, g a ≠ .refused reason) :
    (s.accepts c = true ∧ ∃ a, f s.engine = .ok a (s.after c).engine) ∨
      s.accepts c = false ∧ ∃ x, f s.engine = .error x (s.after c).engine := by
  rw [accepts, after, hstep]
  cases hrun : f s.engine with
  | ok a e =>
    have hcall : onEngine f s = .ok a { s with engine := e } := by
      rw [onEngine, hrun]
    rw [bind_of_ok hcall]
    refine .inl ⟨?_, a, rfl⟩
    cases hreply : g a with
    | refused reason => exact absurd hreply (hg a reason)
    | _ => rfl
  | error x e =>
    have hcall : onEngine f s = .error (.engine x) { s with engine := e }.dropBuilder := by
      rw [onEngine, hrun]
    simp only [bind, EStateM.bind, hcall]
    exact .inr ⟨trivial, x, rfl⟩

/-- A decision is carried out, which may make the engine fail, or the engine stays as it is. -/
lemma decide_cases (inv : s.engine.Invariant) (v : VarId) (d : Decision) :
    (s.accepts (.decide v d) = true ∧
      ∃ r, Engine.decide v d s.engine = .ok r (s.after (.decide v d)).engine) ∨
    s.accepts (.decide v d) = false ∧ (s.after (.decide v d)).engine = s.engine := by
  rcases accepts_cases (s := s) (c := .decide v d) (f := Engine.decide v d) rfl
    (g := replyOf .changed) (by rintro (i | b) reason <;> nofun) with ⟨haccepts, r, hrun⟩ | h
  · exact .inl ⟨haccepts, r, hrun⟩
  · obtain ⟨haccepts, x, hrun⟩ := h
    have hsame := Ends.of_error hrun (Engine.ends_decide inv.consistent.store v d)
    exact .inr ⟨haccepts, hsame⟩

/-- A checkpoint is taken when no propagator waits, or the engine stays as it is. -/
lemma checkpoint_cases (s : Session) :
    (s.accepts .checkpoint = true ∧ s.engine.conflict = none ∧ s.engine.agenda.isEmpty = true ∧
      (s.after .checkpoint).engine = s.engine.marked) ∨
    s.accepts .checkpoint = false ∧ (s.after .checkpoint).engine = s.engine := by
  rcases accepts_cases (s := s) (c := .checkpoint) (f := Engine.checkpoint) rfl
    (g := Reply.level) nofun with ⟨haccepts, n, hrun⟩ | ⟨haccepts, x, hrun⟩
  · obtain ⟨-, hnone, hempty, hmarked⟩ := Ends.of_ok hrun Engine.ends_checkpoint
    exact .inl ⟨haccepts, hnone, hempty, hmarked⟩
  · have hsame := Ends.of_error hrun Engine.ends_checkpoint
    exact .inr ⟨haccepts, hsame⟩

/-! ### Runs -/

variable {P : Engine → Prop}
  (hmove : ∀ e e', Engine.Move e e' → e.Invariant → P e → P e')
  (hdecide : ∀ e v d r e', Engine.decide v d e = .ok r e' → e.Invariant → P e → P e')
  (hcheckpoint : ∀ e n e', Engine.checkpoint e = .ok n e' → e.Invariant → P e → P e')
  (hback : ∀ e level, level < e.level → e.Invariant → P e → P (e.goBack level))

include hmove hdecide hcheckpoint hback in
/-- What moves, decisions, checkpoints and going back keep, every command keeps. -/
lemma keeps_after (inv : s.engine.Invariant) (hfits : c.Fits s) (hP : P s.engine) :
    P (s.after c).engine := by
  have hmoves : ∀ {e e' : Engine}, Engine.Moves e e' → e.Invariant ∧ P e → P e' := by
    intro e e' h he
    refine (h.induct (P := fun e => e.Invariant ∧ P e) (fun e e' hm he => ?_) he).2
    exact ⟨hm.invariant he.1, hmove e e' hm he.1 he.2⟩
  have hgo : ∀ {t : Target}, t.resolve s.engine < s.engine.level →
      (Engine.Accounts s.engine (s.after c).engine ∨ ∃ e₁, Engine.Accounts s.engine e₁ ∧
        Engine.Moves (e₁.goBack (t.resolve s.engine)) (s.after c).engine) →
      P (s.after c).engine := by
    rintro t hl (haccounts | ⟨e₁, haccounts, h⟩)
    · exact hmoves haccounts.moves ⟨inv, hP⟩
    · have hl₁ : t.resolve s.engine < e₁.level := by
        rw [Engine.level, Engine.store, haccounts.space]
        exact hl
      have inv₁ := haccounts.invariant inv
      have hP₁ := hmoves haccounts.moves ⟨inv, hP⟩
      exact hmoves h ⟨(Engine.invariant_goBack inv₁ hl₁).1, hback e₁ _ hl₁ inv₁ hP₁⟩
  have hleads := leads_after inv.consistent.store hfits.isTyped
  cases c with
  | decide v d =>
    rcases hleads with heq | ⟨r, hrun⟩
    · rwa [heq]
    · exact hdecide _ v d r _ hrun inv hP
  | checkpoint =>
    rcases hleads with heq | ⟨n, hrun⟩
    · rwa [heq]
    · exact hcheckpoint _ n _ hrun inv hP
  | restore t => exact hgo hfits hleads
  | handleConflict t => exact hgo hfits hleads
  | _ => exact hmoves hleads ⟨inv, hP⟩

lemma scheduled_after (inv : s.engine.Invariant) (hs : s.engine.Scheduled) (hc : c.Fits s) :
    (s.after c).engine.Scheduled := by
  refine keeps_after (fun e e' hmove inv hs => hmove.scheduled inv hs)
    (fun e v d r e' hrun inv hs => ?_) (fun e n e' hrun inv hs => ?_)
    (fun e level hl inv hs => hs.goBack inv hl) inv hc hs
  · obtain ⟨hnone, -, hdecides⟩ := Ends.of_ok hrun (Engine.ends_decide inv.consistent.store v d)
    exact hdecides.scheduled inv hs hnone
  · obtain ⟨-, hnone, hempty, rfl⟩ := Ends.of_ok hrun Engine.ends_checkpoint
    exact hs.marked inv.consistent hnone hempty

/-- Along every run, the agenda is in order. -/
lemma Reachable.scheduled (h : s.Reachable) : s.engine.Scheduled := by
  obtain ⟨strategy, cs, hadmissible, rfl⟩ := h
  have hrun : ∀ (cs : List Command) (s : Session), s.Invariant → s.Admissible cs →
      s.engine.Scheduled → (s.run cs).engine.Scheduled := by
    intro cs
    induction cs with
    | nil => exact fun s _ _ hs => hs
    | cons c cs ih =>
      intro s inv hcs hs
      exact ih (s.after c) (inv.after hcs.1).1 hcs.2 (scheduled_after inv.engine hs hcs.1)
  exact hrun cs _ (invariant_new strategy) hadmissible (Engine.scheduled_empty strategy)

end Session

end FiniteDomain
