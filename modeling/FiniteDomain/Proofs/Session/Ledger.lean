import Mathlib.Tactic
import FiniteDomain.Proofs.Engine.Solutions
import FiniteDomain.Proofs.Session.Moves

/-!
What the caller of a session has said.

A ledger goes along with a run.  It keeps the constraints that the caller posted and that
were accepted, directly or through a clause builder, as the caller stated them; clauses
that were learned from conflicts are not in it.

* `Ledger.after`, `Ledger.run`: the ledger after a command, and after a run;
* `Ledger.Sound`: solutions of the posted constraints satisfy the constraints of all
  propagators, with `Ledger.Sound.after` for one command;
* `Ledger.Sound.run`: this holds along every run.
-/

namespace FiniteDomain

/-- What the caller has said so far. -/
structure Ledger where
  /-- The literals put into the clause builder, latest first. -/
  clause : Clause := []
  /-- The constraints that were accepted, latest first. -/
  posted : List Constraint := []
  /-- Whether the handling of a conflict showed that the problem has no solution. -/
  condemned : Bool := false

namespace Session

/-- The number of propagators that a command adds. -/
def added (s : Session) (c : Command) : Nat :=
  (s.after c).engine.propagators.length - s.engine.propagators.length

/-- The command says that the problem has no solution: it declares that, or is refused for
a clause that can never hold. -/
def condemns (s : Session) (c : Command) : Bool :=
  match step c s with
  | .ok (.refused .infeasibleClause) _ | .ok (.refused .unsupportedDerivation) _ => true
  | .ok _ s' | .error _ s' => s'.engine.infeasible && !s.engine.infeasible

end Session

namespace Ledger

/-- The ledger after a command in a session. -/
def after (l : Ledger) (s : Session) : Command → Ledger
  | .newBuilder => { l with clause := [] }
  | .put k => if s.accepts (.put k) then { l with clause := k :: l.clause } else l
  | .forbid v forbidden =>
    if s.accepts (.forbid v forbidden) then
      { l with clause := ⟨v, s.engine.store.initial v \ forbidden⟩ :: l.clause }
    else l
  | .add c => { l with posted := [c].take (s.added (.add c)) ++ l.posted }
  | .post cs => { l with posted := cs.take (s.added (.post cs)) ++ l.posted }
  | .build =>
    { l with
      clause := []
      posted := if s.accepts .build then .disjunction l.clause :: l.posted else l.posted }
  | .handleConflict t => { l with condemned := l.condemned || s.condemns (.handleConflict t) }
  | _ => l

/-- The ledger after a run. -/
def run (l : Ledger) (s : Session) : List Command → Ledger
  | [] => l
  | c :: cs => (l.after s c).run (s.after c) cs

end Ledger

/-- The assignment satisfies the updates before the first checkpoint that no propagator
asked for. -/
def Store.SatisfiesFacts (s : Store) (ρ : VarId → Int) : Prop :=
  ∀ p u, s.trail.entries[p]? = some u → s.isRootLevel p = true → u.request.cause = none →
    u.operation.Holds (ρ u.root)

namespace Ledger

variable {l l' : Ledger} {s s' : Session} {c : Command} {cs : List Command} {ρ : VarId → Int}

/-- The assignment satisfies all that the caller has said. -/
structure Satisfied (l : Ledger) (s : Session) (ρ : VarId → Int) : Prop where
  initial : s.engine.store.Initial ρ
  posted : ∀ c ∈ l.posted, c.Holds (s.engine.store.value ρ)
  facts : s.engine.store.SatisfiesFacts ρ

/-- Solutions of what the caller has said satisfy the constraints of all propagators, and
no conflict has shown that there are none. -/
structure Sound (l : Ledger) (s : Session) : Prop where
  known : ∀ c ∈ l.posted, c.Known s.engine.store
  builder : ∀ b, s.builder = some b → b.States l.clause
  solves : ∀ ρ, l.Satisfied s ρ →
    l.condemned = false ∧ ∀ q ∈ s.engine.propagators, q.constraint.Holds (s.engine.store.value ρ)

/-! ### Earlier solutions -/

/-- A solution after a command was one before it. -/
lemma Sound.satisfied (h : l.Sound s) (hcontinues : s.engine.store.Continues s'.engine.store)
    (hkept : ∀ c ∈ l.posted, c ∈ l'.posted) (hρ : l'.Satisfied s' ρ) : l.Satisfied s ρ where
  initial := hcontinues.initial_of hρ.initial
  posted c hc := (h.known c hc _ hcontinues ρ).1 (hρ.posted c (hkept c hc))
  facts p u hu hlevel hcause := by
    obtain ⟨hu, hlevel⟩ := hcontinues.fact p u hu hlevel
    exact hρ.facts p u hu hlevel hcause

/-- A solution solves the engine before the first checkpoint. -/
lemma Sound.solves_engine (h : l.Sound s) (inv : s.Invariant) (hρ : l.Satisfied s ρ) :
    s.engine.Solves ρ := by
  have hholds := (h.solves ρ hρ).2
  refine ⟨inv.engine.within hρ.initial hholds ?_ fun p u hp hu hcause => ?_, hholds⟩
  · exact inv.engine.consistent.store.trail.extent_le_length
  · exact hρ.facts p u hu (Store.isRootLevel_iff.2 (.inr hp)) hcause

/-- What has to be seen to after a command: the constraints that were posted are about
variables that exist, and solutions satisfy the constraints of the new propagators. -/
lemma Sound.step (h : l.Sound s) (inv : s.Invariant)
    (hcontinues : s.engine.store.Continues s'.engine.store)
    (hkept : ∀ c ∈ l.posted, c ∈ l'.posted)
    (hposted : ∀ c ∈ l'.posted, c ∈ l.posted ∨ c.Known s'.engine.store)
    (hbuilder : ∀ b, s'.builder = some b → b.States l'.clause)
    (hnew : ∀ ρ, l.Satisfied s ρ → l'.Satisfied s' ρ →
      (l.condemned = false → l'.condemned = false) ∧ ∀ q ∈ s'.engine.propagators,
        q ∈ s.engine.propagators ∨ q.constraint.Holds (s'.engine.store.value ρ)) :
    l'.Sound s' where
  known c hc := (hposted c hc).elim (fun hc => (h.known c hc).continues hcontinues) id
  builder := hbuilder
  solves ρ hρ' := by
    have hρ := h.satisfied hcontinues hkept hρ'
    obtain ⟨hcondemned, hold⟩ := h.solves ρ hρ
    obtain ⟨hcondemned', hnew⟩ := hnew ρ hρ hρ'
    refine ⟨hcondemned' hcondemned, fun q hq => (hnew q hq).elim (fun hq => ?_) id⟩
    have hknown := Constraint.known_of_fits (inv.engine.consistent.fits q hq)
    exact (hknown _ hcontinues ρ).2 (hold q hq)

/-! ### Commands -/

/-- A command that adds no propagators and says nothing new. -/
lemma Sound.steady (h : l.Sound s) (inv : s.Invariant)
    (hfollows : s.engine.Follows s'.engine) (hposted : l'.posted = l.posted)
    (hcondemned : l'.condemned = l.condemned)
    (hbuilder : ∀ b, s'.builder = some b → b.States l'.clause) : l'.Sound s' := by
  refine h.step inv hfollows.store (fun c hc => hposted ▸ hc) (fun c hc => .inl (hposted ▸ hc))
    hbuilder fun ρ _ _ => ⟨fun h => hcondemned.trans h, fun q hq => .inl ?_⟩
  rwa [hfollows.propagators] at hq

/-- Constraints that the caller posts. -/
lemma Sound.post (h : l.Sound s) (inv : s.Invariant) {new : List Constraint}
    (hcalls : Session.Calls (Engine.Posts new s.engine) s s') :
    Sound
      { l with
        posted :=
          new.take (s'.engine.propagators.length - s.engine.propagators.length) ++ l.posted }
      s' := by
  have hposts := hcalls.engine
  refine h.step inv hposts.continues (fun c hc => List.mem_append_right _ hc) (fun c hc => ?_)
    (fun b hb => h.builder b (hcalls.builder b hb)) fun ρ _ hρ => ⟨id, fun q hq => ?_⟩
  · refine (List.mem_append.1 hc).symm.imp_right fun hc => ?_
    obtain ⟨q, hq, hstands⟩ := hposts.exists_propagator hc
    have hknown := Constraint.known_of_fits (hposts.invariant.consistent.fits q hq)
    exact hknown.congr fun values => (hstands values).symm
  · refine (hposts.exists_constraint hq).imp_right ?_
    rintro ⟨c, hc, hstands⟩
    exact (hstands _).2 (hρ.posted c (List.mem_append_left _ hc))

/-- Solutions show that no conflict rules them out. -/
lemma condemns_handleConflict (inv : s.engine.Invariant) {t : Target}
    (h : t.resolve s.engine < s.engine.level) (hρ : s.engine.Solves ρ) :
    s.condemns (.handleConflict t) = false := by
  have hrun := Session.ends_onEngine (Engine.learns_handleConflict inv h)
  rw [Ends] at hrun
  have hstep : Session.step (.handleConflict t) s = (do
      return Session.replyOfPost .learned
        (← Session.onEngine (Engine.handleConflict (t.resolve s.engine)))) s := rfl
  rw [Session.condemns, hstep]
  simp only [bind, EStateM.bind]
  cases hresult : Session.onEngine (Engine.handleConflict (t.resolve s.engine)) s with
  | error x s' =>
    rw [hresult] at hrun
    obtain ⟨⟨_, hlearns⟩, -⟩ := hrun
    have hinfeasible := (hlearns.sound ρ hρ).1
    simp [hinfeasible]
  | ok r s' =>
    rw [hresult] at hrun
    obtain ⟨⟨hlearns, hreason⟩, -⟩ := hrun
    have hinfeasible := (hlearns.sound ρ hρ).1
    cases r with
    | ok c => simp [Session.replyOfPost, pure, EStateM.pure, hinfeasible]
    | error reason =>
      have hno := hreason reason rfl ρ hρ
      cases reason <;> simp_all [Session.replyOfPost, pure, EStateM.pure, Engine.Condemns]

/-- Handling a conflict. -/
lemma Sound.handleConflict (h : l.Sound s) (inv : s.Invariant) {t : Target}
    (hl : t.resolve s.engine < s.engine.level) :
    (l.after s (.handleConflict t)).Sound (s.after (.handleConflict t)) := by
  have hcalls := Session.calls_handleConflict inv.engine hl
  have hlearns := hcalls.engine
  refine h.step inv hlearns.continues (fun _ => id) (fun _ => .inl)
    (fun b hb => h.builder b (hcalls.builder b hb)) fun ρ hρ _ => ?_
  have hsolves := h.solves_engine inv hρ
  refine ⟨fun hcondemned => ?_, fun q hq => .inr ?_⟩
  · change (l.condemned || s.condemns (.handleConflict t)) = false
    rw [hcondemned, condemns_handleConflict inv.engine hl hsolves]
    rfl
  · rw [hlearns.value]
    exact (hlearns.sound ρ hsolves).2 q hq

/-- A literal that the builder does not know about changes nothing. -/
lemma accepts_edit {v : VarId} {g : ClauseBuilder → ClauseBuilder}
    (hstep : Session.step c = do Session.keep (g (← Session.builderFor v))) :
    (s.accepts c = true ∧ Session.Edits v g s (s.after c)) ∨
      (s.accepts c = false ∧ s.after c = s) := by
  have h := Session.ends_edit v g (s := s)
  rw [← hstep, Ends] at h
  rw [Session.accepts, Session.after]
  cases hrun : Session.step c s with
  | ok r s' =>
    rw [hrun] at h
    obtain ⟨⟨b, rfl⟩, hedits⟩ := h
    exact .inl ⟨rfl, hedits⟩
  | error x s' =>
    rw [hrun] at h
    exact .inr ⟨rfl, h⟩

/-- Another literal in the builder. -/
lemma Sound.edit (h : l.Sound s) (inv : s.Invariant) {k : ClauseBuilder → Literal}
    {k' : Literal} {v : VarId} (hk : ∀ b, (k b).var = v)
    (hk' : ∀ b, b.store.has v = true → b.store.Continues s.engine.store → k b = k')
    (hedits : Session.Edits v (fun b => b.put (k b)) s s') :
    Sound { l with clause := k' :: l.clause } s' := by
  obtain ⟨b, hb, hv, rfl⟩ := hedits
  obtain ⟨w, hcontinues⟩ := inv.builder b hb
  refine h.steady inv (.refl _) rfl rfl fun b' hb' => ?_
  cases hb'
  rw [← hk' b hv hcontinues]
  exact (h.builder b hb).put w ((hk b).symm ▸ hv)

/-- The clause of the builder. -/
lemma Sound.build (h : l.Sound s) (inv : s.Invariant) :
    (l.after s .build).Sound (s.after .build) := by
  have hrun := Session.ends_build inv.engine
  have hnil : ∀ b, (s.after .build).builder = some b → b.States [] :=
    fun b _ => ClauseBuilder.states_nil
  have hsteady : s.accepts .build = false → s.engine.Follows (s.after .build).engine →
      (l.after s .build).Sound (s.after .build) := by
    intro haccepts hfollows
    refine h.steady inv hfollows ?_ rfl hnil
    rw [after, haccepts, if_neg Bool.false_ne_true]
  rw [Ends] at hrun
  cases hresult : Session.step .build s with
  | error x s' =>
    rw [hresult] at hrun
    have haccepts : s.accepts .build = false := by rw [Session.accepts, hresult]
    have hafter : s.after .build = s' := by rw [Session.after, hresult]
    exact hsteady haccepts (hafter ▸ hrun.engine.2)
  | ok r s' =>
    rw [hresult] at hrun
    have hafter : s.after .build = s' := by rw [Session.after, hresult]
    obtain ⟨b, hb, -, hadds, rfl | ⟨⟨reason, rfl⟩, hpropagators⟩⟩ := hrun
    · have haccepts : s.accepts .build = true := by rw [Session.accepts, hresult]
      obtain ⟨w, hbuilder⟩ := inv.builder b hb
      have hstates := h.builder b hb
      have hcontinues := hbuilder.trans hadds.continues
      have hafter' : l.after s .build =
          { l with clause := [], posted := .disjunction l.clause :: l.posted } := by
        rw [after, haccepts, if_pos rfl]
      rw [hafter', hafter]
      refine h.step inv hadds.continues (fun c hc => List.mem_cons_of_mem _ hc) (fun c hc => ?_)
        (fun b _ => ClauseBuilder.states_nil) fun ρ _ hρ => ⟨id, fun q hq => ?_⟩
      · refine (List.mem_cons.1 hc).symm.imp_right ?_
        rintro rfl
        exact Constraint.known_disjunction fun k hk => hcontinues.has _ (hstates.has k hk)
      · have hclause : l.clause.Holds (s'.engine.store.value ρ) :=
          hρ.posted _ List.mem_cons_self
        have hresult := hstates.result w (hcontinues.initial_of hρ.initial)
          (fun v hv => hcontinues.value hv) hclause
        exact (hadds.sound _ hresult).2 q hq
    · have haccepts : s.accepts .build = false := by rw [Session.accepts, hresult]
      exact hsteady haccepts (hafter ▸ ⟨hadds.continues, hpropagators⟩)

/-- Whatever the caller says, the ledger is right about it. -/
lemma Sound.after (h : l.Sound s) (inv : s.Invariant) (hc : c.Fits s) :
    (l.after s c).Sound (s.after c) := by
  have hengine := inv.engine
  cases c with
  | add constraint => exact h.post inv (Session.calls_add hengine hc)
  | post constraints => exact h.post inv (Session.calls_post hengine hc)
  | handleConflict t => exact h.handleConflict inv hc
  | newBuilder =>
    obtain ⟨halike, -, -⟩ := Session.after_newBuilder (s := s)
    exact h.steady inv halike.follows rfl rfl fun b _ => ClauseBuilder.states_nil
  | put k =>
    rcases accepts_edit (s := s) (c := .put k) rfl with ⟨haccepts, hedits⟩ | ⟨haccepts, hsame⟩
    · rw [Ledger.after, if_pos haccepts]
      exact h.edit inv (k := fun _ => k) (fun _ => rfl) (fun _ _ _ => rfl) hedits
    · rw [Ledger.after, haccepts, if_neg Bool.false_ne_true, hsame]
      exact h
  | forbid v forbidden =>
    rcases accepts_edit (s := s) (c := .forbid v forbidden) rfl with
      ⟨haccepts, hedits⟩ | ⟨haccepts, hsame⟩
    · rw [Ledger.after, if_pos haccepts]
      refine h.edit inv (k := fun b => ⟨v, b.initial v \ forbidden⟩) (fun _ => rfl)
        (fun b hv hcontinues => ?_) hedits
      rw [ClauseBuilder.initial, hcontinues.initial v hv]
    · rw [Ledger.after, haccepts, if_neg Bool.false_ne_true, hsame]
      exact h
  | build => exact h.build inv
  | _ =>
    have hcalls := Session.calls_steady hengine hc rfl
    exact h.steady inv hcalls.engine.2 rfl rfl fun b hb => h.builder b (hcalls.builder b hb)

/-! ### Runs -/

lemma Sound.run (h : l.Sound s) (inv : s.Invariant) (hcs : s.Admissible cs) :
    (l.run s cs).Sound (s.run cs) := by
  induction cs generalizing l s with
  | nil => exact h
  | cons c cs ih => exact ih (h.after inv hcs.1) (inv.after hcs.1).1 hcs.2

/-- A new session has heard nothing. -/
lemma sound_new (strategy : Strategy) : Sound {} (Session.new strategy) :=
  ⟨nofun, nofun, fun _ _ => ⟨rfl, fun q hq => by simp [Session.new, Engine.propagators] at hq⟩⟩

end Ledger

end FiniteDomain
