import Mathlib.Tactic
import FiniteDomain.Proofs.Engine.Pending
import FiniteDomain.Proofs.Session.Checkpoints

/-!
Propagation always comes to an end.

No loop of propagation is cut off by the rounds that it is given: not the one over the agenda, nor
the one over the events of a propagator, nor those of the maximum.  This is so in all sessions,
whatever the constraints are on and wherever the engine went back to.

* `Session.kept_after`, `Session.kept_after_of_intact`: what calls of the engine keep, every command
  keeps;
* `Session.tidy_after`, `Session.Arises.tidy`: the engine is tidy after every command;
* `Engine.TurnEnds`: all loops in one turn of propagation end, with `Engine.turnEnds`;
* `Session.propagation_ends`: propagation and all its loops end.
-/

namespace FiniteDomain

namespace Engine

variable {e e₁ : Engine} {p : PropId} {slot : Slot} {a : Agenda}

/-- The loops in the turn of a propagator that is taken from the agenda come to an end.  If it is
called for the events in its slot, the loop over these is what the turn does; in a call of a
maximum, wherever it has got to, both loops end within as many rounds as there are values. -/
structure TurnEnds (e : Engine) (p : PropId) (a : Agenda) (slot : Slot) : Prop where
  serve : e.memory.activity p = .active → slot.propagator.fine = true →
    Concludes (serve p slot.propagator) { e with agenda := a } (slot.pending.length + 1) ∧
    Ends (work p) { e with agenda := a }
      (fun _ e' => Engine.serve p slot.propagator (slot.pending.length + 1)
        { e with agenda := a } = .ok () e')
      fun x e' => ∃ rest, Engine.serve p slot.propagator (slot.pending.length + 1)
        { e with agenda := a } = .error x (e'.withPending p rest)
  maximum : ∀ (c : Maximum) (t : Space), slot.propagator = .maximum c →
    Space.Ran .any p [] ((e.taken a p slot).activated p slot.propagator).space t →
      Concludes (c.rounds p) t t.rounds ∧ ∀ v ∈ c.array, Concludes (c.agree p v) t t.rounds

/-- All loops in one turn of propagation end. -/
lemma turnEnds (h : e.Tidy) (hpop : e.agenda.pop = some (p, a))
    (hslot : e.slots[p.index]? = some slot) : e.TurnEnds p a slot := by
  have hq := propagator_of_slot hslot
  refine ⟨fun hact hfine => ?_, fun c t hc hran => ?_⟩
  · let e₀ : Engine := { e with agenda := a }
    have hpending : e₀.pending p = slot.pending := by
      rw [pending, hslot]
      rfl
    have htaken : e₀.relieved p slot = e₀.withPending p [] := relieved_eq hslot
    have heases : Eases e (e₀.relieved p slot) :=
      eases_taken h hpop hslot fun h => Activity.noConfusion (hact.symm.trans h)
    rw [htaken] at heases
    have hq' := heases.trims.propagators.symm ▸ hq
    have hconcludes := concludes_serve heases.tidy hq'
    have hserve := serve_eq_deliver (e := e₀) (q := slot.propagator)
      (Nat.lt_succ_self (e₀.pending p).length)
    rw [hpending] at hconcludes hserve
    refine ⟨hconcludes, ?_⟩
    rcases work_cases (e := e₀) hslot with ⟨hact', -⟩ | ⟨hact' | ⟨-, hfine'⟩, -⟩ | ⟨-, -, hrun⟩
    · exact Activity.noConfusion (hact.symm.trans hact')
    · exact Activity.noConfusion (hact.symm.trans hact')
    · exact Bool.noConfusion (hfine.symm.trans hfine')
    · rw [Ends, hrun, htaken]
      exact hserve
  · have heases := eases_activated h hpop hslot
    have w := heases.trims.intact
    have hq' := heases.trims.propagators.symm ▸ hq
    rw [hc] at hq' heases hran w
    have hobs : ¬ (Propagator.maximum c).IsObserver := by
      rintro ⟨o, ho⟩
      cases ho
    have hscope := w.scope _ (List.mem_of_getElem? hq') hobs
    have hp := w.lt_size hq'
    have hsize := hran.memory.size_activities
    have harray : c.array ≠ [] := heases.tidy.proper _ (List.mem_of_getElem? hq')
    have wt := hran.wellFormed w.wellFormed
    have htscope : ∀ v ∈ c.scope, t.store.has v = true := fun v hv =>
      hran.has w.wellFormed (hscope v hv)
    exact ⟨Maximum.concludes_rounds wt htscope (hsize.symm ▸ hp) harray,
      fun v hv => Maximum.concludes_agree wt htscope hv⟩

end Engine

namespace Session

variable {s : Session} {c : Command}

/-- What moves, decisions, checkpoints and going back keep, every command keeps, wherever it goes
back to. -/
lemma kept_after {P : Engine → Prop} (hintact : ∀ e, P e → e.Intact)
    (hmove : ∀ e e', Engine.Move e e' → P e → P e')
    (hdecides : ∀ e v d r e', Engine.Decides v d e r e' → P e → P e')
    (hmarked : ∀ e, P e → P e.marked) (hgoBack : ∀ e level, P e → P (e.goBack level))
    (hc : c.IsTyped) (h : P s.engine) : P (s.after c).engine := by
  have hmoves : ∀ {e e'}, Engine.Moves e e' → P e → P e' := fun hm => hm.induct hmove
  have hback : ∀ {n : Nat} {e' : Engine}, (Engine.Accounts s.engine e' ∨
      ∃ e₁, Engine.Accounts s.engine e₁ ∧ Engine.Moves (e₁.goBack n) e') → P e' := by
    rintro n e' (haccounts | ⟨e₁, haccounts, hm⟩)
    · exact hmoves haccounts.moves h
    · exact hmoves hm (hgoBack e₁ n (hmoves haccounts.moves h))
  have w := hintact _ h
  have hleads := leads_after w.store hc
  cases c with
  | decide v d =>
    rcases hleads with hsame | ⟨r, hrun⟩
    · rwa [hsame]
    · obtain ⟨-, -, hd⟩ := Ends.of_ok hrun (Engine.ends_decide w.store v d)
      exact hdecides _ v d r _ hd h
  | checkpoint =>
    rcases hleads with hsame | ⟨n, hrun⟩
    · rwa [hsame]
    · obtain ⟨-, -, -, hm⟩ := Ends.of_ok hrun Engine.ends_checkpoint
      rw [hm]
      exact hmarked _ h
  | restore t => exact hback hleads
  | handleConflict t => exact hback hleads
  | _ => exact hmoves hleads h

/-- If the engine is in order, then every command keeps what moves keep and what is kept when
domains shrink, at checkpoints and when the engine goes back. -/
lemma kept_after_of_intact {P : Engine → Prop} (w : s.engine.Intact) (h : P s.engine)
    (hmove : ∀ e e', e.Intact → Engine.Move e e' → P e → P e')
    (htrims : ∀ e e', Engine.Trims e e' → P e → P e') (hmarked : ∀ e, P e → P e.marked)
    (hgoBack : ∀ e level, e.Intact → P e → P (e.goBack level)) (hc : c.IsTyped) :
    P (s.after c).engine := by
  refine (kept_after (P := fun e => e.Intact ∧ P e) (fun _ h => h.1) (fun e e' hm h => ?_)
    (fun e v d r e' hd h => ?_) (fun e h => ⟨h.1.marked, hmarked e h.2⟩)
    (fun e level h => ⟨h.1.goBack level, hgoBack e level h.1 h.2⟩) hc ⟨w, h⟩).2
  · exact ⟨(hm.stays h.1).intact, hmove e e' h.1 hm h.2⟩
  · have ht := hd.trims h.1
    exact ⟨ht.intact, htrims e e' ht h.2⟩

/-- Every command leaves the engine tidy. -/
lemma tidy_after (h : s.engine.Tidy) (hc : c.IsTyped) : (s.after c).engine.Tidy :=
  kept_after (fun _ h => h.intact) (fun _ _ hmove => hmove.tidy)
    (fun _ _ _ _ _ hdecides => hdecides.tidy) (fun _ h => h.marked)
    (fun _ level h => h.goBack level) hc h

lemma Arises.tidy (h : s.Arises) : s.engine.Tidy :=
  h.induct (P := fun s => s.engine.Tidy) Engine.tidy_empty fun _ _ _ hc h => tidy_after h hc

/-- In every session that a run leads to, propagation returns.  Its loop over the agenda comes to
an end after as many turns as the load says, and further rounds would change nothing.  In each turn
that it takes, the loop over the events of the propagator ends, and so do the loops of a maximum. -/
theorem propagation_ends (h : s.Arises) :
    (∃ r e', Engine.propagate s.engine = .ok r e') ∧
    Concludes Engine.drain s.engine (s.engine.load + 1) ∧
    ∀ e p a slot, s.engine.Passes e → e.agenda.pop = some (p, a) →
      e.slots[p.index]? = some slot → e.TurnEnds p a slot := by
  refine ⟨?_, Engine.concludes_drain h.tidy, fun e p a slot hpasses hpop hslot => ?_⟩
  · obtain ⟨r, e', hrun, -⟩ := (Engine.tidy_propagate h.tidy).exists_ok
    exact ⟨r, e', hrun⟩
  · exact Engine.turnEnds (hpasses.eases h.tidy).tidy hpop hslot

/-- Elements that are listed twice, views on one root among them and as their maximum, holes and
all values there are, an observer, and propagators that wait after going back to the current
level. -/
def tangled : Session := (new .allDecision).run
  [.newSparseVariable [1, 4, 6, 9] none, .newVariable Value.least Value.greatest none,
    .newView ⟨.atMost 4, ⟨0⟩⟩, .newView ⟨.equals 9, ⟨0⟩⟩,
    .add (.maximum ⟨[⟨0⟩, ⟨1⟩, ⟨0⟩], ⟨1⟩⟩), .add (.maximum ⟨[⟨2⟩, ⟨3⟩, ⟨2⟩], ⟨3⟩⟩),
    .add (.count ⟨[⟨2⟩, ⟨3⟩, ⟨2⟩], 1, ⟨0⟩⟩), .add (.member ⟨⟨0⟩, .ofRange 2 7⟩),
    .add (.disjunction [⟨⟨1⟩, .single 5⟩, ⟨⟨2⟩, .single 1⟩]),
    .add (.observer { scope := [⟨0⟩, ⟨0⟩] }), .decide ⟨1⟩ (.apply (.atMost 8)),
    .restore (.level 0)]

/-- All of it comes to an end. -/
theorem propagation_ends_tangled : tangled.engine.agenda.waiting.length = 6 ∧
    (∃ r e', Engine.propagate tangled.engine = .ok r e') ∧
    Concludes Engine.drain tangled.engine (tangled.engine.load + 1) ∧
    ∀ e p a slot, tangled.engine.Passes e → e.agenda.pop = some (p, a) →
      e.slots[p.index]? = some slot → e.TurnEnds p a slot :=
  ⟨by decide +kernel, propagation_ends ⟨.allDecision, _, by decide +kernel, rfl⟩⟩

end Session

end FiniteDomain
