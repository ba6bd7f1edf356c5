import Mathlib.Tactic
import FiniteDomain.Proofs.Decision
import FiniteDomain.Proofs.Engine.Invariant

/-!
Decisions and propagation keep the invariant.

Between two calls of propagators all active ones are up to date.  A call changes the
domains on the grounds of one propagator; the sets of the others stay, and are not
made wrong by smaller domains.

* `Engine.Working`, `Engine.Halted`: engines between two calls, and after one that
  stopped;
* `Engine.runs_call`: one call of a propagator;
* `Engine.runs_work`, `Engine.drain_spec`: the calls of one propagator, and of all that
  wait;
* `Engine.Keeps`: an action that keeps the invariant, with `Engine.keeps_decide` and
  `Engine.keeps_propagate`.
-/

namespace FiniteDomain

namespace Engine

variable {e e' e'' : Engine} {p : PropId} {q : Propagator}

/-- An engine between two calls of propagators. -/
structure Working (e : Engine) : Prop where
  consistent : e.space.Consistent e.propagators
  ready : e.space.Ready e.propagators

/-- An engine after a call that stopped. -/
def Halted (e : Engine) : Stop → Prop
  | .inconsistent _ => e.space.Consistent e.propagators ∧
      ((∀ q ∈ e.propagators, ¬ q.IsObserver) → e.store.failure.isSome = true)
  | .exhausted => Working e

/-- What a run of propagators leaves. -/
structure Goes (e e' : Engine) : Prop extends Follows e e' where
  conflict : e'.conflict = e.conflict

lemma Goes.refl (e : Engine) : Goes e e := ⟨.refl e, rfl⟩

lemma Goes.trans (h : Goes e e') (h' : Goes e' e'') : Goes e e'' :=
  ⟨h.toFollows.trans h'.toFollows, h'.conflict.trans h.conflict⟩

lemma Alike.goes (h : Alike e e') : Goes e e' := ⟨h.follows, h.conflict⟩

lemma Alike.working (h : Alike e e') (w : Working e) : Working e' :=
  ⟨h.consistent w.consistent, h.ready w.ready⟩

/-- A run of propagators that keeps the engine in order, whether it ends or stops. -/
def Runs (f : Run Unit) (e : Engine) : Prop :=
  Ends f e (fun _ e' => Working e' ∧ Goes e e') fun x e' => Halted e' x ∧ Goes e e'

/-! ### One call -/

/-- All active propagators but one are up to date. -/
def TrackedBut (p : PropId) (e : Engine) : Prop :=
  ∀ i q, i ≠ p.index → e.propagators[i]? = some q → e.memory.activity ⟨i⟩ = .active →
    q.Tracks e.memory e.store.domain

lemma Working.trackedBut (w : Working e) (p : PropId) : TrackedBut p e :=
  fun i q _ => w.ready.tracked i q

lemma tracks_of_own (h : q.own = []) (m : Memory) (dom : VarId → IntervalSet) :
    q.Tracks m dom := by
  cases q with
  | count c sets => cases h
  | _ => trivial

lemma goes_withSpace {t : Space} (h : e.store.Continues t.store) : Goes e (e.withSpace t) :=
  ⟨⟨h, rfl⟩, rfl⟩

/-- After a run of a propagator that left it up to date. -/
lemma working_of_ran {t : Space} (hc : e.space.Consistent e.propagators)
    (hf : e.store.failure = none) (hbut : TrackedBut p e)
    (hq : e.propagators[p.index]? = some q) (hran : Space.Ran q.Justified p q.own e.space t)
    (htracks : q.Tracks t.memory t.store.domain) : Working (e.withSpace t) := by
  have hsh := hran.store.shrinks hc.store
  refine ⟨hc.step (grounded_of_justified hq) hran.store hran.memory hf, ?_, ?_⟩
  · exact hsh.failure.trans hf
  · exact tracked_of_kept hbut hq hc.apart hran.memory hsh.domain htracks

lemma runs_call {f : Filter Unit} (hc : e.space.Consistent e.propagators)
    (hf : e.store.failure = none) (hbut : TrackedBut p e)
    (hq : e.propagators[p.index]? = some q) (hcalls : q.Calls p e.space f) :
    Ends (call p f) e
      (fun _ e' => (Working e' ∧ Goes e e') ∧ q.Tracks e'.memory e'.store.domain)
      fun x e' => Halted e' x ∧ Goes e e' := by
  simp only [Ends, call, Propagator.Calls] at *
  cases hrun : f e.space with
  | ok a t =>
    rw [hrun] at hcalls
    obtain ⟨hran, htracks⟩ := hcalls
    have halike := alike_notify (some p) (e.withSpace t)
    have hwork := working_of_ran hc hf hbut hq hran htracks
    refine ⟨⟨halike.working hwork,
      (goes_withSpace (hran.store.continues hc.store)).trans halike.goes⟩, ?_⟩
    rw [halike.memory, halike.domain]
    exact htracks
  | error x t =>
    rw [hrun] at hcalls
    cases x with
    | inconsistent i =>
      rcases hcalls with ⟨hrefused, hkept⟩ | ⟨⟨o, rfl⟩, hstore, hmemory⟩
      · have h := hc.refused (grounded_of_justified hq) hrefused hkept hf
        exact ⟨⟨h.1, fun _ => h.2⟩, goes_withSpace (hrefused.continues hc.store)⟩
      · have hstep : t.Consistent e.propagators :=
          hc.congr (by rw [hstore]) (by rw [hstore]) (by rw [hstore]) hmemory
        refine ⟨⟨hstep, fun hobs => ?_⟩, goes_withSpace ?_⟩
        · exact absurd ⟨o, rfl⟩ (hobs _ (List.mem_of_getElem? hq))
        · rw [hstore]
          exact .refl _
    | exhausted =>
      rcases hcalls with ⟨hown, hran⟩ | ⟨⟨o, rfl⟩, hstore, hmemory⟩
      · have hwork := working_of_ran hc hf hbut hq hran (tracks_of_own hown _ _)
        exact ⟨hwork, goes_withSpace (hran.store.continues hc.store)⟩
      · have hran : Space.Ran (Propagator.observer o).Justified p (Propagator.observer o).own
            e.space t := by
          refine ⟨?_, ?_⟩
          · rw [hstore]
            exact .refl
          · rw [hmemory]
            exact .refl hc.memory
        have hwork := working_of_ran hc hf hbut hq hran trivial
        exact ⟨hwork, goes_withSpace (hran.store.continues hc.store)⟩

/-! ### The calls of one propagator -/

lemma lt_size_of_propagator (hc : e.space.Consistent e.propagators)
    (hq : e.propagators[p.index]? = some q) : p.index < e.memory.activities.size := by
  have hsize : e.memory.activities.size = e.propagators.length := hc.size
  rw [hsize]
  exact (List.getElem?_eq_some_iff.1 hq).1

/-- A propagator that is called from scratch need not be up to date before. -/
lemma runs_start (w : Working e) (hq : e.propagators[p.index]? = some q) :
    Runs (start p q) e := by
  have hp := lt_size_of_propagator w.consistent hq
  rw [start]
  let e₁ : Engine := e.activated p q
  have hkept : Memory.Kept p [] e.memory (e.memory.setActivity p .active) :=
    .setActivity w.consistent.memory hp nofun
  have hsame : Store.Narrowing (fun _ _ _ => False) none e.store e₁.store := .refl
  have hc : e₁.space.Consistent e₁.propagators :=
    w.consistent.step (fun _ _ _ h => h.elim) hsame hkept w.ready.failure
  have hbut : TrackedBut p e₁ := by
    intro i q' hi hq' hact
    have hne : (⟨i⟩ : PropId) ≠ p := fun h => hi (congrArg PropId.index h)
    have hact : (e.memory.setActivity p .active).activity ⟨i⟩ = .active := hact
    rw [hkept.activity _ hne] at hact
    refine (w.ready.tracked i q' hq' hact).congr fun j _ e' => ?_
    exact hkept.contains j List.not_mem_nil e'
  have hcalls : q.Calls p e₁.space (q.propagate p) := by
    refine Propagator.calls_propagate hc.wellFormed (hc.fits q (List.mem_of_getElem? hq)) ?_
    exact lt_size_of_propagator (e := e₁) hc hq
  have hrun := runs_call (e := e₁) hc w.ready.failure hbut hq hcalls
  have hgoes : Goes e e₁ := ⟨⟨.refl _, rfl⟩, rfl⟩
  refine ends_bind_modify ?_
  exact Ends.mono hrun (fun _ _ h => ⟨h.1.1, hgoes.trans h.1.2⟩) fun _ _ h =>
    ⟨h.1, hgoes.trans h.2⟩

/-- A propagator that is called for events is up to date before. -/
lemma runs_deliver (w : Working e) (hq : e.propagators[p.index]? = some q)
    (htracks : q.Tracks e.memory e.store.domain) (events : Assoc Nat EventSet) :
    Runs (deliver p q events) e := by
  induction events generalizing e with
  | nil => exact ends_pure ⟨w, .refl e⟩
  | cons event events ih =>
    obtain ⟨index, set⟩ := event
    rw [deliver]
    refine ends_bind_get ?_
    split
    case isFalse => exact ends_pure ⟨w, .refl e⟩
    have halike := alike_alerted e p q index set
    refine Ends.bind (Q := fun _ e' => Alike e e') (ends_modify halike) fun _ e' halike => ?_
    have w' := halike.working w
    have hq' : e'.propagators[p.index]? = some q := by rw [halike.propagators, hq]
    have htracks' : q.Tracks e'.memory e'.store.domain := by
      rw [halike.memory, halike.domain]
      exact htracks
    have hcalls : q.Calls p e'.space (q.react p index set) :=
      Propagator.calls_react w'.consistent.wellFormed
        (w'.consistent.fits q (List.mem_of_getElem? hq'))
        (lt_size_of_propagator w'.consistent hq') htracks' index set
    have hrun := runs_call w'.consistent w'.ready.failure (w'.trackedBut p) hq' hcalls
    refine Ends.bind (hrun.mono (fun _ _ h => h) fun x e'' h => ?_) fun _ e'' h => ?_
    · exact ⟨h.1, halike.goes.trans h.2⟩
    · obtain ⟨⟨w'', hgoes⟩, htracks''⟩ := h
      have hrest := ih w'' (by rw [hgoes.propagators, hq']) htracks''
      have hall := halike.goes.trans hgoes
      exact hrest.mono (fun _ _ h => ⟨h.1, hall.trans h.2⟩) fun _ _ h => ⟨h.1, hall.trans h.2⟩

lemma runs_work (w : Working e) (p : PropId) : Runs (work p) e := by
  rw [work]
  refine ends_bind_get ?_
  split
  · exact ends_pure ⟨w, .refl e⟩
  rename_i slot hslot
  have halike : Alike e { e with
      slots := e.slots.setIfInBounds p.index { slot with pending := [] } } :=
    ⟨propagators_setSlot hslot rfl, rfl, rfl, rfl, rfl, rfl, rfl⟩
  refine Ends.bind (Q := fun _ e' => Alike e e') (ends_set halike) fun _ e' halike => ?_
  have w' := halike.working w
  have hq : e'.propagators[p.index]? = some slot.propagator := by
    rw [halike.propagators, ← propagator?_eq, propagator?, hslot]
    rfl
  have hstart : Runs (start p slot.propagator) e' := runs_start w' hq
  refine Ends.mono (Q := fun _ e'' => Working e'' ∧ Goes e' e'')
    (E := fun x e'' => Halted e'' x ∧ Goes e' e'') ?_
    (fun _ _ h => ⟨h.1, halike.goes.trans h.2⟩) fun _ _ h => ⟨h.1, halike.goes.trans h.2⟩
  split
  · exact ends_pure ⟨w', .refl e'⟩
  · exact hstart
  · rename_i hact
    split
    · refine runs_deliver w' hq (w'.ready.tracked p.index _ hq ?_) _
      rw [← hact]
      exact congrArg (fun m => m.activity p) halike.memory
    · exact hstart

/-! ### All calls -/

/-- An engine that failed keeps the invariant. -/
lemma invariant_fail {i : Inconsistency} (h : Halted e (.inconsistent i)) (j : Inconsistency) :
    (e.fail j).Invariant := by
  refine (alike_fail e j).invariant ⟨h.1, nofun, fun _ hobs => h.2 hobs⟩

/-- The calls of all propagators that wait: the engine goes on working, or fails. -/
lemma drain_spec (n : Nat) (w : Working e) (hnone : e.conflict = none) :
    Ends (drain n) e (fun _ e' => Working e' ∧ Goes e e') fun x e' =>
      match x with
      | .inconsistent _ => e'.Invariant ∧ Follows e e'
      | .exhausted => Working e' ∧ Goes e e' := by
  induction n generalizing e with
  | zero => exact ends_throw ⟨w, .refl e⟩
  | succ n ih =>
    rw [Ends, drain]
    dsimp only
    cases hpop : e.agenda.pop with
    | none => exact ⟨w, .refl e⟩
    | some next =>
      obtain ⟨p, agenda⟩ := next
      have halike : Alike e { e with agenda := agenda } := ⟨rfl, rfl, rfl, rfl, rfl, rfl, rfl⟩
      have hwork := runs_work (halike.working w) p
      dsimp only
      cases hrun : work p { e with agenda := agenda } with
      | ok a e' =>
        obtain ⟨w', hgoes⟩ := Ends.of_ok hrun hwork
        have hall := halike.goes.trans hgoes
        refine Ends.mono (ih w' (hall.conflict.trans hnone)) (fun _ e'' h => ?_) fun x e'' h => ?_
        · exact ⟨h.1, hall.trans h.2⟩
        · cases x with
          | inconsistent i => exact ⟨h.1, hall.toFollows.trans h.2⟩
          | exhausted => exact ⟨h.1, hall.trans h.2⟩
      | error x e' =>
        obtain ⟨hhalt, hgoes⟩ := Ends.of_error hrun hwork
        cases x with
        | inconsistent i =>
          have hnote :=
            alike_note e' (.failed (((e'.propagator? p).map Propagator.name).getD "") p i)
          refine ⟨invariant_fail (i := i) ⟨hnote.consistent hhalt.1, hhalt.2⟩ i, ?_⟩
          exact (halike.goes.trans hgoes).toFollows.trans
            ⟨Store.continues_of_eq rfl rfl, propagators_clearPending _⟩
        | exhausted => exact ⟨hhalt, halike.goes.trans hgoes⟩

/-! ### Actions -/

/-- The action keeps the invariant, whether it is carried out or refused. -/
def Keeps {α : Type} (f : Action α) (e : Engine) : Prop :=
  Ends f e (fun _ e' => e'.Invariant ∧ Follows e e') fun _ e' => e'.Invariant ∧ Follows e e'

section Keeps

variable {α β : Type} {f : Action α} {g : α → Action β}

lemma keeps_pure {a : α} (inv : e.Invariant) : Keeps (pure a : Action α) e :=
  ends_pure ⟨inv, .refl e⟩

lemma keeps_get {g : Engine → Action β} (h : Keeps (g e) e) : Keeps (get >>= g) e := h

/-- A condition, after which the rest of the action may rely on it. -/
lemma ends_bind_require {Q : β → Engine → Prop} {E : Fault → Engine → Prop} {b : Bool}
    {m : Misuse} {g : Unit → Action β} (hE : E (.misuse m) e)
    (h : b = true → Ends (g ()) e Q E) : Ends (Action.require b m >>= g) e Q E := by
  cases b with
  | true => exact h rfl
  | false => exact hE

lemma keeps_require {b : Bool} {m : Misuse} {g : Unit → Action β} (inv : e.Invariant)
    (h : b = true → Keeps (g ()) e) : Keeps (Action.require b m >>= g) e :=
  ends_bind_require ⟨inv, .refl e⟩ h

/-- A variable that exists, after which the rest of the action may rely on it. -/
lemma ends_bind_requireVariable {Q : β → Engine → Prop} {E : Fault → Engine → Prop} {v : VarId}
    {g : Unit → Action β} (hE : E (.unknownVariable v) e)
    (h : e.store.has v = true → Ends (g ()) e Q E) :
    Ends (Action.requireVariable v >>= g) e Q E := by
  refine Ends.bind (Q := fun _ e' => e' = e ∧ e.store.has v = true) (E := E) ?_ fun _ e' he => ?_
  · rw [Action.requireVariable]
    refine ends_bind_get ?_
    cases hv : e.store.has v with
    | true => exact ends_pure ⟨rfl, rfl⟩
    | false => exact ends_throw hE
  · obtain ⟨rfl, hv⟩ := he
    exact h hv

end Keeps

lemma keeps_decide (inv : e.Invariant) (v : VarId) (d : Decision) :
    Keeps (Engine.decide v d) e := by
  rw [Engine.decide]
  refine keeps_get (keeps_require inv fun hidle => ?_)
  refine ends_bind_requireVariable ⟨inv, .refl e⟩ fun hv => keeps_get ?_
  have hnone : e.conflict = none := by simpa [isFailed] using hidle
  have hr := inv.ready hnone
  have hc := inv.consistent
  have hchange := Decision.ends_change hc.store hv d
  have hkept : Memory.Kept ⟨0⟩ [] e.memory e.memory := .refl hc.memory
  split
  · rename_i changed store hrun
    obtain ⟨hn, -⟩ := Ends.of_ok hrun hchange
    have hsh := hn.shrinks hc.store
    have hstep : Space.Consistent { e.space with store := store } e.propagators :=
      hc.step (t := { e.space with store := store })
        (fun dom v op _ => grounded_of_decision dom v op) hn hkept hr.failure
    have hready : Space.Ready { e.space with store := store } e.propagators := by
      refine ⟨hsh.failure.trans hr.failure, fun i q hq hact => ?_⟩
      exact (hr.tracked i q hq hact).mono fun u _ => hsh.domain u
    have halike := alike_notify none (e.withSpace { e.space with store := store })
    refine ends_bind_set (ends_pure ⟨?_, ?_⟩)
    · exact halike.invariant ⟨hstep, fun _ => hready, fun h => by
        rw [show (e.withSpace _).conflict = e.conflict from rfl, hnone] at h
        cases h⟩
    · have hgoes : Goes e (e.withSpace { e.space with store := store }) :=
        goes_withSpace (hn.continues hc.store)
      exact hgoes.toFollows.trans halike.follows
  · rename_i i store hrun
    obtain ⟨hrefused, -⟩ := Ends.of_error hrun hchange
    have h := hc.refused (t := { e.space with store := store })
      (fun dom v op _ => grounded_of_decision dom v op) hrefused hkept hr.failure
    refine ends_bind_set (ends_pure ⟨?_, ?_⟩)
    · exact invariant_fail (e := e.withSpace { e.space with store := store }) (i := i)
        ⟨h.1, fun _ => h.2⟩ i
    · refine ⟨?_, propagators_clearPending _⟩
      exact (hrefused.continues hc.store).trans (Store.continues_of_eq rfl rfl)

lemma Working.invariant (w : Working e) (hnone : e.conflict = none) : e.Invariant :=
  ⟨w.consistent, fun _ => w.ready, fun h => by rw [hnone] at h; cases h⟩

/-- Propagation of an engine that has not failed. -/
lemma propagate_of_idle (hnone : e.conflict = none) : propagate e =
    match drain e.rounds e with
    | .ok _ e' => .ok (.ok ()) { e' with phase := .idle }
    | .error (.inconsistent i) e' => .ok (.error i) e'
    | .error .exhausted e' => .error .exhausted e' := by
  have hrun : ∀ k : Engine → Action (Except Inconsistency Unit), (get >>= k) e = k e e :=
    fun _ => rfl
  rw [propagate, hrun, hnone]
  dsimp only
  cases drain e.rounds e with
  | ok _ e' => rfl
  | error x e' => cases x <;> rfl

lemma keeps_propagate (inv : e.Invariant) : Keeps Engine.propagate e := by
  rw [Engine.propagate]
  refine keeps_get ?_
  split
  · exact keeps_pure inv
  rename_i hnone
  have w : Working e := ⟨inv.consistent, inv.ready hnone⟩
  have hdrain := drain_spec e.rounds w hnone
  split
  · rename_i e' hrun
    obtain ⟨w', hgoes⟩ := Ends.of_ok hrun hdrain
    have hnone' : e'.conflict = none := hgoes.conflict.trans hnone
    have halike := alike_phase e' .idle
    exact ends_bind_set (ends_pure ⟨halike.invariant (w'.invariant hnone'),
      hgoes.toFollows.trans halike.follows⟩)
  · rename_i i e' hrun
    have h := Ends.of_error hrun hdrain
    exact ends_bind_set (ends_pure h)
  · rename_i e' hrun
    obtain ⟨w', hgoes⟩ := Ends.of_error hrun hdrain
    have hnone' : e'.conflict = none := hgoes.conflict.trans hnone
    exact ends_bind_set (ends_throw ⟨w'.invariant hnone', hgoes.toFollows⟩)

end Engine

end FiniteDomain
