import Mathlib.Tactic
import FiniteDomain.Proofs.Engine.Retained
import FiniteDomain.Proofs.Propagator.Ending

/-!
Propagation comes to an end, wherever the engine went back to.

A turn of propagation takes one propagator from the agenda.  Its calls narrow no domain, and then
nobody is told anything, or they take a value.  So each turn makes the load smaller.

* `Engine.Tidy`: what holds of the engine between calls, and `Engine.Eases`: what runs of
  propagators leave;
* `Engine.work_cases`: what a turn is, and `Engine.eases_work`: it makes the load smaller;
* `Engine.Passes`: the engines that propagation passes, with `Engine.drain_passes`: it passes to
  one in which no propagator waits, or to one in which the next propagator stops;
* `Engine.concludes_drain`: propagation is not cut off by its rounds;
* `Engine.propagate_cases`: propagation as a call of the engine;
* `Engine.tidy_propagate`, `Engine.Move.tidy`, `Engine.Decides.tidy`, `Engine.Tidy.marked`,
  `Engine.Tidy.goBack`: engines stay tidy, whatever calls of the engine do.
-/

namespace FiniteDomain

namespace Engine

variable {e e' e'' : Engine} {p : PropId} {q : Propagator} {slot : Slot} {a : Agenda}
  {i : Inconsistency}

/-- An engine between two calls, wherever it went back to. -/
structure Tidy (e : Engine) : Prop where
  intact : e.Intact
  agenda : e.agenda.Bounded e.slots.size
  raised : e.store.raised = []
  proper : ∀ q ∈ e.propagators, q.Proper
  failure : e.conflict = none → e.store.failure = none

/-- What runs of propagators leave of an engine. -/
structure Eases (e e' : Engine) : Prop where
  trims : Trims e e'
  tidy : e'.Tidy
  load : e'.load ≤ e.load
  conflict : e'.conflict = e.conflict

lemma Eases.refl (h : e.Tidy) : Eases e e := ⟨.refl h.intact, h, le_rfl, rfl⟩

lemma Eases.trans (h : Eases e e') (h' : Eases e' e'') : Eases e e'' :=
  ⟨h.trims.trans h'.trims, h'.tidy, h'.load.trans h.load, h'.conflict.trans h.conflict⟩

lemma Tidy.of_trims (h : e.Tidy) (ht : Trims e e') (hagenda : e'.agenda.Bounded e'.slots.size)
    (hraised : e'.store.raised = []) (hfailure : e'.conflict = none → e'.store.failure = none) :
    e'.Tidy :=
  ⟨ht.intact, hagenda, hraised, fun q hq => h.proper q (ht.propagators ▸ hq), hfailure⟩

lemma Tidy.withPhase (h : e.Tidy) (phase : Phase) : Tidy { e with phase := phase } :=
  h.of_trims (h.intact.trims_of_alike (alike_phase e phase) id fun _ => id) h.agenda h.raised
    h.failure

/-- An engine that fails is tidy. -/
lemma Tidy.fail (h : e.Tidy) (ht : Trims e e') (i : Inconsistency) : (e'.fail i).Tidy :=
  h.of_trims (ht.trans (ht.intact.trims_fail i)) (ht.intact.agenda.bounded_clear _) rfl nofun

/-! ### The calls of one propagator -/

/-- A run of propagators that comes to an end, or stops at an inconsistency. -/
def Easing (f : Run Unit) (e : Engine) : Prop :=
  Ends f e (fun _ e' => Eases e e') fun x e' => (∃ i, x = .inconsistent i) ∧ Trims e e'

lemma Easing.after {f : Run Unit} (h : Easing f e') (he : Eases e e') :
    Ends f e' (fun _ e'' => Eases e e'') fun x e'' => (∃ i, x = .inconsistent i) ∧ Trims e e'' :=
  h.mono (fun _ _ h => he.trans h) fun _ _ h => ⟨h.1, he.trims.trans h.2⟩

/-- One call of a propagator. -/
lemma easing_call (h : e.Tidy) {f : Filter Unit}
    (hends : Filter.Settles p q.own e.space f fun _ _ => True)
    (hconfined : q.Confined p e.space f) : Easing (call p f) e := by
  have htrimming := trimming_call h.intact hconfined
  simp only [Easing, Trimming, Ends, call, Filter.Settles] at *
  cases hrun : f e.space with
  | ok _ t =>
    rw [hrun] at hends htrimming
    have hran : Space.Ran .any p q.own e.space t := hends.1
    have hears := hears_told e (some p) t
    have halike := alike_told e (some p) t
    have hbounded : (told e (some p) t).agenda.Bounded (told e (some p) t).slots.size :=
      hears.size ▸ hears.bounded h.agenda
    have hfailure : (told e (some p) t).store.failure = e.store.failure :=
      halike.failure.trans (hran.shrinks h.intact.wellFormed).failure
    refine ⟨htrimming, h.of_trims htrimming hbounded hears.raised fun hnone => ?_,
      load_told h.intact.store h.agenda h.raised hran, halike.conflict⟩
    rw [hfailure]
    exact h.failure (halike.conflict.symm.trans hnone)
  | error x t =>
    rw [hrun] at hends htrimming
    exact ⟨hends, htrimming⟩

/-- The events of a propagator are delivered one by one. -/
lemma easing_deliver (h : e.Tidy) (hq : e.propagators[p.index]? = some q)
    (events : Assoc Nat EventSet) : Easing (deliver p q events) e := by
  induction events generalizing e with
  | nil => exact ends_pure (.refl h)
  | cons event events ih =>
    obtain ⟨index, set⟩ := event
    rw [deliver]
    refine ends_bind_get ?_
    split
    case isFalse => exact ends_pure (.refl h)
    have htrims : Trims e (e.alerted p q index set) :=
      h.intact.trims_of_alike (alike_alerted e p q index set) id fun _ => id
    have halerted : Eases e (e.alerted p q index set) :=
      ⟨htrims, h.of_trims htrims h.agenda h.raised h.failure, le_rfl, rfl⟩
    have w := htrims.intact
    have hscope := w.scope q (List.mem_of_getElem? hq)
    have hproper := halerted.tidy.proper q (List.mem_of_getElem? hq)
    have hcall : Easing (call p (q.react p index set)) (e.alerted p q index set) :=
      easing_call halerted.tidy
        (Propagator.settles_any_react w.wellFormed hscope (w.lt_size hq) hproper index set)
        (Propagator.confined_react w.wellFormed hscope (w.lt_size hq) index set)
    refine ends_bind_modify (Ends.bind (hcall.after halerted) fun _ e' heases => ?_)
    exact (ih heases.tidy (heases.trims.propagators ▸ hq)).after heases

/-! ### One turn -/

/-- What a turn of a propagator is, by its activity. -/
lemma work_cases (hslot : e.slots[p.index]? = some slot) :
    e.memory.activity p = .passive ∧ work p e = .ok () (e.relieved p slot) ∨
    (e.memory.activity p = .inactive ∨
      e.memory.activity p = .active ∧ slot.propagator.fine = false) ∧
      work p e = call p (slot.propagator.propagate p)
        ((e.relieved p slot).activated p slot.propagator) ∨
    e.memory.activity p = .active ∧ slot.propagator.fine = true ∧
      work p e = deliver p slot.propagator slot.pending (e.relieved p slot) := by
  rw [work, bind_get, hslot]
  dsimp only
  rw [bind_set]
  cases hact : e.memory.activity p with
  | passive => exact .inl ⟨rfl, rfl⟩
  | inactive => exact .inr (.inl ⟨.inl rfl, rfl⟩)
  | active =>
    dsimp only
    cases hfine : slot.propagator.fine with
    | true => exact .inr (.inr ⟨rfl, rfl, rfl⟩)
    | false => exact .inr (.inl ⟨.inr ⟨rfl, rfl⟩, rfl⟩)

lemma work_of_none (hslot : e.slots[p.index]? = none) : work p e = .ok () e := by
  rw [work, bind_get, hslot]
  rfl

/-- The engine right before the calls of a propagator that was taken from the agenda. -/
def taken (e : Engine) (a : Agenda) (p : PropId) (slot : Slot) : Engine :=
  ({ e with agenda := a } : Engine).relieved p slot

section Turn

variable (h : e.Tidy) (hpop : e.agenda.pop = some (p, a))

include hpop

/-- The propagator that is called next leaves the agenda. -/
lemma load_popped : ({ e with agenda := a } : Engine).load + 1 = e.load := by
  have := (Agenda.perm_waiting_pop hpop).length_eq
  rw [load, load, this]
  rfl

lemma load_taken : (e.taken a p slot).load + 1 = e.load := by
  have hrelieved : (e.taken a p slot).load = ({ e with agenda := a } : Engine).load := load_relieved
  rw [hrelieved, load_popped hpop]

include h

/-- A propagator that was called before is taken from the agenda. -/
lemma eases_taken (hslot : e.slots[p.index]? = some slot)
    (hact : e.memory.activity p ≠ .inactive) : Eases e (e.taken a p slot) := by
  have hkept : Memory.Kept p [] e.memory e.memory := .refl h.intact.memory
  have htrims : Trims e (e.taken a p slot) :=
    h.intact.trims_popped hpop rfl hkept (propagators_setSlot hslot rfl) rfl rfl fun _ => hact
  have hagenda : a.Bounded (e.taken a p slot).slots.size := by
    rw [taken, size_relieved]
    exact h.agenda.pop hpop
  have hload : (e.taken a p slot).load + 1 = e.load := load_taken hpop
  exact ⟨htrims, h.of_trims htrims hagenda h.raised h.failure, by omega, rfl⟩

/-- A propagator is taken from the agenda and called from scratch. -/
lemma eases_activated (hslot : e.slots[p.index]? = some slot) :
    Eases e ((e.taken a p slot).activated p slot.propagator) := by
  have hp := h.intact.lt_size (propagator_of_slot hslot)
  have hstarted : Memory.Kept p [] e.memory (e.memory.setActivity p .active) :=
    .setActivity h.intact.memory hp Activity.noConfusion
  have htrims : Trims e ((e.taken a p slot).activated p slot.propagator) := by
    refine h.intact.trims_popped hpop rfl hstarted (propagators_setSlot hslot rfl) rfl rfl
      fun _ => ?_
    change (e.memory.setActivity p .active).activity p ≠ .inactive
    rw [Memory.activity_setActivity hp, if_pos rfl]
    exact Activity.noConfusion
  have hagenda : a.Bounded (e.taken a p slot).slots.size := by
    rw [taken, size_relieved]
    exact h.agenda.pop hpop
  have hload : (e.taken a p slot).load + 1 = e.load := load_taken hpop
  refine ⟨htrims, h.of_trims htrims hagenda h.raised h.failure, ?_, rfl⟩
  change (e.taken a p slot).load ≤ e.load
  omega

/-- One turn of propagation. -/
lemma eases_work : Ends (work p) { e with agenda := a }
    (fun _ e' => Eases e e' ∧ e'.load < e.load)
    fun x e' => (∃ i, x = .inconsistent i) ∧ Trims e e' := by
  cases hslot : e.slots[p.index]? with
  | none =>
    have hbounded := h.agenda.pop hpop
    have hp := Nat.not_lt.2 (Array.getElem?_eq_none_iff.1 hslot)
    have hkept : Memory.Kept p [] e.memory e.memory := .refl h.intact.memory
    have htrims : Trims e { e with agenda := a } :=
      h.intact.trims_popped hpop rfl hkept rfl rfl rfl fun hlt => absurd hlt hp
    have hload := load_popped hpop
    have hrun := work_of_none (e := { e with agenda := a }) hslot
    rw [Ends, hrun]
    exact ⟨⟨htrims, h.of_trims htrims hbounded h.raised h.failure, by omega, rfl⟩, by omega⟩
  | some slot =>
    have hq : e.propagators[p.index]? = some slot.propagator := propagator_of_slot hslot
    have hload : (e.taken a p slot).load + 1 = e.load := load_taken hpop
    -- whatever is called first, the load is smaller already
    have hfrom : ∀ {f : Run Unit} {e₁ : Engine}, Eases e e₁ → e₁.load < e.load → Easing f e₁ →
        Ends f e₁ (fun _ e' => Eases e e' ∧ e'.load < e.load)
          fun x e' => (∃ i, x = .inconsistent i) ∧ Trims e e' := fun he hlt hf =>
      hf.mono (fun _ _ he' => ⟨he.trans he', he'.load.trans_lt hlt⟩)
        fun _ _ hx => ⟨hx.1, he.trims.trans hx.2⟩
    rcases work_cases (e := { e with agenda := a }) hslot with ⟨hact, hrun⟩ | ⟨-, hrun⟩ |
      ⟨hact, -, hrun⟩
    · rw [Ends, hrun]
      have hact : e.memory.activity p = .passive := hact
      have hlt : (e.taken a p slot).load < e.load := by omega
      exact ⟨eases_taken h hpop hslot fun h => Activity.noConfusion (hact.symm.trans h), hlt⟩
    · rw [Ends, hrun]
      have heases : Eases e ((e.taken a p slot).activated p slot.propagator) :=
        eases_activated h hpop hslot
      have w := heases.trims.intact
      have hq' := heases.trims.propagators.symm ▸ hq
      have hscope := w.scope _ (List.mem_of_getElem? hq')
      have hproper := heases.tidy.proper _ (List.mem_of_getElem? hq')
      have hlt : ((e.taken a p slot).activated p slot.propagator).load < e.load := by
        change (e.taken a p slot).load < e.load
        omega
      have hcall : Easing (call p (slot.propagator.propagate p))
          ((e.taken a p slot).activated p slot.propagator) :=
        easing_call heases.tidy
          (Propagator.settles_any_propagate w.wellFormed hscope (w.lt_size hq') hproper)
          (Propagator.confined_propagate w.wellFormed hscope (w.lt_size hq'))
      exact hfrom heases hlt hcall
    · rw [Ends, hrun]
      have hact : e.memory.activity p = .active := hact
      have heases := eases_taken h hpop hslot fun h => Activity.noConfusion (hact.symm.trans h)
      have hlt : (e.taken a p slot).load < e.load := by omega
      exact hfrom heases hlt (easing_deliver heases.tidy (heases.trims.propagators.symm ▸ hq) _)

end Turn

/-! ### All calls -/

/-- The engines that propagation passes: each turn takes one propagator from the agenda. -/
inductive Passes (e : Engine) : Engine → Prop
  | here : Passes e e
  | turn {e₁ e₂ : Engine} {p : PropId} {a : Agenda} (h : Passes e e₁)
    (hpop : e₁.agenda.pop = some (p, a)) (hrun : work p { e₁ with agenda := a } = .ok () e₂) :
    Passes e e₂

/-- The turn of the propagator stops at an inconsistency, and the engine fails. -/
def Halts (e : Engine) (i : Inconsistency) (e' : Engine) : Prop :=
  ∃ p a e₁, e.agenda.pop = some (p, a) ∧
    work p { e with agenda := a } = .error (.inconsistent i) e₁ ∧
    e' = (e₁.note (.failed (((e₁.propagator? p).map Propagator.name).getD "") p i)).fail i

lemma Passes.eases (hpasses : Passes e e') (h : e.Tidy) : Eases e e' := by
  induction hpasses with
  | here => exact .refl h
  | turn _ hpop hrun ih =>
    exact ih.trans (Ends.of_ok hrun (eases_work ih.tidy hpop)).1

/-- What every turn keeps, propagation keeps. -/
lemma Passes.induct {P : Engine → Prop} (hpasses : Passes e e') (h : e.Tidy)
    (hturn : ∀ e₁ e₂ p a, e₁.Tidy → e₁.conflict = e.conflict → e₁.agenda.pop = some (p, a) →
      work p { e₁ with agenda := a } = .ok () e₂ → P e₁ → P e₂) (he : P e) : P e' := by
  induction hpasses with
  | here => exact he
  | turn hpasses hpop hrun ih =>
    have heases := hpasses.eases h
    exact hturn _ _ _ _ heases.tidy heases.conflict hpop hrun ih

lemma Halts.tidy (hhalts : Halts e i e') (h : e.Tidy) : e'.Tidy ∧ Trims e e' := by
  obtain ⟨p, a, e₁, hpop, hrun, rfl⟩ := hhalts
  have htrims := (Ends.of_error hrun (eases_work h hpop)).2
  have hnote : Trims e (e₁.note (.failed (((e₁.propagator? p).map Propagator.name).getD "") p i)) :=
    htrims.trans (htrims.intact.trims_of_alike (alike_note e₁ _) id fun _ => id)
  exact ⟨h.fail hnote i, hnote.trans (hnote.intact.trims_fail i)⟩

/-- Propagation passes to an engine in which no propagator waits, or to one in which the turn of
the next propagator stops. -/
lemma drain_passes {n : Nat} (h : e.Tidy) (hn : e.load < n) : Ends (drain n) e
    (fun _ e' => Passes e e' ∧ e'.agenda.pop = none)
    fun x e' => ∃ i e₁, x = .inconsistent i ∧ Passes e e₁ ∧ Halts e₁ i e' := by
  -- the induction is on the rounds, over the engines passed before
  have hpassed : ∀ n e₁, Passes e e₁ → e₁.load < n → Ends (drain n) e₁
      (fun _ e' => Passes e e' ∧ e'.agenda.pop = none)
      fun x e' => ∃ i e₁, x = .inconsistent i ∧ Passes e e₁ ∧ Halts e₁ i e' := by
    intro n
    induction n with
    | zero => exact fun _ _ hn => absurd hn (Nat.not_lt_zero _)
    | succ n ih =>
      intro e₁ hpasses hn
      rw [Ends, drain]
      dsimp only
      cases hpop : e₁.agenda.pop with
      | none => exact ⟨hpasses, hpop⟩
      | some next =>
        obtain ⟨p, a⟩ := next
        have hwork := eases_work (hpasses.eases h).tidy hpop
        dsimp only
        cases hrun : work p { e₁ with agenda := a } with
        | ok _ e₂ =>
          have hlt := (Ends.of_ok hrun hwork).2
          exact ih e₂ (hpasses.turn hpop hrun) (by omega)
        | error x e₂ =>
          obtain ⟨⟨i, rfl⟩, -⟩ := Ends.of_error hrun hwork
          exact ⟨i, e₁, rfl, hpasses, p, a, e₂, hpop, hrun, rfl⟩
  exact hpassed n e .here hn

lemma outlasts_drain {n m : Nat} (h : n ≤ m) : Outlasts (drain n) (drain m) e := by
  induction n generalizing m e with
  | zero => exact .inl ⟨e, rfl⟩
  | succ n ih =>
    obtain ⟨m, rfl⟩ := Nat.exists_eq_add_one.2 (Nat.zero_lt_of_lt h)
    rw [Outlasts, drain, drain]
    dsimp only
    cases e.agenda.pop with
    | none => exact .inr rfl
    | some next =>
      obtain ⟨p, a⟩ := next
      dsimp only
      cases work p { e with agenda := a } with
      | ok _ e₁ => exact ih (Nat.le_of_succ_le_succ h)
      | error x e₁ => cases x <;> exact .inr rfl

/-- The loop over the agenda comes to an end. -/
lemma concludes_drain (h : e.Tidy) : Concludes drain e (e.load + 1) :=
  Concludes.of_ends (fun _ => outlasts_drain) ((drain_passes h (Nat.lt_succ_self _)).mono
    (fun _ _ h => h) fun _ _ ⟨i, _, hx, _⟩ => ⟨i, hx⟩)

lemma propagate_of_conflict {i : Inconsistency} (hi : e.conflict = some i) :
    propagate e = .ok (.error i) e := by
  rw [propagate, bind_get, hi]
  rfl

/-- Propagation of an engine that has not failed either passes to one in which no propagator
waits, or makes the engine fail. -/
lemma propagate_cases (h : e.Tidy) (hnone : e.conflict = none) :
    (∃ e₁, Passes e e₁ ∧ e₁.agenda.pop = none ∧
      propagate e = .ok (.ok ()) { e₁ with phase := .idle }) ∨
    ∃ i e₁ e', Passes e e₁ ∧ Halts e₁ i e' ∧ propagate e = .ok (.error i) e' := by
  have hrounds : e.load < e.rounds := by
    have := h.agenda.length_le
    have hrounds : e.rounds = e.slots.size * (e.store.volume + 1) + 1 := rfl
    rw [load, hrounds, Nat.mul_succ]
    omega
  have hends := drain_passes h hrounds
  rw [propagate_of_idle hnone]
  cases hrun : drain e.rounds e with
  | ok _ e₁ =>
    obtain ⟨hpasses, hpop⟩ := Ends.of_ok hrun hends
    exact .inl ⟨e₁, hpasses, hpop, rfl⟩
  | error x e' =>
    obtain ⟨i, e₁, rfl, hpasses, hhalts⟩ := Ends.of_error hrun hends
    exact .inr ⟨i, e₁, e', hpasses, hhalts, rfl⟩

/-- Propagation returns, and leaves the engine tidy. -/
lemma tidy_propagate (h : e.Tidy) : Ends propagate e (fun _ e' => e'.Tidy) fun _ _ => False := by
  rw [Ends]
  cases hconflict : e.conflict with
  | some i =>
    rw [propagate_of_conflict hconflict]
    exact h
  | none =>
    rcases propagate_cases h hconflict with
      ⟨e₁, hpasses, -, hrun⟩ | ⟨i, e₁, e', hpasses, hhalts, hrun⟩
    · rw [hrun]
      exact (hpasses.eases h).tidy.withPhase .idle
    · rw [hrun]
      exact (hhalts.tidy (hpasses.eases h).tidy).1

/-! ### Other moves -/

/-- Moves leave the engine tidy. -/
lemma Move.tidy (hmove : Move e e') (h : e.Tidy) : e'.Tidy := by
  have hintact := (hmove.stays h.intact).intact
  cases hmove with
  | account ha =>
    obtain ⟨_, _, _, _, _, rfl⟩ := ha.exists_eq
    exact ⟨hintact, h.agenda, h.raised, h.proper, h.failure⟩
  | newRoot => exact ⟨hintact, h.agenda, h.raised, h.proper, h.failure⟩
  | newView => exact ⟨hintact, h.agenda, h.raised, h.proper, h.failure⟩
  | @accept c q m _ _ hmade hscope _ =>
    have hsize : (e.accept q m).slots.size = e.slots.size + 1 := Array.size_push _
    have hpropagators : (e.accept q m).propagators = e.propagators ++ [q] := by
      simp [propagators, Engine.accept]
    refine ⟨hintact, ?_, h.raised, fun q' hq' => ?_, h.failure⟩
    · rw [hsize]
      exact (h.agenda.mono (Nat.le_succ _)).enqueue (Nat.lt_succ_self _) _
    · rw [hpropagators, List.mem_append, List.mem_singleton] at hq'
      rcases hq' with hq' | rfl
      · exact h.proper q' hq'
      · exact proper_of_propagator hmade hscope
  | propagate hrun =>
    rcases hrun with ⟨r, hrun⟩ | ⟨x, hrun⟩
    · exact Ends.of_ok hrun (tidy_propagate h)
    · exact (Ends.of_error hrun (tidy_propagate h)).elim

lemma Moves.tidy (hmoves : Moves e e') (h : e.Tidy) : e'.Tidy :=
  hmoves.induct (fun _ _ hmove => hmove.tidy) h

/-- A decision leaves the engine tidy. -/
lemma Decides.tidy {v : VarId} {d : Decision} {r : Except Inconsistency Bool}
    (hdecides : Decides v d e r e') (h : e.Tidy) : e'.Tidy := by
  have htrims := hdecides.trims h.intact
  cases hdecides with
  | @granted b t hn _ =>
    have hears := hears_told e none { e.space with store := t }
    have halike := alike_told e none { e.space with store := t }
    have hfailure : (told e none { e.space with store := t }).store.failure = e.store.failure :=
      halike.failure.trans (hn.shrinks h.intact.store).failure
    have hbounded : (told e none { e.space with store := t }).agenda.Bounded
        (told e none { e.space with store := t }).slots.size := hears.size ▸ hears.bounded h.agenda
    refine h.of_trims htrims hbounded hears.raised fun hnone => ?_
    rw [hfailure]
    exact h.failure (halike.conflict.symm.trans hnone)
  | refused => exact h.of_trims htrims (h.intact.agenda.bounded_clear _) rfl nofun

lemma Tidy.marked (h : e.Tidy) : e.marked.Tidy :=
  ⟨h.intact.marked, h.agenda, h.raised, h.proper, h.failure⟩

/-- Wherever the engine goes back to, it is tidy. -/
lemma Tidy.goBack (h : e.Tidy) (level : Nat) : (e.goBack level).Tidy := by
  have hears := hears_goBack e level
  have hpropagators := (alike_goBack e level).propagators.trans (propagators_rewound e level)
  refine ⟨h.intact.goBack level, hears.size ▸ hears.bounded (h.intact.agenda.bounded_clear _),
    hears.raised, fun q hq => h.proper q (hpropagators ▸ hq), fun _ => ?_⟩
  rw [store_goBack]
  rfl

lemma tidy_empty (strategy : Strategy) : Tidy { strategy := strategy } :=
  ⟨intact_empty strategy, Agenda.bounded_empty _, rfl, fun q hq => by simp [propagators] at hq,
    fun _ => rfl⟩

end Engine

end FiniteDomain
