import Mathlib.Tactic
import FiniteDomain.Proofs.Engine.Owed

/-!
Events that are handed over.

Between two turns of propagation, the slot of each propagator holds what it is owed, and those wait
that have something to do.  A turn hands the propagator what is in its slot, and the others are
told what it causes.

* `Engine.Amid`: a propagator in its turn, with `Engine.Amid.call` for one call;
* `Engine.Hands`, `Engine.Turn`: how events are handed over, with `Engine.turn_of_work`: each turn
  of propagation does so, and leaves the slots in order;
* `Engine.Delivers`: what propagation does, with `Engine.Scheduling.delivers`;
* `Engine.Idles`, `Engine.Broken`: an engine between two calls, with `Engine.Scheduling.propagate`,
  `Engine.Move.scheduling`, `Engine.Decides.scheduling`, `Engine.Idles.marked` and
  `Engine.idles_goBack`: all calls keep this.
-/

namespace FiniteDomain

namespace Engine

variable {e e' e₁ : Engine} {k : Nat} {p : PropId} {q : Propagator} {slot : Slot} {a : Agenda}
  {rest : Assoc Nat EventSet}

/-- The slots of all propagators agree with the agenda and the notes from the `k`-th on. -/
def AttendsAll (k : Nat) (e : Engine) : Prop :=
  ∀ (p : PropId) slot, e.slots[p.index]? = some slot → e.Attends k p slot

/-- This is so for all propagators but one. -/
def AttendsBut (p : PropId) (k : Nat) (e : Engine) : Prop :=
  ∀ (p' : PropId) slot, p' ≠ p → e.slots[p'.index]? = some slot → e.Attends k p' slot

/-! ### One call -/

/-- A propagator was taken from the agenda, and its slot is empty. -/
structure Alone (k : Nat) (p : PropId) (q : Propagator) (e : Engine) : Prop where
  size : k ≤ e.journal.size
  others : AttendsBut p k e
  slot : e.slots[p.index]? = some ⟨q, []⟩
  taken : e.agenda.contains p = false

/-- A propagator in its turn.  Some events that it is owed are still to be handed over. -/
structure Amid (k : Nat) (p : PropId) (q : Propagator) (rest : Assoc Nat EventSet) (e : Engine) :
    Prop extends Alone k p q e where
  called : e.memory.activity p ≠ .inactive
  listed : Slot.Listed ⟨q, rest⟩
  owed : ∀ i, Slot.events ⟨q, rest⟩ i = q.owed p i (e.recent k)

/-- The requests behind a change of the space are noted. -/
lemma journal_withSpace (e : Engine) (t : Space) : ∃ ns : List Note, (∀ n ∈ ns, n.Quiet) ∧
    (e.withSpace t).clearRaised.journal.toList = e.journal.toList ++ ns := by
  refine ⟨Note.ofUpdates e.store t.store, fun n hn => ?_, Array.toList_appendList⟩
  rw [Note.ofUpdates, List.mem_append, List.mem_map] at hn
  rcases hn with ⟨u, -, rfl⟩ | hn
  · trivial
  · split at hn
    · obtain ⟨r, -, rfl⟩ := List.mem_map.1 hn
      trivial
    · cases hn

section Told

variable {t : Space} (hk : k ≤ e.journal.size)

include hk

lemma size_withSpace : k ≤ (e.withSpace t).clearRaised.journal.size :=
  have ⟨_, _, hjournal⟩ := journal_withSpace e t
  hk.trans (size_le_of_journal hjournal)

lemma owed_withSpace (i : Nat) :
    q.owed p i ((e.withSpace t).clearRaised.recent k) = q.owed p i (e.recent k) := by
  obtain ⟨ns, hns, hjournal⟩ := journal_withSpace e t
  rw [recent_append hk hjournal, Propagator.owed_append_quiet hns]

lemma size_told {cause : Option PropId} : k ≤ (told e cause t).journal.size :=
  have ⟨_, _, hjournal⟩ := (informs_notify cause (e.withSpace t)).journal
  (size_withSpace hk).trans (size_le_of_journal hjournal)

/-- Whoever changed the space, the slots agree of those whose activity is the same. -/
lemma attends_told {cause : Option PropId} {slot' : Slot}
    (hattends : ∀ slot, e.slots[p.index]? = some slot → e.Attends k p slot)
    (hact : t.memory.activity p = e.memory.activity p)
    (hslot' : (told e cause t).slots[p.index]? = some slot') :
    (told e cause t).Attends k p slot' := by
  obtain ⟨slot, hslot, -⟩ := (hears_told e cause t).slot_before hslot'
  have hslot : e.slots[p.index]? = some slot := hslot
  obtain ⟨slot'', hslot'', -, hafter, -⟩ := (informs_notify cause (e.withSpace t)).slot p slot hslot
  cases hslot'.symm.trans hslot''
  exact hafter k (size_withSpace hk)
    ((hattends slot hslot).congr hact rfl fun i => owed_withSpace hk i)

end Told

/-- What one call of a propagator leaves. -/
lemma Amid.call {f : Filter Unit} (h : e.Amid k p q rest) (hconfined : q.Confined p e.space f)
    (hrun : Engine.call p f e = .ok () e') : e'.Amid k p q rest := by
  obtain ⟨t, hf, rfl⟩ := call_eq_ok hrun
  have hkept : Memory.Kept p q.own e.memory t.memory := (Ends.of_ok hf hconfined).memory
  have hinforms := informs_notify (some p) (e.withSpace t)
  have hmemory : (told e (some p) t).memory = t.memory := (alike_told e (some p) t).memory
  obtain ⟨slot', hslot', -, -, hown⟩ := hinforms.slot p _ h.slot
  obtain ⟨rfl, hcontains⟩ := hown rfl
  refine ⟨⟨size_told h.size, fun p' slot' hne hslot' => ?_, hslot', hcontains.trans h.taken⟩, ?_,
    h.listed, fun i => ?_⟩
  · exact attends_told h.size (fun slot => h.others p' slot hne) (hkept.activity p' hne) hslot'
  · rw [hmemory]
    exact hkept.called h.called
  · obtain ⟨ns, hns, hjournal⟩ := hinforms.journal
    rw [recent_append (size_withSpace h.size) hjournal, Propagator.owed_append_own hns,
      owed_withSpace h.size, h.owed i]

/-- The events at an index are about to be handed over. -/
lemma Amid.alerted {i : Nat} {set : EventSet} (h : e.Amid k p q ((i, set) :: rest)) :
    (e.alerted p q i set).Amid k p q rest := by
  have hjournal : (e.alerted p q i set).journal.toList =
      e.journal.toList ++ [.reacted q.name p set i] := Array.toList_push
  have howed : ∀ (q' : Propagator) (p' : PropId) (j : Nat),
      q'.owed p' j ((e.alerted p q i set).recent k) =
        if p = p' ∧ i = j then ∅ else q'.owed p' j (e.recent k) := fun q' p' j => by
    rw [recent_append h.size hjournal, Propagator.owed_snoc]
    rfl
  refine ⟨⟨h.size.trans (size_le_of_journal hjournal), fun p' slot hne hslot => ?_, h.slot,
    h.taken⟩,
    h.called, h.listed.tail, fun j => ?_⟩
  · refine (h.others p' slot hne hslot).congr rfl rfl fun j => ?_
    rw [howed, if_neg fun heq => hne heq.1.symm]
  · rw [howed, h.listed.events_tail]
    by_cases hj : j = i
    · rw [if_pos hj, if_pos ⟨rfl, hj.symm⟩]
    · rw [if_neg hj, if_neg fun heq => hj heq.2.symm]
      exact h.owed j

/-- The propagator is about to be called from scratch, and is owed nothing then. -/
lemma Alone.activated (h : e.Alone k p q) (hp : p.index < e.memory.activities.size) :
    (e.activated p q).Amid k p q [] := by
  have hjournal : (e.activated p q).journal.toList = e.journal.toList ++ [.propagated q.name p] :=
    Array.toList_push
  have howed : ∀ (q' : Propagator) (p' : PropId) (j : Nat),
      q'.owed p' j ((e.activated p q).recent k) =
        if p = p' then ∅ else q'.owed p' j (e.recent k) := fun q' p' j => by
    rw [recent_append h.size hjournal, Propagator.owed_snoc]
    rfl
  have hactivity : ∀ p', (e.activated p q).memory.activity p' =
      if p' = p then .active else e.memory.activity p' :=
    fun p' => Memory.activity_setActivity hp
  refine ⟨⟨h.size.trans (size_le_of_journal hjournal), fun p' slot hne hslot => ?_, h.slot,
    h.taken⟩,
    ?_, Slot.listed_of_nil rfl, fun j => ?_⟩
  · refine (h.others p' slot hne hslot).congr ?_ rfl fun j => ?_
    · rw [hactivity, if_neg hne]
    · rw [howed, if_neg hne.symm]
  · rw [hactivity, if_pos rfl]
    exact Activity.noConfusion
  · rw [howed, if_pos rfl, Slot.events_of_nil rfl]

/-- At the end of the turn, the slot of the propagator agrees as well, if all was handed over or
the propagator has nothing left to do. -/
lemma Amid.attendsAll (h : e.Amid k p q rest) (hend : e.memory.activity p = .active → rest = []) :
    e.AttendsAll k := by
  intro p' slot hslot
  by_cases hne : p' = p
  · subst hne
    cases hslot.symm.trans h.slot
    refine ⟨⟨Slot.listed_of_nil rfl, fun hact => ?_⟩, fun hact => absurd hact h.called,
      fun _ => h.taken, fun _ => ?_, fun _ => rfl⟩
    · cases hend hact
      exact h.owed
    · exact iff_of_false (Bool.not_eq_true _ ▸ h.taken) fun hne => hne rfl
  · exact h.others p' slot hne hslot

/-! ### One turn -/

/-- Events are handed to a propagator, one set after the other: it reacts to each on the space, and
the others are told what it did there.  Each set is all that the propagator is owed at the index,
and it is not owed anything there any more then.  Once it has nothing left to do, the rest is given
up. -/
inductive Hands (k : Nat) (p : PropId) (q : Propagator) :
    Assoc Nat EventSet → Engine → Engine → Prop
  | done (e : Engine) : Hands k p q [] e e
  | giveUp {e : Engine} (rest : Assoc Nat EventSet) (hact : e.memory.activity p = .passive) :
    Hands k p q rest e e
  | hand {e e₁ e' : Engine} {i : Nat} {set : EventSet} {rest : Assoc Nat EventSet} {t : Space}
    (hact : e.memory.activity p = .active) (hne : set ≠ ∅) (howed : set = q.owed p i (e.recent k))
    (hreact : q.react p i set e.space = .ok () t)
    (hrun : call p (q.react p i set) (e.alerted p q i set) = .ok () e₁)
    (htold : e₁ = told (e.alerted p q i set) (some p) t)
    (hcleared : q.owed p i (e₁.recent k) = ∅) (hrest : Hands k p q rest e₁ e') :
    Hands k p q ((i, set) :: rest) e e'

/-- A turn of a propagator whose slot agrees with the agenda and the notes.  It is handed the events
in its slot, or it is called from scratch on the space in their place, and is owed nothing then. -/
inductive Turn (k : Nat) (e e' : Engine) : Prop
  | scratch {p : PropId} {a : Agenda} {slot : Slot} {t : Space} (hpop : e.agenda.pop = some (p, a))
    (hslot : e.slots[p.index]? = some slot) (hattends : e.Attends k p slot)
    (hact : e.memory.activity p = .inactive ∨
      e.memory.activity p = .active ∧ slot.propagator.fine = false)
    (hpropagate : slot.propagator.propagate p
      ((e.taken a p slot).activated p slot.propagator).space = .ok () t)
    (hrun : call p (slot.propagator.propagate p)
      ((e.taken a p slot).activated p slot.propagator) = .ok () e')
    (htold : e' = told ((e.taken a p slot).activated p slot.propagator) (some p) t)
    (hcleared : ∀ i, slot.propagator.owed p i (e'.recent k) = ∅)
  | events {p : PropId} {a : Agenda} {slot : Slot} (hpop : e.agenda.pop = some (p, a))
    (hslot : e.slots[p.index]? = some slot) (hattends : e.Attends k p slot)
    (hact : e.memory.activity p = .active) (hfine : slot.propagator.fine = true)
    (hhands : Hands k p slot.propagator slot.pending (e.taken a p slot) e')

lemma hands_deliver (w : e.Intact) (hq : e.propagators[p.index]? = some q)
    (h : e.Amid k p q rest) (hrun : deliver p q rest e = .ok () e') :
    Hands k p q rest e e' ∧
      ∃ left, e'.Amid k p q left ∧ (e'.memory.activity p = .active → left = []) := by
  induction rest generalizing e with
  | nil =>
    cases hrun
    exact ⟨.done _, [], h, fun _ => rfl⟩
  | cons event rest ih =>
    obtain ⟨i, set⟩ := event
    rw [deliver_cons] at hrun
    split at hrun
    · rename_i hpassive
      cases hrun
      have hpassive : e'.memory.activity p = .passive := beq_iff_eq.1 hpassive
      exact ⟨.giveUp _ hpassive, _, h, fun hact => Activity.noConfusion (hact.symm.trans hpassive)⟩
    · rename_i hpassive
      have hactive : e.memory.activity p = .active := by
        cases hact : e.memory.activity p with
        | inactive => exact absurd hact h.called
        | active => rfl
        | passive => exact absurd (beq_iff_eq.2 hact) hpassive
      have halerted := h.alerted
      have walerted := (w.trims_of_alike (alike_alerted e p q i set) id fun _ => id).intact
      have hscope := walerted.scope q (List.mem_of_getElem? hq)
      have hconfined :=
        Propagator.confined_react walerted.wellFormed hscope (walerted.lt_size hq) i set
      simp only [Bind.bind, EStateM.bind] at hrun
      cases hcall : call p (q.react p i set) (e.alerted p q i set) with
      | error x e₁ =>
        rw [hcall] at hrun
        cases hrun
      | ok _ e₁ =>
        rw [hcall] at hrun
        have hamid := halerted.call hconfined hcall
        have htrims := Ends.of_ok hcall (trimming_call walerted hconfined)
        obtain ⟨hhands, hend⟩ := ih htrims.intact (htrims.propagators.symm ▸ hq) hamid hrun
        obtain ⟨t, hreact, htold⟩ := call_eq_ok hcall
        refine ⟨.hand hactive h.listed.first_ne_empty ?_ hreact hcall htold ?_ hhands, hend⟩
        · rw [← h.owed i, Slot.events_first]
        · rw [← hamid.owed i, h.listed.events_tail, if_pos rfl]

section Turn

variable (h : e.Tidy) (hk : k ≤ e.journal.size) (hall : e.AttendsAll k)
  (hpop : e.agenda.pop = some (p, a))

include h hk hall hpop

/-- The next propagator is taken from the agenda. -/
lemma alone_taken (hslot : e.slots[p.index]? = some slot) :
    (e.taken a p slot).Alone k p slot.propagator := by
  have hcontains := (h.agenda.wellFormed.pop hpop).2
  refine ⟨hk, fun p' slot' hne hslot' => ?_, ?_, ?_⟩
  · have hsame : (e.taken a p slot).slots[p'.index]? = e.slots[p'.index]? :=
      Array.getElem?_setIfInBounds_ne (index_ne hne).symm
    refine (hall p' slot' (hsame.symm.trans hslot')).congr rfl ?_ fun _ => rfl
    rw [Bool.eq_iff_iff]
    exact (hcontains p').trans (and_iff_left hne)
  · exact Array.getElem?_setIfInBounds_self_of_lt (Array.getElem?_eq_some_iff.1 hslot).1
  · exact Bool.eq_false_iff.2 fun hp => ((hcontains p).1 hp).2 rfl

/-- A turn of propagation hands the events over, and leaves the slots in order. -/
lemma turn_of_work (hrun : work p { e with agenda := a } = .ok () e') :
    Turn k e e' ∧ k ≤ e'.journal.size ∧ e'.AttendsAll k := by
  have hwaits : e.agenda.contains p = true := h.agenda.wellFormed.contains_of_pop hpop
  obtain ⟨slot, hslot⟩ : ∃ slot, e.slots[p.index]? = some slot :=
    ⟨_, Array.getElem?_eq_getElem (h.agenda.lt p hwaits)⟩
  have hattends := hall p slot hslot
  have hq : e.propagators[p.index]? = some slot.propagator := propagator_of_slot hslot
  have halone := alone_taken h hk hall hpop hslot
  rcases work_cases (e := { e with agenda := a }) hslot with ⟨hact, -⟩ | ⟨hact, hwork⟩ |
    ⟨hact, hfine, hwork⟩
  · have hno := hattends.passive hact
    rw [hwaits] at hno
    cases hno
  · rw [hwork] at hrun
    have htrims := (eases_activated h hpop hslot).trims
    have w := htrims.intact
    have hq' := htrims.propagators.symm ▸ hq
    have hconfined := Propagator.confined_propagate w.wellFormed
      (w.scope _ (List.mem_of_getElem? hq')) (w.lt_size hq')
    have hamid := (halone.activated (h.intact.lt_size hq)).call hconfined hrun
    obtain ⟨t, hpropagate, htold⟩ := call_eq_ok hrun
    refine ⟨.scratch hpop hslot hattends hact hpropagate hrun htold fun i => ?_, hamid.size,
      hamid.attendsAll fun _ => rfl⟩
    rw [← hamid.owed i, Slot.events_of_nil rfl]
  · rw [hwork] at hrun
    have hact : e.memory.activity p = .active := hact
    have hcalled : e.memory.activity p ≠ .inactive :=
      fun h => Activity.noConfusion (hact.symm.trans h)
    have htrims := (eases_taken h hpop hslot hcalled).trims
    have hamid : (e.taken a p slot).Amid k p slot.propagator slot.pending :=
      ⟨halone, hcalled, hattends.listed, hattends.owed hact⟩
    obtain ⟨hhands, left, hleft, hend⟩ :=
      hands_deliver htrims.intact (htrims.propagators.symm ▸ hq) hamid hrun
    exact ⟨.events hpop hslot hattends hact hfine hhands, hleft.size, hleft.attendsAll hend⟩

end Turn

/-! ### Propagation -/

/-- Propagation hands all events over, those that come up meanwhile too, and in the end no
propagator waits, nothing is pending and nobody is owed anything. -/
structure Delivers (k : Nat) (e e' : Engine) : Prop where
  turns : ∃ e₁, Relation.ReflTransGen (Turn k) e e₁ ∧ e' = { e₁ with phase := .idle }
  agenda : e'.agenda.isEmpty = true
  pending : ∀ slot ∈ e'.slots, slot.pending = []
  owed : ∀ (p : PropId) slot, e'.slots[p.index]? = some slot → e'.memory.activity p = .active →
    ∀ i, slot.propagator.owed p i (e'.recent k) = ∅

/-- An engine that has not failed, between two calls. -/
structure Idles (k : Nat) (e : Engine) : Prop where
  phase : e.phase = .idle
  conflict : e.conflict = none
  size : k ≤ e.journal.size
  attends : e.AttendsAll k

/-- An engine that failed. -/
structure Broken (e : Engine) : Prop where
  phase : e.phase = .failed
  conflict : e.conflict.isSome = true
  agenda : e.agenda.isEmpty = true
  pending : ∀ slot ∈ e.slots, slot.pending = []

/-- An engine between two calls. -/
def Scheduling (k : Nat) (e : Engine) : Prop := e.Idles k ∨ e.Broken

lemma Scheduling.idles (h : e.Scheduling k) (hnone : e.conflict = none) : e.Idles k := by
  refine h.resolve_right fun hb => ?_
  have hsome := hb.conflict
  rw [hnone] at hsome
  cases hsome

lemma pending_of_clearPending {e : Engine} : ∀ slot ∈ e.clearPending.slots, slot.pending = [] := by
  intro slot hslot
  obtain ⟨slot, -, rfl⟩ := Array.mem_map.1 hslot
  rfl

lemma broken_fail (e : Engine) (i : Inconsistency) : (e.fail i).Broken :=
  ⟨rfl, rfl, rfl, pending_of_clearPending (e := e.clearRaised)⟩

lemma Idles.turns (h : e.Tidy) (hi : e.Idles k) (hpasses : Passes e e₁) :
    Relation.ReflTransGen (Turn k) e e₁ ∧ k ≤ e₁.journal.size ∧ e₁.AttendsAll k := by
  refine hpasses.induct (P := fun e₁ => Relation.ReflTransGen (Turn k) e e₁ ∧
    k ≤ e₁.journal.size ∧ e₁.AttendsAll k) h ?_ ⟨.refl, hi.size, hi.attends⟩
  rintro e₁ e₂ p a h₁ - hpop hrun ⟨hturns, hk, hall⟩
  obtain ⟨hturn, hk', hall'⟩ := turn_of_work h₁ hk hall hpop hrun
  exact ⟨hturns.tail hturn, hk', hall'⟩

/-- If no propagator waits, there is nothing to tell. -/
lemma AttendsAll.pending (h : e.AttendsAll k) (hempty : e.agenda.isEmpty = true) :
    ∀ slot ∈ e.slots, slot.pending = [] := by
  intro slot hslot
  obtain ⟨i, hi, hget⟩ := Array.mem_iff_getElem.1 hslot
  have hattends := h ⟨i⟩ slot ((Array.getElem?_eq_getElem hi).trans (congrArg some hget))
  by_cases hact : e.memory.activity ⟨i⟩ = .active
  · by_contra hne
    have hwaits := (hattends.active hact).2 hne
    exact Agenda.not_contains_of_isEmpty hempty hwaits
  · exact hattends.untold hact

lemma AttendsAll.withPhase (h : e.AttendsAll k) (phase : Phase) :
    AttendsAll k { e with phase := phase } :=
  fun p slot hslot => (h p slot hslot).congr rfl rfl fun _ => rfl

/-- Propagation of an engine that has not failed delivers all events, or makes it fail. -/
lemma Idles.propagate (h : e.Tidy) (hi : e.Idles k) :
    (∃ e', Engine.propagate e = .ok (.ok ()) e' ∧ e'.Idles k ∧ Delivers k e e') ∨
      ∃ i e', Engine.propagate e = .ok (.error i) e' ∧ e'.Broken := by
  rcases propagate_cases h hi.conflict with ⟨e₁, hpasses, hpop, hrun⟩ |
    ⟨i, e₁, e', -, ⟨p, a, e₂, -, -, rfl⟩, hrun⟩
  · obtain ⟨hturns, hk, hall⟩ := hi.turns h hpasses
    have hconflict := (hpasses.eases h).conflict.trans hi.conflict
    have hempty := (Agenda.pop_eq_none_iff (hpasses.eases h).tidy.agenda.wellFormed).1 hpop
    have hpending := hall.pending hempty
    have hidle := hall.withPhase .idle
    refine .inl ⟨_, hrun, ⟨rfl, hconflict, hk, hidle⟩, ⟨e₁, hturns, rfl⟩, hempty, hpending,
      fun p slot hslot hact i => ?_⟩
    rw [← (hidle p slot hslot).owed hact i]
    exact Slot.events_of_nil (hpending slot (Array.mem_of_getElem? hslot)) i
  · exact .inr ⟨i, _, hrun, broken_fail _ i⟩

/-- A failed engine stays as it is. -/
lemma Broken.propagate (h : e.Broken) : ∃ i, Engine.propagate e = .ok (.error i) e := by
  obtain ⟨i, hi⟩ := Option.isSome_iff_exists.1 h.conflict
  exact ⟨i, propagate_of_conflict hi⟩

/-- Propagation that ends well delivers all events. -/
lemma Scheduling.delivers (h : e.Tidy) (hs : e.Scheduling k)
    (hrun : Engine.propagate e = .ok (.ok ()) e') : Delivers k e e' := by
  rcases hs with hi | hb
  · rcases hi.propagate h with ⟨e₁, hrun₁, -, hdelivers⟩ | ⟨i, e₁, hrun₁, -⟩
    · cases hrun.symm.trans hrun₁
      exact hdelivers
    · cases hrun.symm.trans hrun₁
  · obtain ⟨i, hrun₁⟩ := hb.propagate
    cases hrun.symm.trans hrun₁

/-! ### All calls -/

lemma Idles.account (h : e.Idles k) (ha : Accounts e e') : e'.Idles k := by
  obtain ⟨ns, hns, hjournal⟩ := ha.journal
  refine ⟨ha.phase.trans h.phase, ha.conflict.trans h.conflict,
    h.size.trans (size_le_of_journal hjournal), fun p slot hslot => ?_⟩
  rw [ha.slots] at hslot
  refine (h.attends p slot hslot).congr ?_ (congrArg (Agenda.contains · p) ha.agenda) fun i => ?_
  · rw [memory, ha.space, memory]
  · rw [recent_append h.size hjournal, Propagator.owed_append_quiet hns]

lemma Broken.account (h : e.Broken) (ha : Accounts e e') : e'.Broken := by
  refine ⟨ha.phase.trans h.phase, ?_, ?_, ?_⟩
  · rw [ha.conflict]
    exact h.conflict
  · rw [ha.agenda]
    exact h.agenda
  · rw [ha.slots]
    exact h.pending

/-- A new propagator waits. -/
lemma Idles.accept {c : Constraint} {m : Memory} (h : e.Idles k) (w : e.Intact)
    (hmakes : c.Makes e.memory q m) : (e.accept q m).Idles k := by
  have hgrows := hmakes.grows.trans (Memory.grows_addActivity hmakes.grows.wellFormed)
  have hactivity : ∀ p, (e.accept q m).memory.activity p = e.memory.activity p :=
    hgrows.agrees.activity
  have hjournal : (e.accept q m).journal.toList =
      e.journal.toList ++ [.added q.name ⟨e.slots.size⟩] :=
    Array.toList_push
  refine ⟨h.phase, h.conflict, h.size.trans (size_le_of_journal hjournal), fun p slot hslot => ?_⟩
  have hget : (e.accept q m).slots[p.index]? =
      if p.index = e.slots.size then some { propagator := q } else e.slots[p.index]? :=
    Array.getElem?_push
  have hwaits : (e.accept q m).agenda.contains p = true ↔
      p = ⟨e.slots.size⟩ ∨ e.agenda.contains p = true := Agenda.contains_enqueue
  rw [hget] at hslot
  split at hslot
  · rename_i hp
    cases hslot
    have hinactive : (e.accept q m).memory.activity p = .inactive := by
      rw [hactivity]
      exact Memory.activity_of_size_le (w.size.trans_le hp.ge)
    have hno : (e.accept q m).memory.activity p ≠ .active :=
      fun hact => Activity.noConfusion (hact.symm.trans hinactive)
    exact ⟨⟨Slot.listed_of_nil rfl, fun hact => absurd hact hno⟩,
      fun _ => hwaits.2 (.inl (congrArg PropId.mk hp)),
      fun hact => Activity.noConfusion (hact.symm.trans hinactive), fun hact => absurd hact hno,
      fun _ => rfl⟩
  · rename_i hp
    have hne : p ≠ ⟨e.slots.size⟩ := fun heq => hp (congrArg PropId.index heq)
    refine (h.attends p slot hslot).congr (hactivity p) ?_ fun i => ?_
    · rw [Bool.eq_iff_iff, hwaits, or_iff_right hne]
    · have hquiet : ∀ n ∈ [Note.added q.name ⟨e.slots.size⟩], n.Quiet :=
        List.forall_mem_singleton.2 trivial
      rw [recent_append h.size hjournal, Propagator.owed_append_quiet hquiet]

/-- Propagation returns, and leaves the engine in order. -/
lemma Scheduling.propagate (h : e.Tidy) (hs : e.Scheduling k) :
    Ends Engine.propagate e (fun _ e' => e'.Scheduling k) fun _ _ => False := by
  rw [Ends]
  rcases hs with hi | hb
  · rcases hi.propagate h with ⟨e', hrun, hi', -⟩ | ⟨i, e', hrun, hb'⟩
    · rw [hrun]
      exact .inl hi'
    · rw [hrun]
      exact .inr hb'
  · obtain ⟨i, hrun⟩ := hb.propagate
    rw [hrun]
    exact .inr hb

/-- Moves keep engines in order. -/
lemma Move.scheduling (hmove : Move e e') (h : e.Tidy) (hs : e.Scheduling k) :
    e'.Scheduling k := by
  cases hmove with
  | account ha => exact hs.imp (·.account ha) (·.account ha)
  | newRoot | newView =>
    refine hs.imp (fun hi => ⟨hi.phase, hi.conflict, hi.size, fun p slot hslot => ?_⟩)
      fun hb => ⟨hb.phase, hb.conflict, hb.agenda, hb.pending⟩
    exact (hi.attends p slot hslot).congr rfl rfl fun _ => rfl
  | accept hnone _ hmade _ _ =>
    have hmakes := Constraint.makes_propagator h.intact.memory hmade
    exact .inl ((hs.idles hnone).accept h.intact hmakes)
  | propagate hrun =>
    have hends := hs.propagate h
    rcases hrun with ⟨r, hrun⟩ | ⟨x, hrun⟩
    · have hafter := Ends.of_ok hrun hends
      exact hafter
    · exact (Ends.of_error hrun hends).elim

lemma Moves.scheduling (hmoves : Moves e e') (h : e.Tidy) (hs : e.Scheduling k) :
    e'.Scheduling k :=
  (hmoves.induct (P := fun e => e.Tidy ∧ e.Scheduling k)
    (fun _ _ hmove h => ⟨hmove.tidy h.1, hmove.scheduling h.1 h.2⟩) ⟨h, hs⟩).2

/-- A decision tells the propagators what it did, or makes the engine fail. -/
lemma Decides.scheduling {v : VarId} {d : Decision} {r : Except Inconsistency Bool}
    (hdecides : Decides v d e r e') (hi : e.Idles k) : e'.Scheduling k := by
  cases hdecides with
  | @granted b t =>
    have hinforms := informs_notify none (e.withSpace { e.space with store := t })
    have hconflict := (alike_told e none { e.space with store := t }).conflict
    refine .inl ⟨hinforms.phase.trans hi.phase, hconflict.trans hi.conflict, size_told hi.size,
      fun p slot hslot => ?_⟩
    exact attends_told hi.size (hi.attends p) rfl hslot
  | refused => exact .inr (broken_fail _ _)

lemma Idles.marked (hi : e.Idles k) : e.marked.Idles k :=
  ⟨hi.phase, hi.conflict, hi.size, fun p slot hslot => (hi.attends p slot hslot).congr rfl rfl
    fun _ => rfl⟩

/-- Back at a level, nobody is owed anything for what was noted before. -/
lemma idles_goBack {ns : List Note} (hns : ∀ n ∈ ns, n.Quiet)
    (hk : k ≤ e.journal.size) (hrecent : e.recent k = ns) (level : Nat) :
    (e.goBack level).Idles k := by
  have hjournal := journal_goBack e level
  have hnotes : (e.goBack level).recent k = [] ++ ns := by
    rw [recent, hjournal, ← hrecent, recent, List.nil_append]
  refine ⟨phase_goBack e level, (alike_goBack e level).conflict, hjournal ▸ hk,
    fun p slot hslot => ?_⟩
  have hp : p.index < e.slots.size :=
    (Array.getElem?_eq_some_iff.1 hslot).1.trans_eq (size_goBack e level)
  have hnil : slot.pending = [] := by
    rw [slots_goBack] at hslot
    exact pending_of_clearPending slot (Array.mem_of_getElem? hslot)
  have hwaits : (e.goBack level).agenda.contains p = true ↔
      (e.goBack level).memory.activity p = .inactive := by
    rw [contains_goBack, memory_goBack]
    exact and_iff_right hp
  refine ⟨⟨Slot.listed_of_nil hnil, fun _ i => ?_⟩, hwaits.2, fun hact => ?_, fun hact => ?_,
    fun _ => hnil⟩
  · rw [hnotes, Propagator.owed_append_quiet hns, Slot.events_of_nil hnil]
    rfl
  · refine Bool.eq_false_iff.2 fun hp => Activity.noConfusion (hact.symm.trans (hwaits.1 hp))
  · refine iff_of_false (fun hp => ?_) fun hne => hne hnil
    exact Activity.noConfusion (hact.symm.trans (hwaits.1 hp))

end Engine

end FiniteDomain
