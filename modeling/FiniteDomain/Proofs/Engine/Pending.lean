import Mathlib.Tactic
import FiniteDomain.Proofs.Engine.Ending

/-!
Events that are looked up one by one.

What a propagator was told is taken from its slot before its calls.  It could as well be looked up
event by event, since none of the calls tells the propagator itself anything.

* `Engine.withPending`: an engine with something else to tell a propagator, which no call of this
  propagator notices (`Engine.call_withPending`);
* `Engine.serve`: the calls of a propagator, each for the first event that is left in its slot;
* `Engine.serve_eq_deliver`: they are those for the events that were there at first;
* `Engine.concludes_serve`: they come to an end.
-/

namespace FiniteDomain

namespace Engine

variable {e e' : Engine} {p p' : PropId} {q : Propagator} {events : Assoc Nat EventSet}

/-- The events that a propagator has to be told of. -/
def pending (e : Engine) (p : PropId) : Assoc Nat EventSet :=
  (e.slots[p.index]?).elim [] Slot.pending

/-- The engine with other events to tell a propagator. -/
def withPending (e : Engine) (p : PropId) (events : Assoc Nat EventSet) : Engine :=
  { e with slots := e.slots.modify p.index fun slot => { slot with pending := events } }

/-- Calls a propagator for the events in its slot, each time for the first one that is left, until
it is passive.  What is left then is given up. -/
def serve (p : PropId) (q : Propagator) : Nat → Run Unit
  | 0 => throw .exhausted
  | rounds + 1 => do
    match (← get).pending p with
    | [] => pure ()
    | (index, events) :: others =>
      modify fun e => e.withPending p others
      if (← get).isPassive p then
        modify fun e => e.withPending p []
      else
        modify fun e => e.alerted p q index events
        call p (q.react p index events)
        serve p q rounds

/-! ### Another slot -/

lemma index_ne (h : p' ≠ p) : p'.index ≠ p.index :=
  fun hi => h (by cases p; cases p'; cases hi; rfl)

/-- A slot that is replaced and another one that is changed. -/
lemma setIfInBounds_modify {α : Type} {xs : Array α} {x : α} {f : α → α} {i j : Nat} (h : i ≠ j) :
    (xs.modify j f).setIfInBounds i x = (xs.setIfInBounds i x).modify j f := by
  refine Array.ext_getElem? fun k => ?_
  rw [Array.getElem?_setIfInBounds, Array.getElem?_modify, Array.getElem?_modify,
    Array.getElem?_setIfInBounds, Array.size_modify]
  by_cases hk : i = k
  · subst hk
    rw [if_pos rfl, if_neg h.symm, if_pos rfl]
  · rw [if_neg hk, if_neg hk]

lemma size_withPending : (e.withPending p events).slots.size = e.slots.size := Array.size_modify

lemma getElem?_withPending {i : Nat} : (e.withPending p events).slots[i]? =
    if i = p.index then (e.slots[i]?).map fun slot => { slot with pending := events }
    else e.slots[i]? := by
  rw [withPending, Array.getElem?_modify]
  by_cases hi : p.index = i
  · subst hi
    simp
  · rw [if_neg hi, if_neg (Ne.symm hi)]

/-- The last events count. -/
lemma withPending_withPending {others : Assoc Nat EventSet} :
    (e.withPending p events).withPending p others = e.withPending p others := by
  have hslots : ((e.withPending p events).withPending p others).slots =
      (e.withPending p others).slots := by
    refine Array.ext_getElem? fun i => ?_
    rw [getElem?_withPending, getElem?_withPending, getElem?_withPending]
    split
    · rw [Option.map_map]
      rfl
    · rfl
  rw [withPending] at hslots ⊢
  exact congrArg (fun slots => ({ e with slots := slots } : Engine)) hslots

lemma pending_withPending (hp : p.index < e.slots.size) :
    (e.withPending p events).pending p = events := by
  rw [pending, getElem?_withPending, if_pos rfl, Array.getElem?_eq_getElem hp]
  rfl

/-- The propagator that is taken from the agenda has nothing left in its slot. -/
lemma relieved_eq {slot : Slot} (hslot : e.slots[p.index]? = some slot) :
    e.relieved p slot = e.withPending p [] := by
  have hslots : (e.relieved p slot).slots = (e.withPending p []).slots := by
    refine Array.ext_getElem? fun i => ?_
    rw [getElem?_withPending, relieved, Array.getElem?_setIfInBounds]
    by_cases hi : p.index = i
    · subst hi
      rw [if_pos rfl, if_pos rfl, hslot, if_pos (Array.getElem?_eq_some_iff.1 hslot).1]
      rfl
    · rw [if_neg hi, if_neg (Ne.symm hi)]
  rw [relieved] at hslots ⊢
  exact congrArg (fun slots => ({ e with slots := slots } : Engine)) hslots

/-! ### One that is told something -/

section Tell

variable {cause : Option PropId} {v : VarId} {set : EventSet} {slot : Slot}

lemma tell_of_none (h : e.slots[p.index]? = none) : tell cause v set e p = e := by
  rw [tell, h]

/-- One that is not told. -/
lemma tell_of_skip (h : e.slots[p.index]? = some slot)
    (hskip : cause = some p ∨ e.memory.activity p ≠ .active ∨ slot.interested v set = []) :
    tell cause v set e p = e := by
  rw [tell, h]
  dsimp only
  rw [if_pos (hskip.imp_right fun h => h.imp_right List.isEmpty_iff.2)]

/-- One that is told. -/
lemma tell_of_told (h : e.slots[p.index]? = some slot) (hcause : cause ≠ some p)
    (hact : e.memory.activity p = .active) (hne : slot.interested v set ≠ []) :
    tell cause v set e p = { e with
      slots := e.slots.setIfInBounds p.index (slot.tell set (slot.interested v set))
      agenda := e.agenda.enqueue p slot.propagator.priority } := by
  rw [tell, h]
  dsimp only
  rw [if_neg]
  rintro (h | h | h)
  · exact hcause h
  · exact h hact
  · exact hne (List.isEmpty_iff.1 h)

end Tell

/-! ### Calls of the propagator -/

/-- Whatever a propagator has to be told, the others are told what it caused. -/
lemma tell_withPending (v : VarId) (set : EventSet) :
    tell (some p) v set (e.withPending p events) p' =
      (tell (some p) v set e p').withPending p events := by
  have hslot : p'.index ≠ p.index →
      (e.withPending p events).slots[p'.index]? = e.slots[p'.index]? := fun hne => by
    rw [getElem?_withPending, if_neg hne]
  cases hget : e.slots[p'.index]? with
  | none =>
    have hget' : (e.withPending p events).slots[p'.index]? = none := by
      rw [getElem?_withPending, hget]
      split <;> rfl
    rw [tell_of_none hget, tell_of_none hget']
  | some slot =>
    by_cases hp : p' = p
    · subst hp
      have hget' : (e.withPending p' events).slots[p'.index]? =
          some { slot with pending := events } := by
        rw [getElem?_withPending, if_pos rfl, hget]
        rfl
      rw [tell_of_skip hget (.inl rfl), tell_of_skip hget' (.inl rfl)]
    have hne := index_ne hp
    have hget' := (hslot hne).trans hget
    have hact' : (e.withPending p events).memory.activity p' = e.memory.activity p' := rfl
    by_cases hskip : e.memory.activity p' ≠ .active ∨ slot.interested v set = []
    · rw [tell_of_skip hget (.inr hskip), tell_of_skip hget' (.inr hskip)]
    obtain ⟨hact, hin⟩ := not_or.1 hskip
    have hact := not_not.1 hact
    have hcause : some p ≠ some p' := fun h => hp (Option.some.inj h).symm
    rw [tell_of_told hget hcause hact hin, tell_of_told hget' hcause (hact'.trans hact) hin]
    exact congrArg (fun slots => ({ e with
      slots := slots
      agenda := e.agenda.enqueue p' slot.propagator.priority } : Engine)) (setIfInBounds_modify hne)

lemma notify_withPending :
    (e.withPending p events).notify (some p) = (e.notify (some p)).withPending p events := by
  have hstep : ∀ (e : Engine) r, notifyOne (some p) (e.withPending p events) r =
      (notifyOne (some p) e r).withPending p events := by
    intro e r
    let e₁ := (e.note (.raised (some p) r.2 r.1)).count
      fun c => { c with domainEvents := c.domainEvents + 1 }
    have hids : (e₁.withPending p events).propIds = e₁.propIds := by
      rw [propIds, size_withPending, propIds]
    change (e₁.withPending p events).propIds.foldl (tell (some p) r.1 r.2) (e₁.withPending p events)
      = (e₁.propIds.foldl (tell (some p) r.1 r.2) e₁).withPending p events
    rw [hids]
    exact List.foldl_hom (fun e : Engine => e.withPending p events)
      fun e p' => tell_withPending r.1 r.2
  change List.foldl (notifyOne (some p)) (e.clearRaised.withPending p events) e.store.raised
    = (List.foldl (notifyOne (some p)) e.clearRaised e.store.raised).withPending p events
  exact List.foldl_hom (fun e : Engine => e.withPending p events) hstep

/-- The events that a propagator has to be told of play no part in its calls. -/
lemma call_withPending (events : Assoc Nat EventSet) (f : Filter Unit) : Ends (call p f) e
    (fun a e' => call p f (e.withPending p events) = .ok a (e'.withPending p events))
    fun x e' => call p f (e.withPending p events) = .error x (e'.withPending p events) := by
  have hspace : (e.withPending p events).space = e.space := rfl
  rw [Ends, call, call, hspace]
  cases f e.space with
  | ok _ s =>
    have hnotify : ((e.withSpace s).withPending p events).notify (some p) =
        ((e.withSpace s).notify (some p)).withPending p events := notify_withPending
    exact congrArg (EStateM.Result.ok ()) hnotify
  | error x s => rfl

lemma size_call {f : Filter Unit} {a : Unit} (hrun : call p f e = .ok a e') :
    e'.slots.size = e.slots.size := by
  obtain ⟨t, -, rfl⟩ := call_eq_ok hrun
  exact (hears_told e (some p) t).size

/-! ### The calls for its events -/

lemma withPending_pending : e.withPending p (e.pending p) = e := by
  have hslots : (e.withPending p (e.pending p)).slots = e.slots := by
    refine Array.ext_getElem? fun i => ?_
    rw [getElem?_withPending]
    split
    · rename_i hi
      subst hi
      rw [pending]
      cases e.slots[p.index]? <;> rfl
    · rfl
  rw [withPending] at hslots ⊢
  exact congrArg (fun slots => ({ e with slots := slots } : Engine)) hslots

section Serve

variable {index : Nat} {set : EventSet} {others : Assoc Nat EventSet}

lemma serve_nil {n : Nat} (h : e.pending p = []) : serve p q (n + 1) e = .ok () e := by
  rw [serve, bind_get, h]
  rfl

lemma serve_cons {n : Nat} (h : e.pending p = (index, set) :: others) : serve p q (n + 1) e =
    if e.isPassive p then .ok () (e.withPending p [])
    else (call p (q.react p index set) >>= fun _ => serve p q n)
      ((e.withPending p others).alerted p q index set) := by
  rw [serve, bind_get, h]
  dsimp only
  rw [bind_modify, bind_get]
  change (if e.isPassive p then _ else _ : Run Unit) _ = _
  split
  · exact congrArg (EStateM.Result.ok ()) withPending_withPending
  · rfl

lemma deliver_cons : deliver p q ((index, set) :: others) e =
    if e.isPassive p then .ok () e
    else (call p (q.react p index set) >>= fun _ => deliver p q others)
      (e.alerted p q index set) := by
  rw [deliver, bind_get]
  cases e.isPassive p <;> rfl

/-- The events that are in the slot at first are delivered, and no others.  Where a call stops,
the rest is left. -/
lemma serve_eq_deliver {n : Nat} (hn : (e.pending p).length < n) :
    Ends (deliver p q (e.pending p)) (e.withPending p [])
      (fun a e' => serve p q n e = .ok a e')
      fun x e' => ∃ rest, serve p q n e = .error x (e'.withPending p rest) := by
  generalize hevents : e.pending p = events at hn
  obtain ⟨n, rfl⟩ := Nat.exists_eq_add_one.2 (Nat.zero_lt_of_lt hn)
  induction events generalizing e n with
  | nil =>
    have hsame : e.withPending p [] = e := hevents ▸ withPending_pending
    rw [hsame]
    exact ends_pure (serve_nil hevents)
  | cons event others ih =>
    obtain ⟨index, set⟩ := event
    have hp : p.index < e.slots.size := by
      by_contra hge
      rw [pending, Array.getElem?_eq_none (Nat.not_lt.1 hge)] at hevents
      cases hevents
    have hpassive : (e.withPending p []).isPassive p = e.isPassive p := rfl
    rw [Ends, serve_cons hevents, deliver_cons, hpassive]
    cases e.isPassive p with
    | true => exact rfl
    | false =>
      -- the call is that of the engine without the other events
      let e₀ : Engine := (e.withPending p []).alerted p q index set
      have hother : ∀ events, (e.withPending p events).alerted p q index set =
          e₀.withPending p events := fun _ =>
        congrArg (fun e : Engine => e.alerted p q index set) withPending_withPending.symm
      rw [hother others]
      have hcall := fun events => call_withPending (e := e₀) (p := p) events (q.react p index set)
      simp only [Bool.false_eq_true, if_false, Bind.bind, EStateM.bind]
      cases hrun : call p (q.react p index set) e₀ with
      | error x e₂ => exact ⟨others, by rw [Ends.of_error hrun (hcall others)]⟩
      | ok a e₂ =>
        rw [Ends.of_ok hrun (hcall others)]
        dsimp only
        have hnone : e₂.withPending p [] = e₂ := by
          have hagain := Ends.of_ok hrun (hcall [])
          rw [← hother [], hrun] at hagain
          injection hagain with _ hsame
          exact hsame.symm
        have hsize : p.index < e₂.slots.size := by
          rw [size_call hrun]
          exact hp.trans_eq size_withPending.symm
        obtain ⟨n, rfl⟩ := Nat.exists_eq_add_one.2
          (Nat.zero_lt_of_lt (Nat.lt_of_succ_lt_succ hn))
        have hrest := ih (e := e₂.withPending p others) (pending_withPending hsize) n
          (Nat.lt_of_succ_lt_succ hn)
        rw [withPending_withPending, hnone] at hrest
        exact hrest

lemma outlasts_serve {n m : Nat} (h : n ≤ m) : Outlasts (serve p q n) (serve p q m) e := by
  induction n generalizing m e with
  | zero => exact .inl ⟨e, rfl⟩
  | succ n ih =>
    obtain ⟨m, rfl⟩ := Nat.exists_eq_add_one.2 (Nat.zero_lt_of_lt h)
    rw [serve, serve]
    refine Outlasts.bind (.refl _ _) fun e₁ t => ?_
    split
    · exact .refl _ _
    refine Outlasts.bind (.refl _ _) fun _ t => Outlasts.bind (.refl _ _) fun e₁ t => ?_
    split
    · exact .refl _ _
    refine Outlasts.bind (.refl _ _) fun _ t => Outlasts.bind (.refl _ _) fun _ t => ?_
    exact ih (Nat.le_of_succ_le_succ h)

/-- The calls for the events of a propagator come to an end. -/
lemma concludes_serve (h : (e.withPending p []).Tidy)
    (hq : (e.withPending p []).propagators[p.index]? = some q) :
    Concludes (serve p q) e ((e.pending p).length + 1) := by
  have hdeliver := easing_deliver h hq (e.pending p)
  have hserve := serve_eq_deliver (e := e) (q := q) (Nat.lt_succ_self (e.pending p).length)
  refine Concludes.of_ends (Q := fun _ _ => True) (fun _ => outlasts_serve) ?_
  rw [Ends]
  cases hrun : deliver p q (e.pending p) (e.withPending p []) with
  | ok a e' =>
    rw [Ends.of_ok hrun hserve]
    trivial
  | error x e' =>
    obtain ⟨rest, hrest⟩ := Ends.of_error hrun hserve
    rw [hrest]
    exact (Ends.of_error hrun hdeliver).1

end Serve

end Engine

end FiniteDomain
