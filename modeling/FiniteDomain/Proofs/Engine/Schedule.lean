import Mathlib.Tactic
import FiniteDomain.Proofs.Engine.Notification
import FiniteDomain.Proofs.Engine.Propagation
import FiniteDomain.Proofs.Propagator.Rest
import FiniteDomain.Proofs.Store.Driven

/-!
No propagator that has something to do is forgotten.

Between two calls, each propagator is on the agenda, or it was told all that it asked for
since its last call and has nothing to do.  One call of a propagator keeps this for all
others, since they are told what it changed, and brings it about for the propagator itself.
Every call takes a propagator from the agenda or a value from a domain, so that the calls
come to an end.

* `Engine.Minds`, `Engine.Alert`: what is expected of each propagator between two calls;
* `Engine.Orderly`: what else the calls rely on, and `Engine.load`, the measure;
* `Engine.Drives`: what runs of propagators leave alone;
* `Engine.serves_call`, `Engine.serves_work`: one call, and the calls of one propagator;
* `Engine.drain_settles`: the calls of all propagators that wait, after which none waits.
-/

namespace FiniteDomain

/-- The later memory has the sets of the earlier one, with the same room, and its checkpoints. -/
structure Memory.Rewinds (m m' : Memory) : Prop where
  level : m'.trail.level = m.trail.level
  size_sets : m'.sets.size = m.sets.size
  capacity : ∀ i, (m'.set i).capacity = (m.set i).capacity
  restore : ∀ level, level < m.trail.level → (m.restore level).Agrees (m'.restore level)

namespace Memory

variable {m m' m'' : Memory}

lemma Rewinds.refl (m : Memory) : m.Rewinds m := ⟨rfl, rfl, fun _ => rfl, fun _ _ => .refl _⟩

lemma Rewinds.trans (h : m.Rewinds m') (h' : m'.Rewinds m'') : m.Rewinds m'' where
  level := h'.level.trans h.level
  size_sets := h'.size_sets.trans h.size_sets
  capacity i := (h'.capacity i).trans (h.capacity i)
  restore level hl := (h.restore level hl).trans (h'.restore level (h.level ▸ hl))

lemma Kept.rewinds {p : PropId} {own : List SetId} (h : Kept p own m m') : m.Rewinds m' :=
  ⟨h.level, h.size_sets, h.capacity, fun level hl => (h.restore level hl).agrees⟩

end Memory

lemma Store.volume_congr {s t : Store} (h : t.vars = s.vars) : t.volume = s.volume := by
  rw [Store.volume, Store.volume, h]

namespace Engine

variable {e e' e'' : Engine} {p : PropId} {q : Propagator} {waits : Nat → Prop}

/-! ### Between two calls -/

/-- What is expected of a propagator between two calls: one that was never called, or was
told something, is on the agenda, and all that it waits for it was told. -/
structure Minds (e : Engine) (p : PropId) (slot : Slot) : Prop where
  inactive : e.memory.activity p = .inactive → e.agenda.contains p = true
  pending : slot.pending ≠ [] → e.agenda.contains p = true
  stands : slot.propagator.Stands p e.space slot.Waits

/-- This is so for all propagators but one. -/
def AlertBut (p : PropId) (e : Engine) : Prop :=
  ∀ (i : Nat) slot, i ≠ p.index → e.slots[i]? = some slot → e.Minds ⟨i⟩ slot

/-- This is so for all propagators. -/
def Alert (e : Engine) : Prop :=
  ∀ (i : Nat) slot, e.slots[i]? = some slot → e.Minds ⟨i⟩ slot

/-- The agenda is in order, all events were told, and the constraints make sense. -/
structure Orderly (e : Engine) : Prop where
  agenda : e.agenda.Bounded e.slots.size
  raised : e.store.raised = []
  followed : e.store.Followed
  proper : ∀ q ∈ e.propagators, q.Proper

/-- A bound for the calls that are still to be made. -/
def load (e : Engine) : Nat := e.slots.size * e.store.volume + e.agenda.waiting.length

/-- What runs of propagators leave alone. -/
structure Drives (e e' : Engine) : Prop where
  store : e.store.Driven e'.store
  memory : e.memory.Rewinds e'.memory
  size : e'.slots.size = e.slots.size
  followed : e'.store.Followed

lemma Drives.trans (h : Drives e e') (h' : Drives e' e'') : Drives e e'' :=
  ⟨h.store.trans h'.store, h.memory.trans h'.memory, h'.size.trans h.size, h'.followed⟩

lemma Drives.refl (w : e.store.WellFormed) (hf : e.store.Followed) : Drives e e :=
  ⟨.refl w, .refl _, rfl, hf⟩

lemma AlertBut.alert (h : AlertBut p e)
    (hp : ∀ slot, e.slots[p.index]? = some slot → e.Minds p slot) : e.Alert := by
  intro i slot hslot
  by_cases hi : i = p.index
  · subst hi
    exact hp slot hslot
  · exact h i slot hi hslot

lemma slot_of_propagator (hq : e.propagators[p.index]? = some q) :
    ∃ slot, e.slots[p.index]? = some slot ∧ slot.propagator = q := by
  rw [← propagator?_eq, propagator?, Option.map_eq_some_iff] at hq
  exact hq

lemma propagator_of_slot {i : Nat} {slot : Slot} (h : e.slots[i]? = some slot) :
    e.propagators[i]? = some slot.propagator := by
  have := propagator?_eq (e := e) (p := ⟨i⟩)
  rw [propagator?] at this
  rw [← this, h]
  rfl

/-- The sets of different propagators are different. -/
lemma disjoint_own (hc : e.space.Consistent e.propagators) {i j : Nat} {q q' : Propagator}
    (hij : i ≠ j) (hq : e.propagators[i]? = some q) (hq' : e.propagators[j]? = some q') :
    q.own.Disjoint q'.own := by
  obtain ⟨hlt, rfl⟩ := List.getElem?_eq_some_iff.1 hq
  obtain ⟨hlt', rfl⟩ := List.getElem?_eq_some_iff.1 hq'
  rcases Nat.lt_or_gt_of_ne hij with h | h
  · exact List.pairwise_iff_getElem.1 hc.apart _ _ hlt hlt' h
  · exact (List.pairwise_iff_getElem.1 hc.apart _ _ hlt' hlt h).symm

/-! ### One call -/

/-- What the calls of one propagator leave. -/
structure Served (p : PropId) (q : Propagator) (waits : Nat → Prop) (e e' : Engine) : Prop where
  orderly : e'.Orderly
  others : AlertBut p e'
  slot : e'.slots[p.index]? = e.slots[p.index]?
  load : e'.load ≤ e.load
  drives : Drives e e'
  active : e'.memory.activity p ≠ .inactive
  stands : q.Stands p e'.space waits

/-- A run of calls of one propagator, which may stop at an inconsistency. -/
def Serves (p : PropId) (q : Propagator) (waits : Nat → Prop) (f : Run Unit) (e : Engine) : Prop :=
  Ends f e (fun _ e' => Served p q waits e e') fun x e' =>
    (∃ i, x = .inconsistent i) ∧ Drives e e'

/-- The domains and what the propagator remembers are told from the space of a run. -/
lemma stands_of_alike {e₁ : Engine} (h : Alike e₁ e') (hs : q.Stands p e₁.space waits) :
    q.Stands p e'.space waits := by
  obtain ⟨⟨⟨vars, trail, failure, raised⟩, memory, calls⟩, slots, agenda⟩ := e₁
  obtain ⟨⟨⟨vars', trail', failure', raised'⟩, memory', calls'⟩, slots', agenda'⟩ := e'
  cases h.vars
  cases h.memory
  exact ⟨hs.rests, hs.met⟩

section Told

variable (hc : e.space.Consistent e.propagators) (ho : e.Orderly) {J : Grounds}
  {cause : Option PropId} {t : Space}

/-- The engine after a change of its space, of which the propagators were told. -/
abbrev told (e : Engine) (cause : Option PropId) (t : Space) : Engine :=
  (e.withSpace t).notify cause

/-- A call that ends well ran the propagator on the space, and told the others of it. -/
lemma call_eq_ok {f : Filter Unit} (h : call p f e = .ok () e') :
    ∃ t, f e.space = .ok () t ∧ e' = told e (some p) t := by
  rw [call] at h
  cases hrun : f e.space with
  | ok _ t =>
    rw [hrun] at h
    cases h
    exact ⟨t, rfl, rfl⟩
  | error x t =>
    rw [hrun] at h
    cases h

lemma hears_told (e : Engine) (cause : Option PropId) (t : Space) :
    Hears cause (e.withSpace t).clearRaised (told e cause t) := (hears_notify _ _).1

lemma alike_told (e : Engine) (cause : Option PropId) (t : Space) :
    Alike (e.withSpace t) (told e cause t) := alike_notify _ _

include ho in
/-- After all events were told, the engine is in order again. -/
lemma orderly_told (hf : t.store.Followed) : (told e cause t).Orderly := by
  have hears := hears_told e cause t
  have halike := alike_told e cause t
  refine ⟨?_, hears.raised, hf.congr halike.vars, ?_⟩
  · rw [show (told e cause t).slots.size = e.slots.size from hears.size]
    exact hears.bounded ho.agenda
  · rw [halike.propagators]
    exact ho.proper

include hc ho in
/-- A propagator that did not cause a change was told what it asked for. -/
lemma minds_told (hn : Store.Narrowing J cause e.store t.store) (wm : t.memory.WellFormed)
    {i : Nat} {slot' : Slot} (hcause : cause ≠ some ⟨i⟩)
    (hslot' : (told e cause t).slots[i]? = some slot')
    (hmind : ∀ slot, e.slots[i]? = some slot → e.Minds ⟨i⟩ slot)
    (hact : t.memory.activity ⟨i⟩ = e.memory.activity ⟨i⟩)
    (hmem : ∀ q, e.propagators[i]? = some q → ∀ j ∈ q.own, ∀ k,
      (t.memory.set j).contains k = (e.memory.set j).contains k) :
    (told e cause t).Minds ⟨i⟩ slot' := by
  have halike := alike_told e cause t
  obtain ⟨slot, hslot, hpropagator, hwaits, hor⟩ := (hears_told e cause t).slot_before hslot'
  have hslot : e.slots[i]? = some slot := hslot
  have hmind := hmind slot hslot
  have hact' : (told e cause t).memory.activity ⟨i⟩ = e.memory.activity ⟨i⟩ := by
    rw [halike.memory]
    exact hact
  have hcontains := (hears_told e cause t).contains ⟨i⟩
  refine ⟨fun ha => hcontains (hmind.inactive (hact' ▸ ha)), fun hpending => ?_, ?_⟩
  · rcases hor with rfl | ⟨-, hmem⟩
    · exact hcontains (hmind.pending hpending)
    · exact hmem
  · have hq := propagator_of_slot hslot
    rw [hpropagator]
    have hsh := hn.shrinks hc.store
    have hmemory : (told e cause t).space.memory = t.memory := halike.memory
    have hdomain : (told e cause t).space.store.domain = t.store.domain := halike.domain
    refine hmind.stands.shrink hc.memory (hmemory ▸ wm) hact' ?_ ?_ ?_ hwaits ?_
    · rw [hmemory]
      exact hmem _ hq
    · rw [show (told e cause t).space.store.root = t.store.root from halike.root]
      exact fun v _ => hsh.root v
    · rw [hdomain]
      exact fun v _ => hsh.domain v
    · intro k v hk ha hno
      rw [hdomain]
      rw [← hpropagator] at hk ⊢
      exact not_concerns_of_not_waits (e := e.withSpace t) hc.store ho.followed hn hslot'
        (hact'.trans ha) hcause hk hno

end Told

section Call

variable (hc : e.space.Consistent e.propagators) (ho : e.Orderly) (hbut : AlertBut p e)
  (hq : e.propagators[p.index]? = some q) {t : Space}

/-- Nothing was raised if nothing changed, and otherwise there are fewer values. -/
lemma load_told (w : e.store.WellFormed) (hagenda : e.agenda.Bounded e.slots.size)
    (hraised : e.store.raised = []) (h : Space.Ran .any p q.own e.space t) :
    (told e (some p) t).load ≤ e.load := by
  have hears := hears_told e (some p) t
  have hvolume : (told e (some p) t).store.volume = t.store.volume :=
    Store.volume_congr (alike_told e (some p) t).vars
  have hsize : (told e (some p) t).slots.size = e.slots.size := hears.size
  rw [load, load, hsize, hvolume]
  rcases h.store.volume_lt w with hsame | hlt
  · have hraised : (e.withSpace t).store.raised = [] := by
      change t.store.raised = []
      rw [hsame]
      exact hraised
    have hagenda : (told e (some p) t).agenda = e.agenda := by
      rw [told, notify, hraised]
      rfl
    rw [hagenda, hsame]
  · have hlength := (hears.bounded hagenda).length_le
    have hvolume := Nat.mul_le_mul_left e.slots.size (Nat.succ_le_of_lt hlt)
    rw [Nat.mul_succ] at hvolume
    calc e.slots.size * t.store.volume + (told e (some p) t).agenda.waiting.length
      _ ≤ e.slots.size * t.store.volume + e.slots.size := Nat.add_le_add_left hlength _
      _ ≤ e.slots.size * e.store.volume := hvolume
      _ ≤ e.slots.size * e.store.volume + e.agenda.waiting.length := Nat.le_add_right _ _

include hc ho hbut hq in
/-- The others were told what they asked for. -/
lemma alertBut_told (h : Space.Ran .any p q.own e.space t) : AlertBut p (told e (some p) t) := by
  intro i slot' hi hslot'
  have hne : (⟨i⟩ : PropId) ≠ p := fun h => hi (congrArg PropId.index h)
  refine minds_told hc ho h.store h.memory.wellFormed ?_ hslot' (fun slot => hbut i slot hi)
    (h.memory.activity ⟨i⟩ hne) fun q' hq' j hj k => ?_
  · exact fun heq => hne (Option.some.inj heq).symm
  · exact h.memory.contains j (disjoint_own hc hi hq' hq hj) k

include hc ho hbut hq in
/-- One call of a propagator. -/
lemma serves_call {f : Filter Unit} (hcalls : q.Calls p e.space f)
    (hreaches : q.Reaches p e.space f waits) : Serves p q waits (call p f) e := by
  simp only [Serves, Ends, call, Propagator.Calls, Propagator.Reaches, Filter.Settles] at *
  cases hrun : f e.space with
  | ok a t =>
    rw [hrun] at hcalls hreaches
    obtain ⟨hran, hactive, hstands⟩ := hreaches
    have hears := hears_told e (some p) t
    have halike := alike_told e (some p) t
    have horderly : (told e (some p) t).Orderly :=
      orderly_told ho (hran.store.followed ho.followed)
    have hdriven := (hcalls.1.store.driven hc.store rfl).congr halike.vars halike.trail
      halike.failure
    have hmemory : e.memory.Rewinds (told e (some p) t).memory := by
      rw [halike.memory]
      exact hran.memory.rewinds
    refine ⟨horderly, alertBut_told hc ho hbut hq hran, ?_,
      load_told hc.store ho.agenda ho.raised hran,
      ⟨hdriven, hmemory, hears.size, horderly.followed⟩, ?_, ?_⟩
    · obtain ⟨slot, hslot, -⟩ := slot_of_propagator hq
      obtain ⟨slot', hslot', -, -, hor⟩ := hears.slot p.index slot hslot
      rcases hor with rfl | ⟨hne, -⟩
      · exact hslot'.trans hslot.symm
      · exact absurd rfl hne
    · rw [halike.memory]
      exact hactive
    · have hstands : q.Stands p (e.withSpace t).space waits := hstands
      exact stands_of_alike halike hstands
  | error x t =>
    rw [hrun] at hcalls hreaches
    obtain ⟨i, rfl⟩ := hreaches
    refine ⟨⟨i, rfl⟩, ?_⟩
    rcases hcalls with ⟨hrefused, hkept⟩ | ⟨-, hstore, hmemory⟩
    · exact ⟨hrefused.driven hc.store rfl, hkept.rewinds, rfl, hrefused.followed ho.followed⟩
    · have hdriven : e.store.Driven t.store := by
        rw [hstore]
        exact .refl hc.store
      have hfollowed : t.store.Followed := by
        rw [hstore]
        exact ho.followed
      have hrewinds : e.memory.Rewinds t.memory := by
        rw [hmemory]
        exact .refl _
      exact ⟨hdriven, hrewinds, rfl, hfollowed⟩

end Call

/-! ### The calls of one propagator -/

lemma Serves.after {f : Run Unit} (h : Serves p q waits f e') (hd : Drives e e')
    (hslot : e'.slots[p.index]? = e.slots[p.index]?) (hload : e'.load ≤ e.load) :
    Ends f e' (fun _ e'' => Served p q waits e e'') fun x e'' =>
      (∃ i, x = .inconsistent i) ∧ Drives e e'' :=
  h.mono (fun _ _ h => ⟨h.orderly, h.others, h.slot.trans hslot, h.load.trans hload,
    hd.trans h.drives, h.active, h.stands⟩) fun _ _ h => ⟨h.1, hd.trans h.2⟩

section Calls

variable (w : Working e) (ho : e.Orderly) (hbut : AlertBut p e)
  (hq : e.propagators[p.index]? = some q)

include w ho hbut hq

/-- A propagator that is called from scratch need not have been told anything. -/
lemma serves_start : Serves p q (fun _ => False) (start p q) e := by
  have hp := lt_size_of_propagator w.consistent hq
  have hkept : Memory.Kept p [] e.memory (e.memory.setActivity p .active) :=
    .setActivity w.consistent.memory hp nofun
  have hsame : Store.Narrowing (fun _ _ _ => False) none e.store (e.activated p q).store := .refl
  have hc : (e.activated p q).space.Consistent (e.activated p q).propagators :=
    w.consistent.step (fun _ _ _ h => h.elim) hsame hkept w.ready.failure
  have ho₁ : (e.activated p q).Orderly := ⟨ho.agenda, ho.raised, ho.followed, ho.proper⟩
  have hbut₁ : AlertBut p (e.activated p q) := by
    intro i slot hi hslot
    have hmind := hbut i slot hi hslot
    have hact := hkept.activity ⟨i⟩ fun h => hi (congrArg PropId.index h)
    refine ⟨fun ha => hmind.inactive (hact.symm.trans ha), hmind.pending, ?_⟩
    exact hmind.stands.congr w.consistent.memory hkept.wellFormed hact
      (fun j _ k => hkept.contains j List.not_mem_nil k) (fun _ _ => rfl) fun _ _ => rfl
  have hp₁ := lt_size_of_propagator hc hq
  have hfits := hc.fits q (List.mem_of_getElem? hq)
  have hproper := ho.proper q (List.mem_of_getElem? hq)
  have hact : (e.activated p q).memory.activity p = .active := by
    change (e.memory.setActivity p .active).activity p = .active
    rw [Memory.activity_setActivity hp, if_pos rfl]
  have hcall : Serves p q (fun _ => False) (call p (q.propagate p)) (e.activated p q) :=
    serves_call hc ho₁ hbut₁ hq (Propagator.calls_propagate hc.wellFormed hfits hp₁)
      (Propagator.reaches_propagate hc.wellFormed hfits hproper hp₁ hact)
  have hd : Drives e (e.activated p q) :=
    ⟨.refl w.consistent.store, hkept.rewinds, rfl, ho.followed⟩
  rw [start]
  exact ends_bind_modify (hcall.after hd rfl le_rfl)

/-- The events of a propagator are delivered one by one.  Those that are left wait. -/
lemma serves_deliver {events : Assoc Nat EventSet} (hactive : e.memory.activity p ≠ .inactive)
    (hstands : q.Stands p e.space fun i => i ∈ Assoc.keys events) :
    Serves p q (fun _ => False) (deliver p q events) e := by
  induction events generalizing e with
  | nil =>
    have hnone : q.Stands p e.space fun _ => False :=
      hstands.mono fun i hi => absurd hi List.not_mem_nil
    exact ends_pure ⟨ho, hbut, rfl, le_rfl, .refl w.consistent.store ho.followed, hactive, hnone⟩
  | cons event events ih =>
    obtain ⟨index, set⟩ := event
    rw [deliver]
    refine ends_bind_get ?_
    split
    case isFalse hpassive =>
      -- a passive propagator is done, whatever events are left
      have hpassive : e.memory.activity p = .passive := by simpa [isPassive] using hpassive
      refine ends_pure ⟨ho, hbut, rfl, le_rfl, .refl w.consistent.store ho.followed, hactive, ?_⟩
      exact ⟨fun ha => absurd (hpassive.symm.trans ha) (by decide), hstands.met⟩
    rename_i hnot
    have hact : e.memory.activity p = .active := by
      cases ha : e.memory.activity p with
      | inactive => exact absurd ha hactive
      | active => rfl
      | passive => simp [isPassive, ha] at hnot
    -- writing down that the propagator is called changes nothing that it reads
    let e₁ : Engine := e.alerted p q index set
    have halike : Alike e e₁ := alike_alerted e p q index set
    have w₁ : Working e₁ := halike.working w
    have ho₁ : e₁.Orderly := ⟨ho.agenda, ho.raised, ho.followed, ho.proper⟩
    have hbut₁ : AlertBut p e₁ := fun i slot hi hslot =>
      ⟨(hbut i slot hi hslot).inactive, (hbut i slot hi hslot).pending,
        (hbut i slot hi hslot).stands⟩
    have hd : Drives e e₁ := ⟨.refl w.consistent.store, .refl _, rfl, ho.followed⟩
    -- the call serves this one event and leaves the engine fit for the next
    have hp := lt_size_of_propagator w₁.consistent hq
    have hfits := w₁.consistent.fits q (List.mem_of_getElem? hq)
    have hproper := ho.proper q (List.mem_of_getElem? hq)
    have htracks := w.ready.tracked p.index q hq hact
    have hcalls : q.Calls p e₁.space (q.react p index set) :=
      Propagator.calls_react w₁.consistent.wellFormed hfits hp htracks index set
    have hserves : Serves p q (fun i => i ∈ Assoc.keys ((index, set) :: events) ∧ i ≠ index)
        (call p (q.react p index set)) e₁ :=
      serves_call w₁.consistent ho₁ hbut₁ hq hcalls
        (Propagator.reaches_react w₁.consistent.wellFormed hfits hproper hp hact htracks hstands
          index set)
    have hruns := runs_call w₁.consistent w₁.ready.failure (w₁.trackedBut p) hq hcalls
    refine ends_bind_modify (Ends.bind (((hserves.after hd rfl le_rfl).and hruns).mono
      (fun _ _ h => h) fun _ _ h => h.1) fun _ e' h => ?_)
    obtain ⟨hserved, ⟨w', hgoes⟩, -⟩ := h
    -- what the propagator stands on now is the other events alone
    have hq' : e'.propagators[p.index]? = some q := by rw [hgoes.propagators]; exact hq
    have hrest : q.Stands p e'.space fun i => i ∈ Assoc.keys events := by
      refine hserved.stands.mono fun i hi => ?_
      exact (List.mem_cons.1 hi.1).resolve_left hi.2
    exact (ih w' hserved.orderly hserved.others hq' hserved.active hrest).after hserved.drives
      hserved.slot hserved.load

end Calls

/-- The engine right before a propagator is called, which then does not wait any more. -/
def relieved (e : Engine) (p : PropId) (slot : Slot) : Engine :=
  { e with slots := e.slots.setIfInBounds p.index { slot with pending := [] } }

section Relieved

variable {slot : Slot} (hslot : e.slots[p.index]? = some slot)

lemma size_relieved : (e.relieved p slot).slots.size = e.slots.size := Array.size_setIfInBounds

lemma load_relieved : (e.relieved p slot).load = e.load := by
  rw [load, load, size_relieved]
  rfl

lemma drives_relieved (w : e.store.WellFormed) (hf : e.store.Followed) :
    Drives e (e.relieved p slot) := ⟨.refl w, .refl _, size_relieved, hf⟩

lemma AlertBut.relieved (h : AlertBut p e) : AlertBut p (e.relieved p slot) := by
  intro i slot' hi hslot'
  have hslot' : e.slots[i]? = some slot' := by
    rw [← hslot']
    exact (Array.getElem?_setIfInBounds_ne fun h => hi h.symm).symm
  have hmind := h i slot' hi hslot'
  exact ⟨hmind.inactive, hmind.pending, hmind.stands⟩

include hslot

lemma alike_relieved : Alike e (e.relieved p slot) :=
  ⟨propagators_setSlot hslot rfl, rfl, rfl, rfl, rfl, rfl, rfl⟩

lemma Orderly.relieved (h : e.Orderly) : (e.relieved p slot).Orderly := by
  refine ⟨?_, h.raised, h.followed, ?_⟩
  · rw [size_relieved]
    exact h.agenda
  · rw [(alike_relieved hslot).propagators]
    exact h.proper

/-- After the calls nothing is left that the propagator was told and not called for. -/
lemma Serves.finish {f : Run Unit} (w : e.store.WellFormed) (hf : e.store.Followed)
    (h : Serves p slot.propagator (fun _ => False) f (e.relieved p slot)) :
    Ends f (e.relieved p slot)
      (fun _ e' => e'.Orderly ∧ e'.Alert ∧ e'.load ≤ e.load ∧ Drives e e')
      fun x e' => (∃ i, x = .inconsistent i) ∧ Drives e e' := by
  have hd : Drives e (e.relieved p slot) := drives_relieved w hf
  have hq : ∀ {e' : Engine}, Served p slot.propagator (fun _ => False) (e.relieved p slot) e' →
      e'.slots[p.index]? = some { slot with pending := [] } := fun h =>
    h.slot.trans (Array.getElem?_setIfInBounds_self_of_lt (Array.getElem?_eq_some_iff.1 hslot).1)
  refine Ends.mono h (fun _ e' h => ?_) fun x e' h => ⟨h.1, hd.trans h.2⟩
  refine ⟨h.orderly, h.others.alert fun slot' hslot' => ?_, h.load.trans load_relieved.le,
    hd.trans h.drives⟩
  rw [hq h] at hslot'
  cases hslot'
  refine ⟨fun ha => absurd ha h.active, fun hpending => absurd rfl hpending, ?_⟩
  exact h.stands.mono fun i hi => hi.elim

end Relieved

/-- The propagator that was taken from the agenda is called as its activity asks for. -/
lemma serves_work (w : Working e) (ho : e.Orderly) (hbut : AlertBut p e)
    (hstands : ∀ slot, e.slots[p.index]? = some slot →
      slot.propagator.Stands p e.space slot.Waits) :
    Ends (work p) e (fun _ e' => e'.Orderly ∧ e'.Alert ∧ e'.load ≤ e.load ∧ Drives e e')
      fun x e' => (∃ i, x = .inconsistent i) ∧ Drives e e' := by
  rw [work]
  refine ends_bind_get ?_
  split
  case h_1 hnone =>
    refine ends_pure ⟨ho, hbut.alert fun slot hslot => ?_, le_rfl,
      .refl w.consistent.store ho.followed⟩
    rw [hnone] at hslot
    cases hslot
  rename_i slot hslot
  have w₁ := (alike_relieved hslot).working w
  have ho₁ := ho.relieved hslot
  have hbut₁ : AlertBut p (e.relieved p slot) := hbut.relieved
  have hq : (e.relieved p slot).propagators[p.index]? = some slot.propagator := by
    rw [(alike_relieved hslot).propagators]
    exact propagator_of_slot hslot
  have hfinish := fun f => Serves.finish hslot (f := f) w.consistent.store ho.followed
  refine ends_bind_set ?_
  split
  · rename_i hact
    have hact : (e.relieved p slot).memory.activity p = .passive := hact
    refine hfinish _ (ends_pure
      ⟨ho₁, hbut₁, rfl, le_rfl, .refl w.consistent.store ho.followed, ?_, ?_⟩)
    · rw [hact]
      decide
    · exact ⟨fun ha => absurd (hact.symm.trans ha) (by decide), (hstands slot hslot).met⟩
  · exact hfinish _ (serves_start w₁ ho₁ hbut₁ hq)
  · rename_i hact
    have hact : (e.relieved p slot).memory.activity p = .active := hact
    split
    · refine hfinish _ (serves_deliver w₁ ho₁ hbut₁ hq ?_ (hstands slot hslot))
      rw [hact]
      decide
    · exact hfinish _ (serves_start w₁ ho₁ hbut₁ hq)

/-! ### All calls -/

/-- A failed engine tells nobody anything. -/
lemma Orderly.fail (hagenda : e.agenda.WellFormed) (hf : e.store.Followed)
    (hproper : ∀ q ∈ e.propagators, q.Proper) (i : Inconsistency) : (e.fail i).Orderly := by
  refine ⟨hagenda.bounded_clear _, rfl, hf.congr rfl, ?_⟩
  rw [(alike_fail e i).propagators]
  exact hproper

section Popped

variable {agenda : Agenda} (hpop : e.agenda.pop = some (p, agenda))

include hpop

lemma Orderly.popped (ho : e.Orderly) : ({ e with agenda := agenda } : Engine).Orderly :=
  ⟨ho.agenda.pop hpop, ho.raised, ho.followed, ho.proper⟩

/-- Nothing is expected of the propagator that is taken from the agenda. -/
lemma Alert.popped (ha : e.Alert) (ho : e.Orderly) : AlertBut p { e with agenda := agenda } := by
  have hcontains := (ho.agenda.wellFormed.pop hpop).2
  intro i slot hi hslot
  have hmind := ha i slot hslot
  have hne : (⟨i⟩ : PropId) ≠ p := fun h => hi (congrArg PropId.index h)
  exact ⟨fun hact => (hcontains _).2 ⟨hmind.inactive hact, hne⟩,
    fun hpending => (hcontains _).2 ⟨hmind.pending hpending, hne⟩, hmind.stands⟩

end Popped

/-- The calls of all propagators that wait come to an end, and then none waits, or one of
them stops. -/
lemma drain_settles {n : Nat} (w : Working e) (ho : e.Orderly) (ha : e.Alert) (hn : e.load < n) :
    Ends (drain n) e
      (fun _ e' => e'.Orderly ∧ e'.Alert ∧ e'.agenda.isEmpty = true ∧ Drives e e')
      fun x e' => (∃ i, x = .inconsistent i ∧ e'.conflict = some i) ∧ e'.Orderly ∧ Drives e e' := by
  induction n generalizing e with
  | zero => exact absurd hn (Nat.not_lt_zero _)
  | succ n ih =>
    rw [Ends, drain]
    dsimp only
    cases hpop : e.agenda.pop with
    | none =>
      -- nobody waits
      have hempty := (Agenda.pop_eq_none_iff ho.agenda.wellFormed).1 hpop
      exact ⟨ho, ha, hempty, .refl w.consistent.store ho.followed⟩
    | some next =>
      obtain ⟨p, agenda⟩ := next
      let e₁ : Engine := { e with agenda := agenda }
      have halike : Alike e e₁ := ⟨rfl, rfl, rfl, rfl, rfl, rfl, rfl⟩
      have hd : Drives e e₁ := ⟨.refl w.consistent.store, .refl _, rfl, ho.followed⟩
      have ho₁ : e₁.Orderly := Orderly.popped hpop ho
      have hbut : AlertBut p e₁ := Alert.popped hpop ha ho
      have hload : e₁.load + 1 = e.load := by
        have := (Agenda.perm_waiting_pop hpop).length_eq
        rw [load, load, this]
        rfl
      have hwork := serves_work (halike.working w) ho₁ hbut
        fun slot hslot => (ha _ slot hslot).stands
      have hruns := runs_work (halike.working w) p
      dsimp only
      cases hrun : work p e₁ with
      | ok a e' =>
        -- a call may wake others, but together with those that wait it leaves less to do
        obtain ⟨ho', ha', hload', hd'⟩ := Ends.of_ok hrun hwork
        have w' := (Ends.of_ok hrun hruns).1
        refine (ih w' ho' ha' (by omega)).mono (fun _ _ h => ?_) fun _ _ h => ?_
        · exact ⟨h.1, h.2.1, h.2.2.1, (hd.trans hd').trans h.2.2.2⟩
        · exact ⟨h.1, h.2.1, (hd.trans hd').trans h.2.2⟩
      | error x e' =>
        -- it stopped: the agenda and all pending events are thrown away
        obtain ⟨⟨i, rfl⟩, hd'⟩ := Ends.of_error hrun hwork
        obtain ⟨hhalt, hgoes⟩ := Ends.of_error hrun hruns
        have hall := hd.trans hd'
        have hproper : ∀ q ∈ e'.propagators, q.Proper := by
          rw [hgoes.propagators]
          exact ho.proper
        have hagenda : e'.agenda.WellFormed :=
          Ends.of_error hrun (arrays_work ho₁.agenda.wellFormed p)
        refine ⟨⟨i, rfl, rfl⟩, .fail (e := e'.note _) hagenda hall.followed hproper i, ?_⟩
        refine ⟨hall.store.congr rfl rfl rfl, hall.memory, ?_, hall.followed.congr rfl⟩
        rw [← hall.size]
        exact Array.size_map

end Engine

end FiniteDomain
