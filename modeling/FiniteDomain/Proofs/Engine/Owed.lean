import Mathlib.Tactic
import FiniteDomain.Proofs.Assoc
import FiniteDomain.Proofs.Engine.Pending

/-!
What propagators are owed.

Every event that is taken from the store is noted, and so is every call of a propagator.  The
notes tell which events a propagator asked for since it was last called for them: those it is
owed.  They are the events in its slot, and it is on the agenda exactly if there are any.

* `Propagator.owed`: what a propagator is owed at an index, by the notes;
* `Slot.events`: what its slot holds for it, with `Slot.events_tell`;
* `Engine.Attends`: the slot of a propagator, the agenda and the notes agree;
* `Engine.notifyOne_spec`: what one event does to one slot;
* `Engine.Informs`: the slots agree still after events were told, with `Engine.informs_notify`.
-/

namespace FiniteDomain

namespace Propagator

/-- What the propagator is owed after one more note. -/
def owedAfter (q : Propagator) (p : PropId) (i : Nat) (owed : EventSet) : Note → EventSet
  | .raised cause events v =>
    if cause ≠ some p ∧ q.scope[i]? = some v ∧ (q.condition i).meets events = true then
      owed ∪ events
    else owed
  | .reacted _ p' _ i' => if p' = p ∧ i' = i then ∅ else owed
  | .propagated _ p' => if p' = p then ∅ else owed
  | _ => owed

/-- The events on a variable of the scope that the propagator asked for, did not cause itself and
was not called for since. -/
def owed (q : Propagator) (p : PropId) (i : Nat) (ns : List Note) : EventSet :=
  ns.foldl (q.owedAfter p i) ∅

variable {q : Propagator} {p p' : PropId} {i : Nat} {ns ns' : List Note} {n : Note}

lemma owed_append : q.owed p i (ns ++ ns') = ns'.foldl (q.owedAfter p i) (q.owed p i ns) :=
  List.foldl_append

lemma owed_snoc : q.owed p i (ns ++ [n]) = q.owedAfter p i (q.owed p i ns) n := owed_append

/-- Other notes change nothing. -/
lemma owed_append_quiet (h : ∀ n ∈ ns', n.Quiet) : q.owed p i (ns ++ ns') = q.owed p i ns := by
  rw [owed_append]
  generalize q.owed p i ns = owed
  induction ns' generalizing owed with
  | nil => rfl
  | cons n ns' ih =>
    have hn : n.Quiet := h n List.mem_cons_self
    have hsame : q.owedAfter p i owed n = owed := by
      cases n with
      | propagated | reacted | raised => exact hn.elim
      | _ => rfl
    rw [List.foldl_cons, hsame]
    exact ih (fun n hn => h n (List.mem_cons_of_mem _ hn)) owed

/-- The notes on events that the propagator caused itself are not for it. -/
lemma owed_append_own (h : ∀ n ∈ ns', ∃ set v, n = .raised (some p) set v) :
    q.owed p i (ns ++ ns') = q.owed p i ns := by
  rw [owed_append]
  generalize q.owed p i ns = owed
  induction ns' generalizing owed with
  | nil => rfl
  | cons n ns' ih =>
    obtain ⟨set, v, rfl⟩ := h n List.mem_cons_self
    have hsame : q.owedAfter p i owed (.raised (some p) set v) = owed := if_neg fun hne => hne.1 rfl
    rw [List.foldl_cons, hsame]
    exact ih (fun n hn => h n (List.mem_cons_of_mem _ hn)) owed

end Propagator

/-! ### The events of a slot -/

namespace Slot

variable {slot : Slot} {i : Nat} {indices : List Nat}

/-- The events that the propagator has to be told of at an index. -/
def events (slot : Slot) (i : Nat) : EventSet := (Assoc.find? i slot.pending).getD ∅

/-- Each index is listed once, and those are listed at which there are events. -/
structure Listed (slot : Slot) : Prop where
  nodup : (Assoc.keys slot.pending).Nodup
  mem_iff : ∀ i, i ∈ Assoc.keys slot.pending ↔ slot.events i ≠ ∅

lemma events_of_nil (h : slot.pending = []) (i : Nat) : slot.events i = ∅ := by
  rw [events, h]
  rfl

lemma listed_of_nil (h : slot.pending = []) : slot.Listed := by
  refine ⟨?_, fun i => ?_⟩
  · rw [h]
    exact List.nodup_nil
  · rw [events_of_nil h, h]
    simp [Assoc.keys]

/-- What is told at some indices. -/
lemma events_tell {set : EventSet} (h : indices.Nodup) : (slot.tell set indices).events i =
    if i ∈ indices then slot.events i ∪ set else slot.events i := by
  change Assoc.heard (indices.foldl _ slot.pending) i =
    if i ∈ indices then Assoc.heard slot.pending i ∪ set else Assoc.heard slot.pending i
  generalize slot.pending = pending
  induction indices generalizing pending with
  | nil => rfl
  | cons k indices ih =>
    obtain ⟨hk, hnodup⟩ := List.nodup_cons.1 h
    rw [List.foldl_cons, ih hnodup, Assoc.heard_join]
    by_cases hi : i = k
    · subst hi
      rw [if_neg hk, if_pos rfl, if_pos List.mem_cons_self]
    · rw [if_neg hi]
      simp only [List.mem_cons, hi, false_or]

lemma nodup_interested (slot : Slot) (v : VarId) (set : EventSet) :
    (slot.interested v set).Nodup := by
  have hsub := (List.filter_sublist (p := fun w => decide (w.1 = v)
    && (slot.propagator.condition w.2).meets set) (l := slot.propagator.scope.zipIdx)).map Prod.snd
  refine hsub.nodup ?_
  rw [List.zipIdx_map_snd]
  exact List.nodup_range'

/-- A set that meets another one is not empty. -/
lemma union_ne_empty {c set set' : EventSet} (h : c.meets set = true) : set' ∪ set ≠ ∅ := by
  obtain ⟨e, -, he⟩ := EventSet.meets_iff.1 h
  intro hempty
  have hmem : e ∈ set' ∪ set := EventSet.mem_union.2 (.inr he)
  rw [hempty] at hmem
  cases e <;> cases hmem

/-- The indices at which there are events stay listed. -/
lemma Listed.tell (h : slot.Listed) (v : VarId) (set : EventSet) :
    (slot.tell set (slot.interested v set)).Listed := by
  refine ⟨?_, fun i => ?_⟩
  · have hnodup := h.nodup
    rw [Slot.tell]
    dsimp only
    generalize slot.pending = pending at hnodup
    generalize slot.interested v set = indices
    induction indices generalizing pending with
    | nil => exact hnodup
    | cons k indices ih => exact ih _ (Assoc.nodup_keys_join hnodup)
  · have hwaits : i ∈ Assoc.keys (slot.tell set (slot.interested v set)).pending ↔
        i ∈ slot.interested v set ∨ i ∈ Assoc.keys slot.pending := waits_tell
    rw [hwaits, events_tell (slot.nodup_interested v set), h.mem_iff]
    split
    · rename_i hi
      have hne : slot.events i ∪ set ≠ ∅ := union_ne_empty (mem_interested.1 hi).2
      exact iff_of_true (.inl hi) hne
    · rename_i hi
      rw [or_iff_right hi]

section Tail

variable {q : Propagator} {set : EventSet} {others : Assoc Nat EventSet}

/-- What is left behind the first index. -/
lemma Listed.events_tail (h : Listed ⟨q, (i, set) :: others⟩) (j : Nat) :
    events ⟨q, others⟩ j = if j = i then ∅ else events ⟨q, (i, set) :: others⟩ j := by
  have hi : i ∉ Assoc.keys others := (List.nodup_cons.1 h.nodup).1
  rw [events, events, Assoc.find?]
  split
  · rename_i hj
    subst hj
    rw [Assoc.find?_of_not_mem_keys hi]
    rfl
  · rename_i hj
    rw [if_neg (Ne.symm hj)]

lemma events_first : events ⟨q, (i, set) :: others⟩ i = set := Assoc.heard_cons_self

/-- No set that is listed is empty. -/
lemma Listed.first_ne_empty (h : Listed ⟨q, (i, set) :: others⟩) : set ≠ ∅ := by
  have hne := (h.mem_iff i).1 List.mem_cons_self
  rwa [events_first] at hne

lemma Listed.tail (h : Listed ⟨q, (i, set) :: others⟩) : Listed ⟨q, others⟩ := by
  obtain ⟨hi, hnodup⟩ := List.nodup_cons.1 h.nodup
  refine ⟨hnodup, fun j => ?_⟩
  rw [h.events_tail]
  split
  · rename_i hj
    subst hj
    exact iff_of_false hi fun hne => hne rfl
  · rename_i hj
    have hmem : j ∈ Assoc.keys ((i, set) :: others) ↔ j = i ∨ j ∈ Assoc.keys others := List.mem_cons
    rw [← h.mem_iff, hmem, or_iff_right hj]

end Tail

end Slot

namespace Engine

variable {e e' : Engine} {p p' : PropId} {q : Propagator} {slot slot' : Slot} {k : Nat}
  {cause : Option PropId} {v : VarId} {set : EventSet}

/-- The notes from the `k`-th on. -/
def recent (e : Engine) (k : Nat) : List Note := e.journal.toList.drop k

/-- The slot of a propagator holds what it is owed by the notes from the `k`-th on. -/
structure Owes (e : Engine) (k : Nat) (p : PropId) (slot : Slot) : Prop where
  listed : slot.Listed
  owed : e.memory.activity p = .active →
    ∀ i, slot.events i = slot.propagator.owed p i (e.recent k)

/-- The slot of a propagator, the agenda and the notes agree.  A propagator that was never called
waits, one that has nothing left to do does not, and any other waits exactly if there is something
to tell it. -/
structure Attends (e : Engine) (k : Nat) (p : PropId) (slot : Slot) : Prop
    extends e.Owes k p slot where
  inactive : e.memory.activity p = .inactive → e.agenda.contains p = true
  passive : e.memory.activity p = .passive → e.agenda.contains p = false
  active : e.memory.activity p = .active → (e.agenda.contains p = true ↔ slot.pending ≠ [])
  untold : e.memory.activity p ≠ .active → slot.pending = []

/-- Nothing that matters changed for the propagator.  What it is owed matters only while it is
active. -/
lemma Attends.congr_of_active (h : e.Attends k p slot)
    (hact : e'.memory.activity p = e.memory.activity p)
    (hcontains : e'.agenda.contains p = e.agenda.contains p)
    (howed : e.memory.activity p = .active → ∀ i,
      slot.propagator.owed p i (e'.recent k) = slot.propagator.owed p i (e.recent k)) :
    e'.Attends k p slot := by
  refine ⟨⟨h.listed, fun ha i => ?_⟩, ?_, ?_, ?_, ?_⟩
  · have ha := hact.symm.trans ha
    exact (h.owed ha i).trans (howed ha i).symm
  · rw [hact, hcontains]
    exact h.inactive
  · rw [hact, hcontains]
    exact h.passive
  · rw [hact, hcontains]
    exact h.active
  · rw [hact]
    exact h.untold

lemma Attends.congr (h : e.Attends k p slot) (hact : e'.memory.activity p = e.memory.activity p)
    (hcontains : e'.agenda.contains p = e.agenda.contains p)
    (howed : ∀ i, slot.propagator.owed p i (e'.recent k) = slot.propagator.owed p i (e.recent k)) :
    e'.Attends k p slot :=
  h.congr_of_active hact hcontains fun _ => howed

/-- An event was put into the slot of the propagator, which waits now. -/
lemma Attends.told (h : e.Attends k p slot) (ha : e.memory.activity p = .active)
    (hact : e'.memory.activity p = e.memory.activity p) (hcontains : e'.agenda.contains p = true)
    (hin : slot.interested v set ≠ [])
    (howed : ∀ i, slot.propagator.owed p i (e'.recent k) =
      if i ∈ slot.interested v set then slot.propagator.owed p i (e.recent k) ∪ set
      else slot.propagator.owed p i (e.recent k)) :
    e'.Attends k p (slot.tell set (slot.interested v set)) := by
  have ha' := hact.trans ha
  refine ⟨⟨h.listed.tell v set, fun _ i => ?_⟩,
    fun hno => Activity.noConfusion (ha'.symm.trans hno),
    fun hno => Activity.noConfusion (ha'.symm.trans hno), fun _ => ?_, fun hno => absurd ha' hno⟩
  · have hpropagator : (slot.tell set (slot.interested v set)).propagator = slot.propagator := rfl
    rw [hpropagator, howed i, Slot.events_tell (slot.nodup_interested v set), h.owed ha i]
  · refine iff_of_true hcontains fun hnil => ?_
    -- the first index that is told is listed
    obtain ⟨i, hi⟩ := List.exists_mem_of_ne_nil _ hin
    have hwaits : i ∈ Assoc.keys (slot.tell set (slot.interested v set)).pending :=
      Slot.waits_tell.2 (.inl hi)
    rw [hnil] at hwaits
    cases hwaits

lemma recent_append {ns : List Note} (hk : k ≤ e.journal.size)
    (h : e'.journal.toList = e.journal.toList ++ ns) : e'.recent k = e.recent k ++ ns := by
  rw [recent, h, List.drop_append_of_le_length (by simpa using hk), recent]

/-! ### One event -/

/-- A propagator is not told of an event that it caused, while it is not active, or if it did not
ask for it. -/
def Skips (e : Engine) (cause : Option PropId) (v : VarId) (set : EventSet) (p : PropId)
    (slot : Slot) : Prop :=
  cause = some p ∨ e.memory.activity p ≠ .active ∨ slot.interested v set = []

/-- Whoever is told something, nothing changes for others. -/
lemma tell_of_ne (cause : Option PropId) (v : VarId) (set : EventSet) (e : Engine) (hne : p' ≠ p) :
    (tell cause v set e p').slots[p.index]? = e.slots[p.index]? ∧
      (tell cause v set e p').agenda.contains p = e.agenda.contains p := by
  cases hslot : e.slots[p'.index]? with
  | none =>
    rw [tell_of_none hslot]
    exact ⟨rfl, rfl⟩
  | some slot =>
    by_cases hskip : e.Skips cause v set p' slot
    · rw [tell_of_skip hslot hskip]
      exact ⟨rfl, rfl⟩
    obtain ⟨hcause, hskip⟩ := not_or.1 hskip
    obtain ⟨hact, hin⟩ := not_or.1 hskip
    rw [tell_of_told hslot hcause (not_not.1 hact) hin]
    refine ⟨Array.getElem?_setIfInBounds_ne (index_ne hne), ?_⟩
    rw [Bool.eq_iff_iff, Agenda.contains_enqueue, or_iff_right hne.symm]

lemma foldl_tell_of_not_mem (cause : Option PropId) (v : VarId) (set : EventSet) (e : Engine)
    {ps : List PropId} (hp : p ∉ ps) :
    (ps.foldl (tell cause v set) e).slots[p.index]? = e.slots[p.index]? ∧
      (ps.foldl (tell cause v set) e).agenda.contains p = e.agenda.contains p := by
  induction ps generalizing e with
  | nil => exact ⟨rfl, rfl⟩
  | cons p' ps ih =>
    obtain ⟨hne, hps⟩ := not_or.1 fun h => hp (List.mem_cons.2 h)
    have hstep := tell_of_ne cause v set e (Ne.symm hne)
    obtain ⟨hslot, hcontains⟩ := ih (tell cause v set e p') hps
    exact ⟨hslot.trans hstep.1, hcontains.trans hstep.2⟩

lemma nodup_propIds (e : Engine) : e.propIds.Nodup :=
  List.nodup_range.map fun i j h => by cases h; rfl

/-- The engine with the note on an event. -/
def noteRaised (e : Engine) (cause : Option PropId) (r : VarId × EventSet) : Engine :=
  (e.note (.raised cause r.2 r.1)).count fun c => { c with domainEvents := c.domainEvents + 1 }

/-- What one event does to the slot of a propagator. -/
lemma notifyOne_spec (cause : Option PropId) (r : VarId × EventSet)
    (hslot : e.slots[p.index]? = some slot) :
    (e.Skips cause r.1 r.2 p slot ∧ (notifyOne cause e r).slots[p.index]? = some slot ∧
      (notifyOne cause e r).agenda.contains p = e.agenda.contains p) ∨
    (¬ e.Skips cause r.1 r.2 p slot ∧
      (notifyOne cause e r).slots[p.index]? = some (slot.tell r.2 (slot.interested r.1 r.2)) ∧
      (notifyOne cause e r).agenda.contains p = true) := by
  have hlt : p.index < e.slots.size := (Array.getElem?_eq_some_iff.1 hslot).1
  obtain ⟨ps, ps', hids⟩ := List.append_of_mem (mem_propIds.2 hlt)
  have hnodup := e.nodup_propIds
  rw [hids] at hnodup
  have hps : p ∉ ps := fun h => List.disjoint_of_nodup_append hnodup h List.mem_cons_self
  have hps' : p ∉ ps' := (List.nodup_cons.1 hnodup.of_append_right).1
  -- the others before and behind do not matter
  let e₁ := ps.foldl (tell cause r.1 r.2) (e.noteRaised cause r)
  have hrun : notifyOne cause e r = ps'.foldl (tell cause r.1 r.2) (tell cause r.1 r.2 e₁ p) := by
    change e.propIds.foldl (tell cause r.1 r.2) (e.noteRaised cause r) = _
    rw [hids, List.foldl_append, List.foldl_cons]
  obtain ⟨hslot₁, hcontains₁⟩ := foldl_tell_of_not_mem cause r.1 r.2 (e.noteRaised cause r) hps
  obtain ⟨hslot₂, hcontains₂⟩ :=
    foldl_tell_of_not_mem cause r.1 r.2 (tell cause r.1 r.2 e₁ p) hps'
  have hget : e₁.slots[p.index]? = some slot := hslot₁.trans hslot
  have hmemory : e₁.memory = e.memory :=
    (alike_foldl (alike_tell cause r.1 r.2) ps (e.noteRaised cause r)).memory
  rw [hrun, hslot₂, hcontains₂]
  by_cases hskip : e.Skips cause r.1 r.2 p slot
  · have hskip₁ : e₁.Skips cause r.1 r.2 p slot := by rwa [Skips, hmemory]
    rw [tell_of_skip hget hskip₁]
    exact .inl ⟨hskip, hget, hcontains₁⟩
  · obtain ⟨hcause, hrest⟩ := not_or.1 hskip
    obtain ⟨hact, hin⟩ := not_or.1 hrest
    have hact : e₁.memory.activity p = .active := hmemory ▸ not_not.1 hact
    rw [tell_of_told hget hcause hact hin]
    refine .inr ⟨hskip, ?_, Agenda.contains_enqueue.2 (.inl rfl)⟩
    exact Array.getElem?_setIfInBounds_self_of_lt (Array.getElem?_eq_some_iff.1 hget).1

/-- The propagators were told of some events, and each slot that agreed before agrees still.
Nothing changed for the propagator that caused them. -/
structure Informs (cause : Option PropId) (e e' : Engine) : Prop where
  journal : ∃ ns : List Note, (∀ n ∈ ns, ∃ set v, n = .raised cause set v) ∧
    e'.journal.toList = e.journal.toList ++ ns
  phase : e'.phase = e.phase
  slot : ∀ (p : PropId) slot, e.slots[p.index]? = some slot →
    ∃ slot', e'.slots[p.index]? = some slot' ∧ slot'.propagator = slot.propagator ∧
      (∀ k, k ≤ e.journal.size → e.Attends k p slot → e'.Attends k p slot') ∧
      (cause = some p → slot' = slot ∧ e'.agenda.contains p = e.agenda.contains p)

lemma Informs.refl (cause : Option PropId) (e : Engine) : Informs cause e e :=
  ⟨⟨[], nofun, (List.append_nil _).symm⟩, rfl,
    fun _ slot hslot => ⟨slot, hslot, rfl, fun _ _ => id, fun _ => ⟨rfl, rfl⟩⟩⟩

lemma size_le_of_journal {ns : List Note} (h : e'.journal.toList = e.journal.toList ++ ns) :
    e.journal.size ≤ e'.journal.size := by
  rw [← Array.length_toList, ← Array.length_toList, h, List.length_append]
  exact Nat.le_add_right _ _

lemma Informs.trans {e'' : Engine} (h : Informs cause e e') (h' : Informs cause e' e'') :
    Informs cause e e'' := by
  obtain ⟨ns, hns, hjournal⟩ := h.journal
  obtain ⟨ns', hns', hjournal'⟩ := h'.journal
  refine ⟨⟨ns ++ ns', ?_, ?_⟩, h'.phase.trans h.phase, fun p slot hslot => ?_⟩
  · exact List.forall_mem_append.2 ⟨hns, hns'⟩
  · rw [hjournal', hjournal, List.append_assoc]
  · obtain ⟨slot₁, hslot₁, hq₁, hattends₁, hown₁⟩ := h.slot p slot hslot
    obtain ⟨slot₂, hslot₂, hq₂, hattends₂, hown₂⟩ := h'.slot p slot₁ hslot₁
    refine ⟨slot₂, hslot₂, hq₂.trans hq₁, fun k hk hattends => ?_, fun hcause => ?_⟩
    · exact hattends₂ k (hk.trans (size_le_of_journal hjournal)) (hattends₁ k hk hattends)
    · exact ⟨(hown₂ hcause).1.trans (hown₁ hcause).1, (hown₂ hcause).2.trans (hown₁ hcause).2⟩

/-- Telling leaves no note, and is not a phase. -/
lemma journal_foldl_tell (cause : Option PropId) (v : VarId) (set : EventSet) (ps : List PropId) :
    (ps.foldl (tell cause v set) e).journal = e.journal ∧
      (ps.foldl (tell cause v set) e).phase = e.phase := by
  induction ps generalizing e with
  | nil => exact ⟨rfl, rfl⟩
  | cons p ps ih =>
    have hstep : (tell cause v set e p).journal = e.journal ∧
        (tell cause v set e p).phase = e.phase := by
      rw [tell]
      split
      · exact ⟨rfl, rfl⟩
      · dsimp only
        split <;> exact ⟨rfl, rfl⟩
    exact ⟨ih.1.trans hstep.1, ih.2.trans hstep.2⟩

lemma journal_notifyOne (cause : Option PropId) (e : Engine) (r : VarId × EventSet) :
    (notifyOne cause e r).journal.toList = e.journal.toList ++ [.raised cause r.2 r.1] := by
  have hjournal := (journal_foldl_tell (e := e.noteRaised cause r) cause r.1 r.2 e.propIds).1
  exact (congrArg Array.toList hjournal).trans Array.toList_push

/-- What one event adds to what a propagator is owed. -/
lemma owed_notifyOne (hk : k ≤ e.journal.size) (r : VarId × EventSet) (i : Nat) :
    slot.propagator.owed p i ((notifyOne cause e r).recent k) =
      if cause ≠ some p ∧ i ∈ slot.interested r.1 r.2 then
        slot.propagator.owed p i (e.recent k) ∪ r.2
      else slot.propagator.owed p i (e.recent k) := by
  rw [recent_append hk (journal_notifyOne cause e r), Propagator.owed_snoc, Propagator.owedAfter]
  simp only [Slot.mem_interested]

/-- One event. -/
lemma informs_notifyOne (cause : Option PropId) (e : Engine) (r : VarId × EventSet) :
    Informs cause e (notifyOne cause e r) := by
  have hphase := (journal_foldl_tell (e := e.noteRaised cause r) cause r.1 r.2 e.propIds).2
  refine ⟨⟨_, ?_, journal_notifyOne cause e r⟩, hphase, fun p slot hslot => ?_⟩
  · intro n hn
    exact ⟨_, _, List.mem_singleton.1 hn⟩
  have hact : (notifyOne cause e r).memory.activity p = e.memory.activity p := by
    rw [(hears_notifyOne cause e r).1.alike.memory]
  rcases notifyOne_spec cause r hslot with
    ⟨hskip, hslot', hcontains⟩ | ⟨hskip, hslot', hcontains⟩
  · refine ⟨slot, hslot', rfl, fun k hk h => ?_, fun _ => ⟨rfl, hcontains⟩⟩
    refine h.congr_of_active hact hcontains fun ha i => ?_
    rw [owed_notifyOne hk, if_neg]
    rintro ⟨hcause, hi⟩
    rcases hskip with hskip | hskip | hskip
    · exact hcause hskip
    · exact hskip ha
    · rw [hskip] at hi
      cases hi
  · obtain ⟨hcause, hrest⟩ := not_or.1 hskip
    obtain ⟨ha, hin⟩ := not_or.1 hrest
    refine ⟨_, hslot', rfl, fun k hk h => ?_, fun hown => absurd hown hcause⟩
    refine h.told (not_not.1 ha) hact hcontains hin fun i => ?_
    rw [owed_notifyOne hk]
    simp only [ne_eq, hcause, not_false_eq_true, true_and]

/-- All events of a store. -/
lemma informs_notify (cause : Option PropId) (e : Engine) :
    Informs cause e.clearRaised (e.notify cause) := by
  rw [notify]
  generalize e.clearRaised = e₁
  induction e.store.raised generalizing e₁ with
  | nil => exact .refl cause e₁
  | cons r raised ih => exact (informs_notifyOne cause e₁ r).trans (ih (notifyOne cause e₁ r))

end Engine

end FiniteDomain
