import Mathlib.Tactic
import FiniteDomain.Proofs.Engine.Moves
import FiniteDomain.Proofs.Engine.Schedule

/-!
Fixpoints.

The agenda is in order along every run, whatever was done and undone: a propagator that is
not on it was told all that it asked for.  So when the agenda is empty, no propagator has
anything to do, and this was so at every checkpoint.

* `Calm`: no propagator has anything to do;
* `Engine.Scheduled`: the agenda is in order, now and after going back, with
  `Engine.Scheduled.atRest`;
* `Engine.scheduled_propagate`: propagation ends with an empty agenda, or with an
  inconsistency;
* `Engine.Decides`, `Engine.ends_decide`: what a decision does;
* `Engine.exists_goBack_eq`: going back changes the agenda last, and nothing else with it;
* `Engine.Move.scheduled`, `Engine.Decides.scheduled`, `Engine.Scheduled.marked`,
  `Engine.Scheduled.goBack`: the agenda stays in order, whatever calls of the engine do.
-/

namespace FiniteDomain

/-- No propagator has anything to do. -/
def Calm (qs : List Propagator) (s : Space) : Prop :=
  ∀ (i : Nat) q, qs[i]? = some q → q.Stands ⟨i⟩ s fun _ => False

/-- The space back at a level. -/
def Space.restore (s : Space) (level : Nat) : Space :=
  { s with store := s.store.restore level, memory := s.memory.restore level }

section Calm

variable {qs : List Propagator} {q : Propagator} {s t : Space}

/-- The answers of the memory and the domains of the scopes are the same. -/
lemma Calm.congr (h : Calm qs s) (w : s.memory.WellFormed) (w' : t.memory.WellFormed)
    (hm : s.memory.Agrees t.memory)
    (hroot : ∀ q ∈ qs, ¬ q.IsObserver → ∀ v ∈ q.scope, t.store.root v = s.store.root v)
    (hdom : ∀ q ∈ qs, ¬ q.IsObserver → ∀ v ∈ q.scope, t.store.domain v = s.store.domain v) :
    Calm qs t := by
  intro i q hq
  by_cases hobs : q.IsObserver
  · exact Propagator.stands_of_isObserver hobs
  have hmem := List.mem_of_getElem? hq
  exact (h i q hq).congr w w' (hm.activity _) (fun j _ k => hm.contains j k)
    (hroot q hmem hobs) (hdom q hmem hobs)

/-- Nothing is expected of a new propagator, which is inactive. -/
lemma Calm.append (h : Calm qs s) (hsize : s.memory.activities.size = qs.length) :
    Calm (qs ++ [q]) s := by
  intro i q' hq'
  rcases Nat.lt_or_ge i qs.length with hi | hi
  · rw [List.getElem?_append_left hi] at hq'
    exact h i q' hq'
  · refine Propagator.stands_of_inactive (Memory.activity_of_size_le ?_)
    rw [hsize]
    exact hi

end Calm

namespace Engine

variable {e e' : Engine} {v : VarId} {d : Decision}

/-- The agenda is in order, now and after going back. -/
structure Scheduled (e : Engine) : Prop where
  orderly : e.Orderly
  alert : e.conflict = none → e.Alert
  calm : ∀ level, level < e.level → Calm e.propagators (e.space.restore level)

lemma scheduled_empty (strategy : Strategy) : Scheduled { strategy := strategy } where
  orderly := ⟨Agenda.bounded_empty _, rfl, Store.followed_empty, fun q hq => by
    simp [propagators] at hq⟩
  alert _ i slot hslot := by simp at hslot
  calm level hl := absurd hl (Nat.not_lt_zero level)

/-- When the agenda is empty, no propagator has anything to do, and all were called. -/
lemma Alert.calm (h : e.Alert) (hempty : e.agenda.isEmpty = true) :
    Calm e.propagators e.space ∧
      ∀ (i : Nat) q, e.propagators[i]? = some q → e.memory.activity ⟨i⟩ ≠ .inactive := by
  have hno : ∀ p, ¬ e.agenda.contains p = true := fun _ => Agenda.not_contains_of_isEmpty hempty
  constructor
  · intro i q hq
    obtain ⟨slot, hslot, rfl⟩ := slot_of_propagator (p := ⟨i⟩) hq
    have hmind := h i slot hslot
    refine hmind.stands.mono fun k hk => hno _ (hmind.pending ?_)
    rintro hnil
    rw [Slot.Waits, hnil] at hk
    cases hk
  · intro i q hq hact
    obtain ⟨slot, hslot, -⟩ := slot_of_propagator (p := ⟨i⟩) hq
    exact hno _ ((h i slot hslot).inactive hact)

/-- An engine in which no propagator has anything to do, after all were called. -/
structure AtRest (e : Engine) : Prop where
  invariant : e.Invariant
  idle : e.conflict = none
  proper : ∀ q ∈ e.propagators, q.Proper
  calm : Calm e.propagators e.space
  called : ∀ (i : Nat) q, e.propagators[i]? = some q → e.memory.activity ⟨i⟩ ≠ .inactive

lemma Scheduled.atRest (h : e.Scheduled) (inv : e.Invariant) (hnone : e.conflict = none)
    (hempty : e.agenda.isEmpty = true) : e.AtRest :=
  ⟨inv, hnone, h.orderly.proper, ((h.alert hnone).calm hempty).1, ((h.alert hnone).calm hempty).2⟩

section AtRest

variable {p : PropId} {q : Propagator}

/-- No request with grounds narrows anything, if no initial domain has the greatest of all
values. -/
lemma AtRest.closed (h : e.AtRest) (hq : e.propagators[p.index]? = some q)
    (hindep : q.Independent e.store)
    (hbelow : ∀ v, e.store.has v = true → ∀ x, x ∈ e.store.domain v → x < Value.greatest) :
    Grounds.Closed q.Justified e.store.domain := by
  have hc := h.invariant.consistent
  have hmem := List.mem_of_getElem? hq
  have hfits := hc.fits q hmem
  by_cases hobs : q.IsObserver
  · obtain ⟨o, rfl⟩ := hobs
    exact fun _ _ hJ => hJ.elim
  exact (h.calm p.index q hq).closed (h.called p.index q hq) (fun _ => id) hc.wellFormed hfits
    ((h.invariant.ready h.idle).tracked p.index q hq) (h.proper q hmem) hindep
    fun v hv => hbelow v (hfits.has hobs v hv)

end AtRest

/-! ### Propagation -/

/-- What propagation leaves: no propagator waits, or the engine failed. -/
structure Settles (e : Engine) (r : Except Inconsistency Unit) (e' : Engine) : Prop where
  scheduled : e'.Scheduled
  drives : Drives e e'
  propagators : e'.propagators = e.propagators
  quiet : r = .ok () → e.conflict = none ∧ e'.conflict = none ∧ e'.agenda.isEmpty = true
  failed : ∀ i, r = .error i → e'.conflict = some i

lemma Drives.level (h : Drives e e') : e'.level = e.level := h.store.shrinks.level

/-- What lies below the checkpoints is not touched by propagators. -/
lemma Scheduled.of_drives (h : e.Scheduled) (hd : Drives e e') (ho : e'.Orderly)
    (ha : e'.conflict = none → e'.Alert) (hq : e'.propagators = e.propagators)
    (hc : e.space.Consistent e.propagators) (wm : e'.memory.WellFormed) : e'.Scheduled where
  orderly := ho
  alert := ha
  calm level hl := by
    have hl : level < e.level := hd.level ▸ hl
    have hstore : (e'.space.restore level).store = (e.space.restore level).store :=
      hd.store.restore hl
    rw [hq]
    refine (h.calm level hl).congr hc.memory.restore wm.restore
      (hd.memory.restore level (hc.level ▸ hl)) (fun _ _ _ v _ => ?_) fun _ _ _ v _ => ?_
    · rw [hstore]
    · rw [hstore]

lemma Scheduled.withPhase (h : e.Scheduled) (phase : Phase) :
    Scheduled { e with phase := phase } :=
  ⟨⟨h.orderly.agenda, h.orderly.raised, h.orderly.followed, h.orderly.proper⟩,
    fun hnone i slot hslot => ⟨(h.alert hnone i slot hslot).inactive,
      (h.alert hnone i slot hslot).pending, (h.alert hnone i slot hslot).stands⟩, h.calm⟩

/-- Propagation comes to an end. -/
lemma scheduled_propagate (inv : e.Invariant) (h : e.Scheduled) :
    Ends Engine.propagate e (Settles e) fun _ _ => False := by
  rw [Engine.propagate]
  refine ends_bind_get ?_
  have hstay := Drives.refl inv.consistent.store h.orderly.followed
  split
  · rename_i i hi
    refine ends_pure ⟨h, hstay, rfl, fun hr => ?_, fun j hj => ?_⟩
    · cases hr
    · cases hj
      exact hi
  rename_i hnone
  have w : Working e := ⟨inv.consistent, inv.ready hnone⟩
  have hload : e.load < e.rounds := by
    have := h.orderly.agenda.length_le
    have hrounds : e.rounds = e.slots.size * (e.store.volume + 1) + 1 := rfl
    rw [load, hrounds, Nat.mul_succ]
    omega
  have hsettles := drain_settles w h.orderly (h.alert hnone) hload
  have hspec := drain_spec e.rounds w hnone
  split
  · rename_i hrun
    obtain ⟨ho, ha, hempty, hd⟩ := Ends.of_ok hrun hsettles
    obtain ⟨w', hgoes⟩ := Ends.of_ok hrun hspec
    have hscheduled := h.of_drives hd ho (fun _ => ha) hgoes.propagators inv.consistent
      w'.consistent.memory
    refine ends_bind_set (ends_pure ⟨hscheduled.withPhase .idle,
      ⟨hd.store, hd.memory, hd.size, hd.followed⟩, hgoes.propagators,
      fun _ => ⟨hnone, hgoes.conflict.trans hnone, hempty⟩, fun i hi => ?_⟩)
    cases hi
  · rename_i i e' hrun
    obtain ⟨⟨j, hj, hconflict⟩, ho, hd⟩ := Ends.of_error hrun hsettles
    obtain ⟨inv', hfollows⟩ := Ends.of_error hrun hspec
    have hscheduled := h.of_drives hd ho (fun hnone => by rw [hconflict] at hnone; cases hnone)
      hfollows.propagators inv.consistent inv'.consistent.memory
    refine ends_bind_set (ends_pure ⟨hscheduled, hd, hfollows.propagators, fun hr => ?_,
      fun k hk => ?_⟩)
    · cases hr
    · cases hj
      cases hk
      exact hconflict
  · rename_i hrun
    obtain ⟨⟨j, hj, -⟩, -⟩ := Ends.of_error hrun hsettles
    cases hj

/-! ### Moves -/

/-- A constraint that is accepted makes sense. -/
lemma proper_of_propagator {c : Constraint} {m m' : Memory} {q : Propagator}
    (h : c.propagator m = .ok (q, m')) (hscope : q.scope ≠ []) : q.Proper := by
  cases c with
  | count c =>
    cases h
    trivial
  | maximum c =>
    rw [Constraint.propagator] at h
    split at h
    · cases h
    · rename_i hne
      cases h
      exact fun hnil => hne (List.isEmpty_iff.2 hnil)
  | member c =>
    cases h
    trivial
  | disjunction ls =>
    cases h
    refine ⟨fun hnil => hscope ?_, Clause.distinct_nil.addAll ls⟩
    exact List.map_eq_nil_iff.2 hnil
  | observer o =>
    rw [Constraint.propagator] at h
    split at h
    · cases h
    · cases h
      trivial

/-- New variables are in no scope. -/
lemma Scheduled.extend (h : e.Scheduled) (hc : e.space.Consistent e.propagators) {t : Store}
    (wt : t.WellFormed) (hext : e.store.Extends t) (htrail : t.trail = e.store.trail)
    (hraised : t.raised = e.store.raised) (hf : t.Followed) :
    Scheduled { e with space := { e.space with store := t } } := by
  have hhas : ∀ q ∈ e.propagators, ¬ q.IsObserver → ∀ v ∈ q.scope, e.store.has v = true :=
    fun q hq hobs => (hc.fits q hq).has hobs
  refine ⟨⟨h.orderly.agenda, hraised.trans h.orderly.raised, hf, h.orderly.proper⟩,
    fun hnone i slot hslot => ?_, fun level hl => ?_⟩
  · have hmind := h.alert hnone i slot hslot
    refine ⟨hmind.inactive, hmind.pending, ?_⟩
    by_cases hobs : slot.propagator.IsObserver
    · exact Propagator.stands_of_isObserver hobs
    have hscope := hhas _ (List.mem_of_getElem? (propagator_of_slot hslot)) hobs
    exact hmind.stands.congr hc.memory hc.memory rfl (fun _ _ _ => rfl)
      (fun v hv => hext.root (hscope v hv)) fun v hv => hext.domain hc.store (hscope v hv)
  · change level < t.trail.level at hl
    rw [htrail] at hl
    refine (h.calm level hl).congr hc.memory.restore hc.memory.restore (.refl _)
      (fun q hq hobs v hv => ?_) fun q hq hobs v hv => ?_
    · change (t.restore level).root v = (e.store.restore level).root v
      rw [(Store.maps_restore t level).root, (Store.maps_restore e.store level).root,
        hext.root (hhas q hq hobs v hv)]
    · change (t.restore level).domain v = (e.store.restore level).domain v
      rw [Store.domain_restore wt, Store.domain_restore (s := e.store) hc.store, htrail]
      exact hext.domainAt hc.store (hhas q hq hobs v hv)

/-- A new propagator waits. -/
lemma Scheduled.accept (h : e.Scheduled) (hc : e.space.Consistent e.propagators)
    {q : Propagator} {m : Memory} (hm : e.memory.Grows m) (hproper : q.Proper) :
    (e.accept q m).Scheduled := by
  have hgrows := hm.trans (Memory.grows_addActivity hm.wellFormed)
  have hpropagators : (e.accept q m).propagators = e.propagators ++ [q] := by
    simp [propagators, Engine.accept]
  have hsize : (e.accept q m).slots.size = e.slots.size + 1 := Array.size_push _
  have hinactive : (e.accept q m).memory.activity ⟨e.slots.size⟩ = .inactive := by
    refine (hgrows.agrees.activity _).trans (Memory.activity_of_size_le ?_)
    rw [← length_propagators, ← hc.size]
    exact le_rfl
  refine ⟨⟨?_, h.orderly.raised, h.orderly.followed.congr rfl, fun q' hq' => ?_⟩,
    fun hnone i slot hslot => ?_, fun level hl => ?_⟩
  · rw [hsize]
    exact (h.orderly.agenda.mono (Nat.le_succ _)).enqueue (Nat.lt_succ_self _) _
  · rw [hpropagators, List.mem_append, List.mem_singleton] at hq'
    rcases hq' with hq' | rfl
    · exact h.orderly.proper q' hq'
    · exact hproper
  · have hcontains : ∀ p, (e.accept q m).agenda.contains p = true ↔
        p = ⟨e.slots.size⟩ ∨ e.agenda.contains p = true := fun p => Agenda.contains_enqueue
    change (e.slots.push { propagator := q })[i]? = some slot at hslot
    rw [Array.getElem?_push] at hslot
    split at hslot
    · rename_i hi
      subst hi
      cases hslot
      exact ⟨fun _ => (hcontains _).2 (.inl rfl), fun hpending => absurd rfl hpending,
        Propagator.stands_of_inactive hinactive⟩
    · have hmind := h.alert hnone i slot hslot
      refine ⟨fun hact => (hcontains _).2 (.inr (hmind.inactive ?_)),
        fun hpending => (hcontains _).2 (.inr (hmind.pending hpending)), ?_⟩
      · exact (hgrows.agrees.activity _).symm.trans hact
      · exact hmind.stands.congr hc.memory hgrows.wellFormed (hgrows.agrees.activity _)
          (fun j _ k => hgrows.agrees.contains j k) (fun _ _ => rfl) fun _ _ => rfl
  · have hsize : (e.memory.restore level).activities.size = e.propagators.length :=
      (Memory.size_restore e.memory level).1.trans hc.size
    rw [hpropagators]
    exact ((h.calm level hl).append hsize).congr hc.memory.restore hgrows.wellFormed.restore
      (hgrows.restore level) (fun _ _ _ _ _ => rfl) fun _ _ _ _ _ => rfl

/-- Moves keep the agenda in order. -/
lemma Move.scheduled (hmove : Move e e') (inv : e.Invariant) (h : e.Scheduled) :
    e'.Scheduled := by
  have hc := inv.consistent
  cases hmove with
  | account ha =>
    obtain ⟨_, _, _, _, _, rfl⟩ := ha.exists_eq
    exact ⟨⟨h.orderly.agenda, h.orderly.raised, h.orderly.followed, h.orderly.proper⟩,
      fun hnone i slot hslot => ⟨(h.alert hnone i slot hslot).inactive,
        (h.alert hnone i slot hslot).pending, (h.alert hnone i slot hslot).stands⟩, h.calm⟩
  | newRoot hd hr =>
    exact h.extend hc (hc.store.addRoot hd hr) (Store.extends_addRoot _ _) rfl rfl
      (h.orderly.followed.addRoot hc.store _)
  | newView hb hneg =>
    exact h.extend hc (hc.store.addView hb hneg) (Store.extends_addView _ _) rfl rfl
      (h.orderly.followed.addView hc.store hb)
  | accept _ _ hmade hscope _ =>
    exact h.accept hc (Constraint.makes_propagator hc.memory hmade).grows
      (proper_of_propagator hmade hscope)
  | propagate hrun =>
    have hends := scheduled_propagate inv h
    rcases hrun with ⟨r, hrun⟩ | ⟨x, hrun⟩
    · exact (Ends.of_ok hrun hends).scheduled
    · exact (Ends.of_error hrun hends).elim

/-- What every move of an engine in order keeps, moves keep. -/
lemma Moves.keep {P : Engine → Prop} (hmoves : Moves e e') (inv : e.Invariant) (h : e.Scheduled)
    (hstep : ∀ e e', Move e e' → e.Invariant → e.Scheduled → P e → P e') (he : P e) : P e' := by
  refine (hmoves.induct (P := fun e => e.Invariant ∧ e.Scheduled ∧ P e) ?_ ⟨inv, h, he⟩).2.2
  rintro e₁ e₂ hmove ⟨inv₁, h₁, he₁⟩
  exact ⟨hmove.invariant inv₁, hmove.scheduled inv₁ h₁, hstep e₁ e₂ hmove inv₁ h₁ he₁⟩

lemma Moves.scheduled (hmoves : Moves e e') (inv : e.Invariant) (h : e.Scheduled) :
    e'.Scheduled :=
  hmoves.keep inv h (fun _ _ hmove inv h _ => hmove.scheduled inv h) h

/-! ### Decisions -/

/-- What a decision does: it is granted and all propagators are told, or the engine fails. -/
inductive Decides (v : VarId) (d : Decision) (e : Engine) :
    Except Inconsistency Bool → Engine → Prop
  | granted {b : Bool} {t : Store} (hn : Store.Narrowing (d.Grounds v) none e.store t)
    (hleaves : d.Leaves v e.store t) :
    Decides v d e (.ok b) (told e none { e.space with store := t })
  | refused {i : Inconsistency} {t : Store} (hr : Store.Refused (d.Grounds v) none e.store t)
    (hno : ∀ x, x ∈ e.store.domain v → ¬ d.Holds x) :
    Decides v d e (.error i) ((e.withSpace { e.space with store := t }).fail i)

lemma ends_decide (w : e.store.WellFormed) (v : VarId) (d : Decision) :
    Ends (Engine.decide v d) e
      (fun r e' => e.conflict = none ∧ e.store.has v = true ∧ Decides v d e r e')
      fun _ e' => e' = e := by
  rw [Engine.decide]
  refine ends_bind_get (ends_bind_require rfl fun hidle => ?_)
  refine ends_bind_requireVariable rfl fun hv => ends_bind_get ?_
  have hnone : e.conflict = none := by simpa [isFailed] using hidle
  have hchange := Decision.ends_change w hv d
  split
  · rename_i changed t hrun
    obtain ⟨hn, hleaves⟩ := Ends.of_ok hrun hchange
    exact ends_bind_set (ends_pure ⟨hnone, hv, .granted hn hleaves⟩)
  · rename_i i t hrun
    obtain ⟨hr, hno⟩ := Ends.of_error hrun hchange
    exact ends_bind_set (ends_pure ⟨hnone, hv, .refused hr hno⟩)

/-- The propagators are told of a decision as of any other update. -/
lemma Decides.scheduled {r : Except Inconsistency Bool} (h : Decides v d e r e')
    (inv : e.Invariant) (hs : e.Scheduled) (hnone : e.conflict = none) : e'.Scheduled := by
  have hc := inv.consistent
  -- below the checkpoints, nothing is different
  have hcalm : ∀ {t : Store}, e.store.Shrinks { t with failure := e.store.failure } →
      e'.store.vars = t.vars → e'.store.trail = t.trail → e'.memory = e.memory →
      e'.propagators = e.propagators →
      ∀ level, level < e'.level → Calm e'.propagators (e'.space.restore level) := by
    intro t hsh hvars htrail hmemory hq level hl
    have hlevel : e'.level = e.level := (congrArg Trail.level htrail).trans hsh.level
    rw [hlevel] at hl
    have hstore : (e'.space.restore level).store = (e.space.restore level).store := by
      exact (Store.restore_congr hvars htrail level).trans (hsh.restore level hl)
    have hspace : (e'.space.restore level).memory = (e.space.restore level).memory :=
      congrArg (Memory.restore · level) hmemory
    rw [hq]
    refine (hs.calm level hl).congr hc.memory.restore (hspace ▸ hc.memory.restore) ?_
      (fun _ _ _ v _ => by rw [hstore]) fun _ _ _ v _ => by rw [hstore]
    rw [hspace]
    exact .refl _
  cases h with
  | @granted b t hn hleaves =>
    have halike := alike_told e none { e.space with store := t }
    refine ⟨orderly_told hs.orderly (hn.followed hs.orderly.followed), fun _ i slot hslot => ?_,
      hcalm ((hn.shrinks hc.store).congr rfl rfl rfl rfl rfl) halike.vars halike.trail
        halike.memory halike.propagators⟩
    have hcause : (none : Option PropId) ≠ some ⟨i⟩ := by simp
    exact minds_told (t := { e.space with store := t }) hc hs.orderly hn hc.memory hcause hslot
      (fun slot => hs.alert hnone i slot) rfl fun _ _ _ _ _ => rfl
  | @refused i t hr hno =>
    have hq : ((e.withSpace { e.space with store := t }).fail i).propagators = e.propagators :=
      propagators_clearPending _
    have horderly : ((e.withSpace { e.space with store := t }).fail i).Orderly :=
      .fail (e := e.withSpace { e.space with store := t }) hs.orderly.agenda.wellFormed
        (hr.followed hs.orderly.followed) hs.orderly.proper i
    obtain ⟨hn, -, -, -⟩ := hr
    refine ⟨horderly, ?_,
      hcalm ((hn.shrinks hc.store).congr rfl rfl rfl rfl rfl) rfl rfl rfl hq⟩
    intro h
    cases h

/-! ### Checkpoints -/

/-- The engine with one more checkpoint. -/
def marked (e : Engine) : Engine :=
  { e with space := { e.space with store := e.store.mark, memory := e.memory.mark } }

/-- What a checkpoint does, which is taken when no propagator waits. -/
lemma ends_checkpoint : Ends checkpoint e
    (fun n e' => n = e.level ∧ e.conflict = none ∧ e.agenda.isEmpty = true ∧ e' = e.marked)
    fun _ e' => e' = e := by
  rw [checkpoint]
  refine ends_bind_get (ends_bind_require rfl fun hidle => ?_)
  refine ends_bind_get (ends_bind_require rfl fun hempty => ends_bind_get ?_)
  exact ends_bind_set (ends_pure ⟨rfl, by simpa [isFailed] using hidle, hempty, rfl⟩)

lemma level_marked (e : Engine) : e.marked.level = e.level + 1 := Trail.level_mark _

/-- Below a new checkpoint lies what lay below before, and what is there now. -/
lemma restore_marked (hc : e.space.Consistent e.propagators) {level : Nat} (hl : level ≤ e.level) :
    e.marked.space.restore level = e.space.restore level := by
  have hstore : e.store.mark.restore level = e.store.restore level := Store.restore_mark hl
  have hmemory : e.memory.mark.restore level = e.memory.restore level :=
    Memory.restore_mark (hc.level ▸ hl)
  simp only [Space.restore, marked, hstore, hmemory]
  rfl

/-- Going back to the current level changes no domain. -/
lemma domain_restore_level (w : e.store.WellFormed) :
    (e.store.restore e.level).domain = e.store.domain := by
  have hextent : e.store.trail.extent e.level = e.store.length := Trail.extent_level _
  rw [Store.domain_restore w, hextent]
  exact w.domain_eq.symm

/-- A checkpoint is taken where no propagator has anything to do. -/
lemma Scheduled.marked (hc : e.space.Consistent e.propagators) (h : e.Scheduled)
    (hnone : e.conflict = none) (hempty : e.agenda.isEmpty = true) : e.marked.Scheduled := by
  refine ⟨⟨h.orderly.agenda, h.orderly.raised, h.orderly.followed.congr rfl, h.orderly.proper⟩,
    fun _ i slot hslot => ?_, fun level hl => ?_⟩
  · have hmind := h.alert hnone i slot hslot
    refine ⟨hmind.inactive, hmind.pending, ?_⟩
    exact hmind.stands.congr hc.memory hc.memory.mark rfl (fun _ _ _ => rfl) (fun _ _ => rfl)
      fun _ _ => rfl
  · rw [level_marked] at hl
    have hle : level ≤ e.level := Nat.le_of_lt_succ hl
    rw [restore_marked hc hle]
    rcases Nat.lt_or_eq_of_le hle with hlt | rfl
    · exact h.calm level hlt
    · have hcalm := ((h.alert hnone).calm hempty).1
      have hmemory : (e.space.restore e.level).memory = e.memory := by
        have hlevel : e.level = e.memory.trail.level := hc.level.symm
        rw [hlevel]
        exact Memory.restore_level
      refine hcalm.congr hc.memory hc.memory.restore ?_ (fun _ _ _ v _ => ?_) fun _ _ _ v _ => ?_
      · rw [hmemory]
        exact .refl _
      · exact (Store.maps_restore e.store e.level).root v
      · exact congrFun (domain_restore_level hc.store) v

/-! ### Going back -/

/-- A propagator is put on the agenda if it exists and has not been called. -/
lemma contains_requeue {p p' : PropId} : (e.requeue p').agenda.contains p = true ↔
    e.agenda.contains p = true ∨
      p = p' ∧ p.index < e.slots.size ∧ e.memory.activity p = .inactive := by
  rw [requeue]
  cases hq : e.propagator? p' with
  | none =>
    rw [propagator?, Option.map_eq_none_iff, Array.getElem?_eq_none_iff] at hq
    refine ⟨.inl, fun h => h.resolve_right ?_⟩
    rintro ⟨rfl, hlt, -⟩
    exact absurd hlt (Nat.not_lt.2 hq)
  | some q =>
    obtain ⟨slot, hslot, -⟩ := Option.map_eq_some_iff.1 hq
    have hlt := (Array.getElem?_eq_some_iff.1 hslot).1
    dsimp only
    split
    · rename_i hact
      refine Agenda.contains_enqueue.trans ⟨fun h => h.symm.imp_right ?_, fun h => ?_⟩
      · rintro rfl
        exact ⟨rfl, hlt, hact⟩
      · exact h.symm.imp_left And.left
    · rename_i hact
      refine ⟨.inl, fun h => h.resolve_right ?_⟩
      rintro ⟨rfl, -, hinactive⟩
      exact hact hinactive

lemma hears_requeue (e : Engine) (p : PropId) : Hears none e (e.requeue p) := by
  have hcontains : ∀ p', e.agenda.contains p' = true → (e.requeue p).agenda.contains p' = true :=
    fun p' hp' => contains_requeue.2 (.inl hp')
  rw [requeue] at hcontains ⊢
  cases hq : e.propagator? p with
  | none => exact .refl none e
  | some q =>
    obtain ⟨slot, hslot, -⟩ := Option.map_eq_some_iff.1 hq
    have hlt := (Array.getElem?_eq_some_iff.1 hslot).1
    rw [hq] at hcontains
    dsimp only at hcontains ⊢
    split
    · rename_i hact
      rw [if_pos hact] at hcontains
      exact ⟨⟨rfl, rfl, rfl, rfl, rfl, rfl, rfl⟩, rfl, rfl, fun hb => hb.enqueue hlt _, hcontains,
        fun i slot hslot => ⟨slot, hslot, rfl, fun _ => id, .inl rfl⟩⟩
    · exact .refl none e

/-- Asking whether a propagator has to wait changes nothing but the agenda. -/
lemma exists_requeue_eq (e : Engine) (p : PropId) :
    ∃ a, e.requeue p = { e with agenda := a } := by
  rw [requeue]
  split
  · split
    · exact ⟨_, rfl⟩
    · exact ⟨e.agenda, rfl⟩
  · exact ⟨e.agenda, rfl⟩

lemma contains_foldl_requeue {p : PropId} {ps : List PropId} :
    (ps.foldl requeue e).agenda.contains p = true ↔
      e.agenda.contains p = true ∨
        p ∈ ps ∧ p.index < e.slots.size ∧ e.memory.activity p = .inactive := by
  induction ps generalizing e with
  | nil => simp
  | cons p' ps ih =>
    have hears := hears_requeue e p'
    have hmemory : (e.requeue p').memory = e.memory := hears.alike.memory
    rw [List.foldl_cons, ih, contains_requeue, hears.size, hmemory, List.mem_cons]
    tauto

lemma hears_goBack (e : Engine) (level : Nat) : Hears none (e.rewound level) (e.goBack level) :=
  (hears_foldl (T := fun _ _ => True) (fun e p => ⟨hears_requeue e p, trivial⟩)
    (fun _ _ _ _ _ => trivial) _ _).1

lemma store_goBack (e : Engine) (level : Nat) : (e.goBack level).store = e.store.restore level :=
  have halike := alike_goBack e level
  Store.eq_of_parts halike.vars halike.trail halike.failure (hears_goBack e level).raised

lemma memory_goBack (e : Engine) (level : Nat) :
    (e.goBack level).memory = e.memory.restore level := (alike_goBack e level).memory

/-- Finding out who has to wait changes nothing but the agenda. -/
lemma exists_goBack_eq (e : Engine) (level : Nat) :
    ∃ a, e.goBack level = { e.rewound level with agenda := a } := by
  refine List.foldlRecOn (motive := fun e' => ∃ a, e' = { e.rewound level with agenda := a })
    _ _ ⟨(e.rewound level).agenda, rfl⟩ fun e' he p _ => ?_
  obtain ⟨_, rfl⟩ := he
  exact exists_requeue_eq _ p

/-- Going back touches no slot but for what is pending. -/
lemma slots_goBack (e : Engine) (level : Nat) : (e.goBack level).slots = e.clearPending.slots := by
  obtain ⟨a, ha⟩ := exists_goBack_eq e level
  rw [ha]
  rfl

lemma phase_goBack (e : Engine) (level : Nat) : (e.goBack level).phase = .idle := by
  obtain ⟨a, ha⟩ := exists_goBack_eq e level
  rw [ha]
  rfl

/-- Going back leaves no note. -/
lemma journal_goBack (e : Engine) (level : Nat) : (e.goBack level).journal = e.journal := by
  obtain ⟨a, ha⟩ := exists_goBack_eq e level
  rw [ha]
  rfl

lemma size_goBack (e : Engine) (level : Nat) : (e.goBack level).slots.size = e.slots.size := by
  simp [slots_goBack, clearPending]

/-- After going back, exactly those propagators wait that had not been called at the level. -/
lemma contains_goBack {level : Nat} {p : PropId} : (e.goBack level).agenda.contains p = true ↔
    p.index < e.slots.size ∧ (e.memory.restore level).activity p = .inactive := by
  have hsize : (e.rewound level).slots.size = e.slots.size := by simp [rewound, clearPending]
  have hmemory : (e.rewound level).memory = e.memory.restore level := rfl
  have hnone : ¬ (e.rewound level).agenda.contains p = true :=
    Agenda.not_contains_of_isEmpty Agenda.isEmpty_clear
  have hfold : e.goBack level = (e.rewound level).propIds.foldl requeue (e.rewound level) := rfl
  rw [hfold, contains_foldl_requeue, mem_propIds, hsize, hmemory, or_iff_right hnone,
    and_self_left]

lemma level_goBack_eq_min {level : Nat} : (e.goBack level).level = min level e.level :=
  (congrArg Trail.level (alike_goBack e level).trail).trans Trail.level_cut_eq_min

lemma level_goBack {level : Nat} (hl : level < e.level) : (e.goBack level).level = level :=
  level_goBack_eq_min.trans (Nat.min_eq_left hl.le)

/-- Propagators that were not called when the checkpoint was taken wait again. -/
lemma Scheduled.goBack (inv : e.Invariant) (h : e.Scheduled) {level : Nat} (hl : level < e.level) :
    (e.goBack level).Scheduled := by
  have hc := inv.consistent
  have hspace : (e.rewound level).space = e.space.restore level := rfl
  have halike := alike_goBack e level
  have hpropagators := halike.propagators.trans (propagators_rewound e level)
  have hears := hears_goBack e level
  refine ⟨⟨?_, hears.raised, (h.orderly.followed.restore level).congr halike.vars, ?_⟩,
    fun _ i slot' hslot' => ⟨fun hact => ?_, fun hpending => ?_, ?_⟩, fun level' hl' => ?_⟩
  · rw [hears.size]
    exact hears.bounded (h.orderly.agenda.wellFormed.bounded_clear _)
  · rw [hpropagators]
    exact h.orderly.proper
  · have hlt := (Array.getElem?_eq_some_iff.1 hslot').1
    have hlt : i < e.slots.size := by
      have hsize : (e.goBack level).slots.size = e.slots.size := size_goBack e level
      exact hsize ▸ hlt
    exact contains_goBack.2 ⟨hlt, memory_goBack e level ▸ hact⟩
  · obtain ⟨slot, hslot, -, -, hor⟩ := hears.slot_before hslot'
    rcases hor with rfl | ⟨-, hmem⟩
    · obtain ⟨before, -, rfl⟩ : ∃ before : Slot, e.slots[i]? = some before ∧
          { before with pending := [] } = slot' := by
        simpa [rewound, clearPending] using hslot
      exact absurd rfl hpending
    · exact hmem
  · have hq := hpropagators ▸ propagator_of_slot hslot'
    refine stands_of_alike halike ((h.calm level hl i _ hq).mono fun _ => False.elim)
  · rw [level_goBack hl] at hl'
    have hstore : ((e.goBack level).space.restore level').store = (e.space.restore level').store :=
      (Store.restore_congr halike.vars halike.trail level').trans
        (Store.restore_restore hc.store hl'.le)
    have hmemory : ((e.goBack level).space.restore level').memory
        = (e.space.restore level').memory :=
      (congrArg (Memory.restore · level') halike.memory).trans
        (Memory.restore_restore hc.memory hl'.le)
    rw [hpropagators]
    refine (h.calm level' (hl'.trans hl)).congr hc.memory.restore (hmemory ▸ hc.memory.restore) ?_
      (fun _ _ _ v _ => by rw [hstore]) fun _ _ _ v _ => by rw [hstore]
    rw [hmemory]
    exact .refl _

end Engine

end FiniteDomain
