import Mathlib.Tactic
import FiniteDomain.Proofs.Engine.Choices

/-!
What happened since a checkpoint.

As long as an engine does not go back to a checkpoint or below, and accepts no constraint, it
knows what the domains were there, and that no propagator had anything to do.  When it fails,
nothing but propagators was at work since the last decision.

* `Engine.Called`: no propagator waits for its first call;
* `Engine.Behind`: only propagators were at work since some store;
* `Engine.Since`: what is known since a checkpoint;
* `Engine.Moves.since`, `Engine.Decides.since`, `Engine.Since.marked`, `Engine.Since.goBack`:
  this is kept, whatever calls of the engine do;
* `Engine.Since.atRest`: going back to the checkpoint, the engine is at rest.
-/

namespace FiniteDomain

namespace Engine

variable {e e' : Engine} {base last : Store} {level i : Nat} {r v : VarId}

/-- All propagators have been called, as far as the memory knows. -/
def Called (qs : List Propagator) (m : Memory) : Prop :=
  ∀ (i : Nat) q, qs[i]? = some q → m.activity ⟨i⟩ ≠ .inactive

lemma Called.agrees {qs : List Propagator} {m m' : Memory} (h : Called qs m) (hm : m.Agrees m') :
    Called qs m' := by
  intro i q hq
  rw [hm.activity]
  exact h i q hq

/-- No domain changed since the store `last` but for propagators. -/
structure Behind (r : VarId) (last : Store) (e : Engine) : Prop where
  has : e.store.has r = true
  length : last.length ≤ e.store.length
  domain : e.store.domainAt r last.length = last.domain r
  caused : ∀ (p : Nat) (u : Update), last.length ≤ p → e.store.trail.entries[p]? = some u →
    u.request.cause.isSome = true

/-- The engine took a checkpoint at a level with the store `base`, and all decisions since were
on the root `r`.  The store `last` is the one right after the last of them. -/
structure Since (base : Store) (level : Nat) (r : VarId) (last : Store) (e : Engine) : Prop where
  above : level < e.level
  has : ∀ v, base.has v = true → e.store.has v = true
  domain : ∀ v, base.has v = true → (e.store.restore level).domain v = base.domain v
  called : ∀ i, level ≤ i → i < e.level → Called e.propagators (e.memory.restore i)
  decided : ∀ (p : Nat) (u : Update), e.store.trail.extent level ≤ p →
    e.store.trail.entries[p]? = some u → u.request.cause = none → u.root = r
  recent : e.conflict = none ∧ e.agenda.isEmpty = true ∨ e.Behind r last

/-- New variables change nothing for the old ones. -/
lemma Since.extend (h : e.Since base level r last) (w : e.store.WellFormed) {t : Store}
    (wt : t.WellFormed) (hext : e.store.Extends t) (htrail : t.trail = e.store.trail) :
    Since base level r last { e with space := { e.space with store := t } } := by
  refine ⟨?_, fun v hv => hext.has (h.has v hv), fun v hv => ?_, fun i hle hi => ?_,
    fun p u hp hu => ?_,
    h.recent.imp_right fun hb => ⟨hext.has hb.has, ?_, ?_, fun p u hp hu => ?_⟩⟩
  · change level < t.trail.level
    rw [htrail]
    exact h.above
  · have hbase := h.domain v hv
    rw [Store.domain_restore w] at hbase
    change (t.restore level).domain v = base.domain v
    rw [Store.domain_restore wt, htrail, ← hbase]
    exact hext.domainAt w (h.has v hv)
  · change i < t.trail.level at hi
    rw [htrail] at hi
    exact h.called i hle hi
  · change t.trail.extent level ≤ p at hp
    change t.trail.entries[p]? = some u at hu
    rw [htrail] at hp hu
    exact h.decided p u hp hu
  · change last.length ≤ t.trail.length
    rw [htrail]
    exact hb.length
  · rw [← hb.domain]
    exact hext.domainAt w hb.has
  · change t.trail.entries[p]? = some u at hu
    rw [htrail] at hu
    exact hb.caused p u hp hu

/-- What lies below the checkpoint is not touched when domains shrink. -/
lemma Since.shrink (h : e.Since base level r last)
    (hsh : e.store.Shrinks { e'.store with failure := e.store.failure })
    (hcalled : ∀ i, i < e.level → Called e.propagators (e.memory.restore i) →
      Called e'.propagators (e'.memory.restore i))
    (hdecided : ∀ (p : Nat) (u : Update), e.store.length ≤ p →
      e'.store.trail.entries[p]? = some u → u.request.cause = none → u.root = r)
    {last' : Store} (hrecent : e'.conflict = none ∧ e'.agenda.isEmpty = true ∨ e'.Behind r last') :
    e'.Since base level r last' := by
  have hlevel : e'.level = e.level := hsh.level
  have hrestore : e'.store.restore level = e.store.restore level := hsh.restore level h.above
  have hextent : e'.store.trail.extent level = e.store.trail.extent level :=
    hsh.extent level h.above
  refine ⟨hlevel ▸ h.above, fun v hv => (hsh.has v).trans (h.has v hv), fun v hv => ?_,
    fun i hle hi => ?_, fun p u hp hu hnone => ?_, hrecent⟩
  · rw [hrestore]
    exact h.domain v hv
  · rw [hlevel] at hi
    exact hcalled i hi (h.called i hle hi)
  · rcases Nat.lt_or_ge p e.store.length with hlt | hge
    · have hu : e.store.trail.entries[p]? = some u := (hsh.entry p hlt).symm.trans hu
      exact h.decided p u (hextent ▸ hp) hu hnone
    · exact hdecided p u hge hu hnone

/-- Propagation of an engine in which no propagator waits changes nothing but the phase. -/
lemma propagate_of_isEmpty (ho : e.Orderly) (hnone : e.conflict = none)
    (hempty : e.agenda.isEmpty = true) : propagate e = .ok (.ok ()) { e with phase := .idle } := by
  have hpop : e.agenda.pop = none := (Agenda.pop_eq_none_iff ho.agenda.wellFormed).2 hempty
  have hdrain : drain e.rounds e = .ok () e := by
    rw [rounds, drain]
    dsimp only
    rw [hpop]
  rw [propagate_of_idle hnone, hdrain]

/-- What propagators do is behind the last decision. -/
lemma Behind.of_driven (h : e.Behind r last) (hd : e.store.Driven e'.store) : e'.Behind r last where
  has := (hd.shrinks.has r).trans h.has
  length := h.length.trans hd.shrinks.length
  domain := (hd.shrinks.domainAt r _ h.length).trans h.domain
  caused p u hp hu := by
    rcases Nat.lt_or_ge p e.store.length with hlt | hge
    · exact h.caused p u hp ((hd.shrinks.entry p hlt).symm.trans hu)
    · exact hd.caused p u hge hu

/-- Moves that accept no constraint. -/
lemma Move.since (hmove : Move e e') (inv : e.Invariant) (hs : e.Scheduled)
    (hlength : e'.propagators.length = e.propagators.length) (h : e.Since base level r last) :
    e'.Since base level r last := by
  have w : e.store.WellFormed := inv.consistent.store
  cases hmove with
  | account ha =>
    obtain ⟨_, _, _, _, _, rfl⟩ := ha.exists_eq
    exact ⟨h.above, h.has, h.domain, h.called, h.decided,
      h.recent.imp_right fun hb => ⟨hb.has, hb.length, hb.domain, hb.caused⟩⟩
  | newRoot hd hr => exact h.extend w (w.addRoot hd hr) (Store.extends_addRoot _ _) rfl
  | newView hb hneg => exact h.extend w (w.addView hb hneg) (Store.extends_addView _ _) rfl
  | @accept c q m hnone hfits hmade hscope hunknown =>
    have hpropagators : (e.accept q m).propagators = e.propagators ++ [q] := by
      simp [propagators, Engine.accept]
    rw [hpropagators, List.length_append, List.length_singleton] at hlength
    omega
  | propagate hrun =>
    have hends := scheduled_propagate inv hs
    rcases hrun with ⟨res, hrun⟩ | ⟨x, hrun⟩
    · have hsettles := Ends.of_ok hrun hends
      have hd := hsettles.drives
      refine h.shrink hd.store.shrinks (fun i hi hcalled => ?_) (fun p u hp hu hnone => ?_) ?_
      · rw [hsettles.propagators]
        exact hcalled.agrees (hd.memory.restore i (inv.consistent.level ▸ hi))
      · have hcaused := hd.store.caused p u hp hu
        rw [hnone] at hcaused
        cases hcaused
      · rcases h.recent with ⟨hnone, hempty⟩ | hb
        · rw [propagate_of_isEmpty hs.orderly hnone hempty] at hrun
          cases hrun
          exact .inl ⟨hnone, hempty⟩
        · exact .inr (hb.of_driven hd.store)
    · exact (Ends.of_error hrun hends).elim

/-- No move takes a propagator away. -/
lemma Move.length_le (hmove : Move e e') (inv : e.Invariant) (hs : e.Scheduled) :
    e.propagators.length ≤ e'.propagators.length := by
  cases hmove with
  | account ha => exact (congrArg List.length ha.propagators).ge
  | newRoot => exact le_rfl
  | newView => exact le_rfl
  | accept => simp [propagators, Engine.accept]
  | propagate hrun =>
    have hends := scheduled_propagate inv hs
    rcases hrun with ⟨res, hrun⟩ | ⟨x, hrun⟩
    · exact (congrArg List.length (Ends.of_ok hrun hends).propagators).ge
    · exact (Ends.of_error hrun hends).elim

lemma Moves.since (hmoves : Moves e e') (inv : e.Invariant) (hs : e.Scheduled)
    (hlength : e'.propagators.length = e.propagators.length) (h : e.Since base level r last) :
    e'.Since base level r last := by
  have hkept : e.propagators.length ≤ e'.propagators.length ∧
      (e'.propagators.length = e.propagators.length → e'.Since base level r last) := by
    refine hmoves.keep (P := fun e' => e.propagators.length ≤ e'.propagators.length ∧
      (e'.propagators.length = e.propagators.length → e'.Since base level r last)) inv hs ?_
      ⟨le_rfl, fun _ => h⟩
    rintro e₁ e₂ hmove inv₁ hs₁ ⟨hle, hsince⟩
    have hle' := hmove.length_le inv₁ hs₁
    refine ⟨hle.trans hle', fun heq => ?_⟩
    exact hmove.since inv₁ hs₁ (by omega) (hsince (by omega))
  exact hkept.2 hlength

/-- A decision on the root is the last one then. -/
lemma Decides.since {d : Decision} {res : Except Inconsistency Bool}
    (hdecides : Decides v d e res e')
    (inv : e.Invariant) (hv : e.store.has v = true) (hroot : e.store.root v = r)
    (h : e.Since base level r last) : e'.Since base level r e'.store := by
  have w : e.store.WellFormed := inv.consistent.store
  have hafter : ∀ {t : Store}, Store.Narrowing (d.Grounds v) none e.store t →
      e'.store.vars = t.vars → e'.store.trail = t.trail → e'.memory = e.memory →
      e'.propagators = e.propagators → e'.Since base level r e'.store := by
    intro t hn hvars htrail hmemory hpropagators
    have hsh : e.store.Shrinks { e'.store with failure := e.store.failure } :=
      (hn.shrinks w).congr rfl rfl hvars htrail rfl
    have w' : e'.store.WellFormed := hsh.wellFormed.congr rfl rfl
    have hhas : e'.store.has r = true := (hsh.has r).trans (hroot ▸ w.has_root hv)
    refine h.shrink hsh (fun i _ hcalled => ?_) (fun p u hp hu _ => ?_)
      (.inr ⟨hhas, le_rfl, (w'.domain_eq_domainAt hhas le_rfl).symm, fun p u hp hu => ?_⟩)
    · rw [hpropagators, hmemory]
      exact hcalled
    · have hu' : t.trail.entries[p]? = some u := htrail ▸ hu
      have hvar : u.request.var = v := (hn.entry w hp hu').2.1
      have hnarrows := w'.update p u hu
      rw [hnarrows.root, hvar]
      exact (hsh.root v).trans hroot
    · have hlt : p < e'.store.length := (Array.getElem?_eq_some_iff.1 hu).1
      omega
  cases hdecides with
  | @granted b t hn hleaves =>
    have halike := alike_told e none { e.space with store := t }
    exact hafter hn halike.vars halike.trail halike.memory halike.propagators
  | @refused i t hr hno =>
    have hpropagators : ((e.withSpace { e.space with store := t }).fail i).propagators
        = e.propagators := propagators_clearPending _
    obtain ⟨hn, -, -, -⟩ := hr
    exact hafter hn rfl rfl rfl hpropagators

/-! ### Checkpoints -/

/-- When no propagator waits, all were called, and a checkpoint remembers this. -/
lemma called_marked (hs : e.Scheduled) (hc : e.space.Consistent e.propagators)
    (hnone : e.conflict = none) (hempty : e.agenda.isEmpty = true) :
    Called e.propagators (e.marked.memory.restore e.level) := by
  have hspace := restore_marked hc (le_refl e.level)
  have hmemory : e.marked.memory.restore e.level = e.memory := by
    have hlevel : e.level = e.memory.trail.level := hc.level.symm
    refine (congrArg Space.memory hspace).trans ?_
    change e.memory.restore e.level = e.memory
    rw [hlevel]
    exact Memory.restore_level
  rw [hmemory]
  exact ((hs.alert hnone).calm hempty).2

/-- Taking the checkpoint. -/
lemma since_marked (inv : e.Invariant) (hs : e.Scheduled) (hnone : e.conflict = none)
    (hempty : e.agenda.isEmpty = true) : e.marked.Since e.store e.level r last := by
  have w : e.store.WellFormed := inv.consistent.store
  have hlevel := level_marked e
  refine ⟨by omega, fun v hv => hv, fun v _ => ?_, fun i hle hi => ?_, fun p u hp hu _ => ?_,
    .inl ⟨hnone, hempty⟩⟩
  · have hrestore : e.marked.store.restore e.level = e.store.restore e.level :=
      Store.restore_mark le_rfl
    rw [hrestore, domain_restore_level w]
  · obtain rfl : i = e.level := by omega
    exact called_marked hs inv.consistent hnone hempty
  · have hlt : p < e.store.length := (Array.getElem?_eq_some_iff.1 hu).1
    have hextent : e.marked.store.trail.extent e.level = e.store.length :=
      Trail.extent_mark.trans (Trail.extent_level _)
    omega

/-- Taking one more checkpoint. -/
lemma Since.marked (h : e.Since base level r last) (inv : e.Invariant) (hs : e.Scheduled)
    (hnone : e.conflict = none) (hempty : e.agenda.isEmpty = true) :
    e.marked.Since base level r last := by
  have hc := inv.consistent
  have hlevel := level_marked e
  have hextent : e.marked.store.trail.extent level = e.store.trail.extent level :=
    Trail.extent_mark
  refine ⟨h.above.trans (by omega), h.has, fun v hv => ?_, fun i hle hi => ?_,
    fun p u hp hu hnone => ?_,
    .inl ⟨hnone, hempty⟩⟩
  · have hrestore : e.marked.store.restore level = e.store.restore level :=
      Store.restore_mark h.above.le
    rw [hrestore]
    exact h.domain v hv
  · rcases Nat.lt_or_eq_of_le (Nat.le_of_lt_succ (hlevel ▸ hi)) with hlt | rfl
    · have hspace := restore_marked hc hlt.le
      have hmemory : e.marked.memory.restore i = e.memory.restore i :=
        congrArg Space.memory hspace
      rw [hmemory]
      exact h.called i hle hlt
    · exact called_marked hs hc hnone hempty
  · exact h.decided p u (hextent ▸ hp) hu hnone

/-! ### Going back -/

/-- When all propagators had been called, none waits after going back. -/
lemma isEmpty_goBack (h : Called e.propagators (e.memory.restore i)) :
    (e.goBack i).agenda.isEmpty = true := by
  rw [Agenda.isEmpty_iff]
  refine fun p => Bool.eq_false_iff.2 fun hp => ?_
  obtain ⟨hlt, hact⟩ := contains_goBack.1 hp
  rw [← length_propagators] at hlt
  exact h p.index _ (List.getElem?_eq_getElem hlt) hact

/-- Going back to a checkpoint that was taken later. -/
lemma Since.goBack (h : e.Since base level r last) (inv : e.Invariant) (hle : level < i)
    (hi : i < e.level) : (e.goBack i).Since base level r last := by
  have w : e.store.WellFormed := inv.consistent.store
  have halike := alike_goBack e i
  have htrail : (e.goBack i).store.trail = e.store.trail.cut i := halike.trail
  have hpropagators := halike.propagators.trans (propagators_rewound e i)
  have hextent : (e.goBack i).store.trail.extent level = e.store.trail.extent level := by
    rw [htrail, Trail.extent_cut w.trail, Nat.min_eq_left hle.le]
  refine ⟨(level_goBack hi).symm ▸ hle, fun v hv => ?_, fun v hv => ?_, fun j hlj hj => ?_,
    fun p u hp hu hnone => ?_, .inl ⟨halike.conflict, isEmpty_goBack (h.called i hle.le hi)⟩⟩
  · rw [Store.has_congr halike.vars]
    exact ((Store.maps_restore e.store i).has v).trans (h.has v hv)
  · have hrestore : (e.goBack i).store.restore level = e.store.restore level :=
      (Store.restore_congr halike.vars halike.trail level).trans (Store.restore_restore w hle.le)
    rw [hrestore]
    exact h.domain v hv
  · rw [level_goBack hi] at hj
    have hmemory : (e.goBack i).memory.restore j = e.memory.restore j :=
      (congrArg (Memory.restore · j) halike.memory).trans
        (Memory.restore_restore inv.consistent.memory hj.le)
    rw [hpropagators, hmemory]
    exact h.called j hlj (hj.trans hi)
  · rw [hextent] at hp
    rw [htrail, Trail.getElem?_cut w.trail] at hu
    split at hu
    · exact h.decided p u hp hu hnone
    · cases hu

/-- Back at the checkpoint, the engine is at rest with the domains that it had there. -/
lemma Since.atRest (h : e.Since base level r last) (inv : e.Invariant) (hs : e.Scheduled) :
    (e.goBack level).AtRest ∧
      ∀ v, base.has v = true → (e.goBack level).store.domain v = base.domain v := by
  have halike := alike_goBack e level
  refine ⟨(hs.goBack inv h.above).atRest (invariant_goBack inv h.above).1 halike.conflict
    (isEmpty_goBack (h.called level le_rfl h.above)), fun v hv => ?_⟩
  rw [halike.domain]
  exact h.domain v hv

end Engine

end FiniteDomain
