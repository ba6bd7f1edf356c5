import Mathlib.Tactic
import FiniteDomain.Proofs.Propagator.Basic

/-!
Spaces that propagators have worked on.

Every request on the trail that was made for a propagator had the grounds of that
propagator at its position.  This does not depend on what the propagators remember
now; what they remember has to be right for the next call, and for the calls after
going back.

* `Request.Grounded`: a request for a propagator had its grounds;
* `Tracked`: all active propagators are up to date;
* `Space.Consistent`: the invariant of all spaces, and `Space.Ready`: no request was
  refused and all propagators can be called;
* `Space.Consistent.step`, `Space.Consistent.refused`: the updates of one propagator,
  or of a decision;
* `Space.Consistent.mark`, `Space.Consistent.restore`, `Space.Consistent.extend`,
  `Space.Consistent.addPropagator`: the other changes.
-/

namespace FiniteDomain

/-- If the request was made for a propagator, that propagator had grounds for it at
the given domains. -/
def Request.Grounded (r : Request) (qs : List Propagator) (dom : VarId → IntervalSet) : Prop :=
  ∀ i, r.cause = some i → ∃ q, qs[i.index]? = some q ∧ q.Justified dom r.var r.operation

/-- All active propagators are up to date. -/
def Tracked (m : Memory) (dom : VarId → IntervalSet) (qs : List Propagator) : Prop :=
  ∀ i q, qs[i]? = some q → m.activity ⟨i⟩ = .active → q.Tracks m dom

variable {m m' : Memory} {dom dom' : VarId → IntervalSet} {qs : List Propagator}
  {q : Propagator} {p : PropId} {r : Request}

/-! ### Requests and their grounds -/

/-- The requests of a propagator are grounded in it. -/
lemma grounded_of_justified (hq : qs[p.index]? = some q) (dom : VarId → IntervalSet) (v : VarId)
    (op : Operation) (h : q.Justified dom v op) : Request.Grounded ⟨v, op, some p⟩ qs dom := by
  intro i hi
  cases hi
  exact ⟨q, hq, h⟩

/-- Decisions need no grounds. -/
lemma grounded_of_decision (dom : VarId → IntervalSet) (v : VarId) (op : Operation) :
    Request.Grounded ⟨v, op, none⟩ qs dom := by
  intro i hi
  cases hi

/-- Grounds are about variables of the scope. -/
lemma grounded_of_scope (h : r.Grounded qs dom)
    (hsub : ∀ q ∈ qs, ¬ q.IsObserver → ∀ v ∈ q.scope, ∀ x, x ∈ dom' v → x ∈ dom v) :
    r.Grounded qs dom' := by
  intro i hi
  obtain ⟨q, hq, hJ⟩ := h i hi
  exact ⟨q, hq, hJ.mono (hsub q (List.mem_of_getElem? hq) hJ.not_isObserver)⟩

lemma grounded_append (h : r.Grounded qs dom) :
    r.Grounded (qs ++ [q]) dom := by
  intro i hi
  obtain ⟨q', hq', hJ⟩ := h i hi
  exact ⟨q', by rw [List.getElem?_append_left (List.getElem?_eq_some_iff.1 hq').1, hq'], hJ⟩

/-! ### Propagators that are up to date -/

lemma Tracked.agrees (h : Tracked m dom qs) (hm : m.Agrees m') : Tracked m' dom qs := by
  intro i q hq hact
  rw [hm.activity] at hact
  exact (h i q hq hact).congr fun j _ e => hm.contains j e

lemma Tracked.of_scope (h : Tracked m dom qs)
    (hsub : ∀ q ∈ qs, ¬ q.IsObserver → ∀ v ∈ q.scope, ∀ x, x ∈ dom' v → x ∈ dom v) :
    Tracked m dom' qs := by
  intro i q hq hact
  by_cases hobs : q.IsObserver
  · obtain ⟨o, rfl⟩ := hobs
    trivial
  · exact (h i q hq hact).mono (hsub q (List.mem_of_getElem? hq) hobs)

/-- After a run of one propagator, which left it up to date. -/
lemma tracked_of_kept
    (h : ∀ i q, i ≠ p.index → qs[i]? = some q → m.activity ⟨i⟩ = .active → q.Tracks m dom)
    (hq : qs[p.index]? = some q) (hapart : qs.Pairwise fun q q' => q.own.Disjoint q'.own)
    (hk : Memory.Kept p q.own m m') (hsub : ∀ v x, x ∈ dom' v → x ∈ dom v)
    (hnew : q.Tracks m' dom') : Tracked m' dom' qs := by
  intro i q' hq' hact
  by_cases hi : i = p.index
  · subst hi
    rw [hq] at hq'
    cases hq'
    exact hnew
  · have hne : (⟨i⟩ : PropId) ≠ p := fun e => hi (congrArg PropId.index e)
    rw [hk.activity _ hne] at hact
    have hdisjoint : q'.own.Disjoint q.own := by
      obtain ⟨hlt, rfl⟩ := List.getElem?_eq_some_iff.1 hq
      obtain ⟨hlt', rfl⟩ := List.getElem?_eq_some_iff.1 hq'
      rcases Nat.lt_or_gt_of_ne hi with hlt'' | hgt
      · exact List.pairwise_iff_getElem.1 hapart _ _ hlt' hlt hlt''
      · exact (List.pairwise_iff_getElem.1 hapart _ _ hlt hlt' hgt).symm
    refine ((h i q' hi hq' hact).mono fun u _ => hsub u).congr fun j hj e => ?_
    exact hk.contains j (hdisjoint hj) e

/-- A new propagator is inactive, so that nothing is expected of its sets. -/
lemma Tracked.append (h : Tracked m dom qs)
    (hm : m.Agrees m') (hsize : m.activities.size = qs.length) : Tracked m' dom (qs ++ [q]) := by
  intro i q' hq' hact
  rcases Nat.lt_or_ge i qs.length with hlt | hge
  · rw [List.getElem?_append_left hlt] at hq'
    exact (h.agrees hm) i q' hq' hact
  · rw [hm.activity, Memory.activity_of_size_le (hsize ▸ hge)] at hact
    cases hact

namespace Space

/-- The store and the memory fit the propagators, and all requests had grounds. -/
structure Consistent (s : Space) (qs : List Propagator) : Prop where
  store : s.store.WellFormed
  memory : s.memory.WellFormed
  level : s.memory.trail.level = s.store.trail.level
  size : s.memory.activities.size = qs.length
  fits : ∀ q ∈ qs, q.Fits s.store s.memory
  known : ∀ q ∈ qs, ∀ k ∈ q.own, k.index < s.memory.sets.size
  apart : qs.Pairwise fun q q' => q.own.Disjoint q'.own
  entry : ∀ (p : Nat) (u : Update), s.store.trail.entries[p]? = some u →
    u.request.Grounded qs fun v => s.store.domainAt v p
  failure : ∀ r, s.store.failure = some r → s.store.has r.var = true ∧
    r.Grounded qs s.store.domain ∧
    (r.cause.isSome = true → ∀ x, x ∈ s.store.domain r.var → ¬ r.operation.Holds x)
  below : ∀ level, level < s.store.trail.level →
    Tracked (s.memory.restore level) (s.store.restore level).domain qs

/-- No request was refused, and all active propagators are up to date. -/
structure Ready (s : Space) (qs : List Propagator) : Prop where
  failure : s.store.failure = none
  tracked : Tracked s.memory s.store.domain qs

variable {s t : Space}

lemma Consistent.wellFormed (h : s.Consistent qs) : s.WellFormed := ⟨h.store, h.memory⟩

/-- Calls and raised events do not matter. -/
lemma Consistent.congr (h : s.Consistent qs) (hvars : t.store.vars = s.store.vars)
    (htrail : t.store.trail = s.store.trail) (hfailure : t.store.failure = s.store.failure)
    (hmemory : t.memory = s.memory) : t.Consistent qs := by
  obtain ⟨⟨vars, trail, failure, raised⟩, memory, calls⟩ := s
  obtain ⟨⟨vars', trail', failure', raised'⟩, memory', calls'⟩ := t
  cases hvars
  cases htrail
  cases hfailure
  cases hmemory
  exact ⟨h.store.congr rfl rfl, h.memory, h.level, h.size, h.fits, h.known, h.apart, h.entry,
    h.failure, h.below⟩

lemma Ready.congr (h : s.Ready qs) (hvars : t.store.vars = s.store.vars)
    (hfailure : t.store.failure = s.store.failure) (hmemory : t.memory = s.memory) :
    t.Ready qs := by
  obtain ⟨⟨vars, trail, failure, raised⟩, memory, calls⟩ := s
  obtain ⟨⟨vars', trail', failure', raised'⟩, memory', calls'⟩ := t
  cases hvars
  cases hfailure
  cases hmemory
  exact ⟨h.failure, h.tracked⟩

/-! ### Updates -/

section Updates

variable {J : Grounds} {cause : Option PropId} {own : List SetId}

/-- A run of granted requests for one cause, with changes of the memory that can be
taken back. -/
lemma Consistent.step (h : s.Consistent qs)
    (hJ : ∀ dom v op, J dom v op → Request.Grounded ⟨v, op, cause⟩ qs dom)
    (hn : Store.Narrowing J cause s.store t.store) (hk : Memory.Kept p own s.memory t.memory)
    (hfailure : s.store.failure = none) : t.Consistent qs := by
  have hsh := hn.shrinks h.store
  refine ⟨hsh.wellFormed, hk.wellFormed, ?_, ?_, fun q hq => ?_, fun q hq k hk' => ?_, h.apart,
    fun i u hu => ?_, fun r hr => ?_, fun level hl => ?_⟩
  · rw [hk.level, hsh.level, h.level]
  · rw [hk.size_activities, h.size]
  · refine (h.fits q hq).mono (fun v hv => ?_) fun j _ => hk.capacity j
    rw [hsh.has]
    exact hv
  · rw [hk.size_sets]
    exact h.known q hq k hk'
  · rcases Nat.lt_or_ge i s.store.length with hlt | hge
    · have hdom : (fun v => t.store.domainAt v i) = fun v => s.store.domainAt v i := by
        funext v
        exact hsh.domainAt v i (Nat.le_of_lt hlt)
      rw [hdom]
      rw [hsh.entry i hlt] at hu
      exact h.entry i u hu
    · obtain ⟨hcause, hgrounds⟩ := hn.entry h.store hge hu
      have := hJ _ _ _ hgrounds
      intro j hj
      exact this j (hcause.symm.trans hj)
  · rw [hsh.failure, hfailure] at hr
    cases hr
  · rw [hsh.level] at hl
    rw [hsh.restore level hl]
    exact (h.below level hl).agrees (hk.restore level (h.level ▸ hl)).agrees

/-- A run that ends with a refused request. -/
lemma Consistent.refused (h : s.Consistent qs)
    (hJ : ∀ dom v op, J dom v op → Request.Grounded ⟨v, op, cause⟩ qs dom)
    (hr : Store.Refused J cause s.store t.store) (hk : Memory.Kept p own s.memory t.memory)
    (hfailure : s.store.failure = none) :
    t.Consistent qs ∧ t.store.failure.isSome = true := by
  obtain ⟨store, memory, calls⟩ := t
  obtain ⟨hn, hv, hgrounds, hno⟩ := hr
  rename_i store v op
  have hstep := h.step (t := ⟨store, memory, calls⟩) hJ hn hk hfailure
  refine ⟨⟨hstep.store.congr rfl rfl, hstep.memory, hstep.level, hstep.size, hstep.fits,
    hstep.known, hstep.apart, hstep.entry, fun r hr => ?_, hstep.below⟩, rfl⟩
  cases hr
  exact ⟨hv, hJ _ _ _ hgrounds, hno⟩

end Updates

/-! ### Checkpoints -/

/-- A checkpoint is taken when all active propagators are up to date. -/
lemma Consistent.mark (h : s.Consistent qs) (hr : s.Ready qs) :
    Consistent { s with store := s.store.mark, memory := s.memory.mark } qs := by
  refine ⟨h.store.mark, h.memory.mark, ?_, h.size, fun q hq => ?_, h.known, h.apart, h.entry,
    h.failure, fun level hl => ?_⟩
  · change s.memory.trail.mark.level = s.store.trail.mark.level
    rw [Trail.level_mark, Trail.level_mark, h.level]
  · exact (h.fits q hq).mono (fun _ hv => hv) fun _ _ => rfl
  · change level < s.store.trail.mark.level at hl
    change Tracked (s.memory.mark.restore level) (s.store.mark.restore level).domain qs
    rw [Trail.level_mark] at hl
    have hle : level ≤ s.store.trail.level := Nat.le_of_lt_succ hl
    rw [Memory.restore_mark (h.level ▸ hle), Store.restore_mark hle]
    rcases Nat.lt_or_eq_of_le hle with hlt | rfl
    · exact h.below level hlt
    · rw [Store.domain_restore h.store, Trail.extent_level, ← h.level, Memory.restore_level]
      have := hr.tracked
      rwa [h.store.domain_eq] at this

/-- Going back below the current level leaves all active propagators up to date. -/
lemma Consistent.restore (h : s.Consistent qs) {level : Nat} (hl : level < s.store.trail.level) :
    Consistent { s with store := s.store.restore level, memory := s.memory.restore level } qs ∧
      Ready { s with store := s.store.restore level, memory := s.memory.restore level } qs := by
  have hmaps := Store.maps_restore s.store level
  have hsize := Memory.size_restore s.memory level
  refine ⟨⟨h.store.restore, h.memory.restore, ?_, ?_, fun q hq => ?_, fun q hq k hk => ?_,
    h.apart, fun p u hu => ?_, fun r hr => ?_, fun level' hl' => ?_⟩, rfl, h.below level hl⟩
  · change (s.memory.trail.cut level).level = (s.store.trail.cut level).level
    rw [Trail.level_cut (Nat.le_of_lt (h.level ▸ hl)), Trail.level_cut (Nat.le_of_lt hl)]
  · change (s.memory.restore level).activities.size = qs.length
    rw [hsize.1, h.size]
  · refine (h.fits q hq).mono (fun v hv => ?_) fun j hj => ?_
    · rw [hmaps.has]
      exact hv
    · exact Memory.capacity_restore
  · change k.index < (s.memory.restore level).sets.size
    rw [hsize.2]
    exact h.known q hq k hk
  · change (s.store.trail.cut level).entries[p]? = some u at hu
    rw [Trail.getElem?_cut h.store.trail] at hu
    split at hu
    case isFalse => cases hu
    rename_i hp
    have hdom : (fun v => (s.store.restore level).domainAt v p)
        = fun v => s.store.domainAt v p := by
      funext v
      exact Store.domainAt_restore h.store v (Nat.le_of_lt hp)
    change u.request.Grounded qs fun v => (s.store.restore level).domainAt v p
    rw [hdom]
    exact h.entry p u hu
  · cases hr
  · change level' < (s.store.trail.cut level).level at hl'
    rw [Trail.level_cut (Nat.le_of_lt hl)] at hl'
    change Tracked ((s.memory.restore level).restore level')
      ((s.store.restore level).restore level').domain qs
    rw [Memory.restore_restore h.memory (Nat.le_of_lt hl'),
      Store.restore_restore h.store (Nat.le_of_lt hl')]
    exact h.below level' (Nat.lt_trans hl' hl)

/-! ### New variables and propagators -/

/-- New variables leave everything about the old ones as it is. -/
lemma Consistent.extend (h : s.Consistent qs) (w : t.store.WellFormed)
    (hext : s.store.Extends t.store) (htrail : t.store.trail = s.store.trail)
    (hfailure : t.store.failure = s.store.failure) (hmemory : t.memory = s.memory) :
    t.Consistent qs ∧ (s.Ready qs → t.Ready qs) := by
  have hscope : ∀ q ∈ qs, ¬ q.IsObserver → ∀ v ∈ q.scope, s.store.has v = true :=
    fun q hq hobs => (h.fits q hq).has hobs
  have hdomain : ∀ q ∈ qs, ¬ q.IsObserver → ∀ v ∈ q.scope,
      ∀ x, x ∈ t.store.domain v → x ∈ s.store.domain v := by
    intro q hq hobs v hv x hx
    rwa [hext.domain h.store (hscope q hq hobs v hv)] at hx
  refine ⟨⟨w, hmemory ▸ h.memory, ?_, ?_, fun q hq => ?_, ?_, h.apart, fun p u hu => ?_,
    fun r hr => ?_, fun level hl => ?_⟩, fun hr => ⟨hfailure.trans hr.failure, ?_⟩⟩
  · rw [hmemory, htrail, h.level]
  · rw [hmemory, h.size]
  · exact (h.fits q hq).mono (fun v hv => hext.has hv) fun j _ => by rw [hmemory]
  · rw [hmemory]
    exact h.known
  · rw [htrail] at hu
    refine grounded_of_scope (h.entry p u hu) fun q hq hobs v hv x hx => ?_
    rwa [hext.domainAt h.store (hscope q hq hobs v hv)] at hx
  · rw [hfailure] at hr
    obtain ⟨hv, hgrounded, hno⟩ := h.failure r hr
    refine ⟨hext.has hv, grounded_of_scope hgrounded hdomain, ?_⟩
    rw [hext.domain h.store hv]
    exact hno
  · rw [htrail] at hl
    rw [hmemory]
    refine (h.below level hl).of_scope fun q hq hobs v hv x hx => ?_
    rw [Store.domain_restore w, htrail] at hx
    rw [Store.domain_restore h.store]
    have hv := hscope q hq hobs v hv
    simpa only [hext.domainAt h.store hv] using hx
  · rw [hmemory]
    exact hr.tracked.of_scope hdomain

/-- A new propagator comes with new sets. -/
lemma Consistent.addPropagator (h : s.Consistent qs) {m : Memory} (hm : s.memory.Grows m)
    (hsize : m.activities.size = s.memory.activities.size)
    (hfits : q.Fits s.store m.addActivity)
    (hown : ∀ k ∈ q.own, s.memory.sets.size ≤ k.index ∧ k.index < m.sets.size) :
    Consistent { s with memory := m.addActivity } (qs ++ [q]) ∧
      (s.Ready qs → Ready { s with memory := m.addActivity } (qs ++ [q])) := by
  have hgrows := hm.trans (Memory.grows_addActivity hm.wellFormed)
  have hrestore : ∀ level, (s.memory.restore level).activities.size = qs.length :=
    fun level => by rw [(Memory.size_restore s.memory level).1, h.size]
  refine ⟨⟨h.store, hgrows.wellFormed, hgrows.level.trans h.level, ?_, fun q' hq' => ?_,
    fun q' hq' k hk => ?_, ?_, fun p u hu => grounded_append (h.entry p u hu),
    fun r hr => ?_, fun level hl => (h.below level hl).append (hgrows.restore level)
      (hrestore level)⟩,
    fun hr => ⟨hr.failure, hr.tracked.append hgrows.agrees h.size⟩⟩
  · simp [Memory.addActivity, hsize, h.size]
  · rcases List.mem_append.1 hq' with hq' | hq'
    · exact (h.fits q' hq').mono (fun _ hv => hv) fun j hj => by
        rw [hgrows.set j (h.known q' hq' j hj)]
    · exact List.mem_singleton.1 hq' ▸ hfits
  · change k.index < m.sets.size
    rcases List.mem_append.1 hq' with hq' | hq'
    · exact Nat.lt_of_lt_of_le (h.known q' hq' k hk) hm.size_sets
    · rw [List.mem_singleton.1 hq'] at hk
      exact (hown k hk).2
  · refine List.pairwise_append.2 ⟨h.apart, List.pairwise_singleton _ _, fun q' hq' q'' hq'' => ?_⟩
    rw [List.mem_singleton.1 hq'']
    intro k hk hk'
    have := h.known q' hq' k hk
    have := (hown k hk').1
    omega
  · obtain ⟨hv, hgrounded, hno⟩ := h.failure r hr
    exact ⟨hv, grounded_append hgrounded, hno⟩

end Space

end FiniteDomain
