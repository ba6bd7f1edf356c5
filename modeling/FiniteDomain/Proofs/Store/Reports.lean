import Mathlib.Tactic
import FiniteDomain.Proofs.Store.Effects
import FiniteDomain.Proofs.Store.Queries

/-!
What is taken from a store tells what changed.

The events of a root and of the views on it are worked out update by update, from the bounds before
and after each, and those on one variable are merged.  What was merged between two times at which
events are taken is nevertheless what a look at the two domains shows: whether a value was lost,
which bounds moved, and whether one value is left that was not alone before.

* `EventSet.mem_change_trans`: the events of a change in two steps are those of either step;
* `Store.Faithful`: only views on a root follow it, with `Store.Branch.faithful`;
* `Store.Tallies`: the events that are kept are those of the change since, with
  `Store.Tallies.narrow` for one update and `Store.Narrowing.tallies` for a run;
* `Store.Updated`: successful updates of variables;
* `Store.changes_reported`: after any of them, the events tell what changed.
-/

namespace FiniteDomain

/-! ### Changes in two steps -/

namespace EventSet

variable {a b c : IntervalSet} {e : Event}

lemma assign_mem_change : .assign ∈ change a b ↔ a.isFixed = false ∧ b.isFixed = true := by
  change (b.lower == b.upper && a.lower != a.upper) = true ↔ _
  rw [Bool.and_eq_true, and_comm, bne, Bool.not_eq_true', IntervalSet.isFixed, IntervalSet.isFixed]

lemma not_mem_empty (e : Event) : e ∉ (∅ : EventSet) := by
  cases e <;> exact Bool.false_ne_true

lemma not_mem_change_self : e ∉ change a a := by
  cases e with
  | assign =>
    rw [assign_mem_change]
    simp
  | lowerBound => exact fun h => lowerBound_mem_change.1 h rfl
  | upperBound => exact fun h => upperBound_mem_change.1 h rfl
  | removal => exact fun h => removal_mem_change.1 h rfl

/-- Any event tells that the domain is another one. -/
lemma ne_of_mem_change (h : e ∈ change a b) : b ≠ a := by
  rintro rfl
  exact not_mem_change_self h

lemma isEmpty_eq_false {set : EventSet} : set.isEmpty = false ↔ ∃ e, e ∈ set := by
  rw [isEmpty, Bool.not_eq_false', Bool.or_eq_true, Bool.or_eq_true, Bool.or_eq_true]
  constructor
  · rintro (((h | h) | h) | h)
    · exact ⟨.assign, h⟩
    · exact ⟨.lowerBound, h⟩
    · exact ⟨.upperBound, h⟩
    · exact ⟨.removal, h⟩
  · rintro ⟨e, h⟩
    cases e with
    | assign => exact .inl (.inl (.inl h))
    | lowerBound => exact .inl (.inl (.inr h))
    | upperBound => exact .inl (.inr h)
    | removal => exact .inr h

/-- The events of a change in two steps are those of either step. -/
lemma mem_change_trans (hab : ∀ x, x ∈ b → x ∈ a) (hbc : ∀ x, x ∈ c → x ∈ b)
    (hc : ∃ x, x ∈ c) : e ∈ change a c ↔ e ∈ change a b ∨ e ∈ change b c := by
  have hlc := IntervalSet.lower_mem hc
  have huc := IntervalSet.upper_mem hc
  have hlb := IntervalSet.lower_mem ⟨_, hbc _ hlc⟩
  have hub := IntervalSet.upper_mem ⟨_, hbc _ hlc⟩
  -- the bounds move one way
  have hl₁ : a.lower ≤ b.lower := IntervalSet.lower_le (hab _ hlb)
  have hl₂ : b.lower ≤ c.lower := IntervalSet.lower_le (hbc _ hlc)
  have hle : c.lower ≤ c.upper := IntervalSet.lower_le huc
  have hu₂ : c.upper ≤ b.upper := IntervalSet.le_upper (hbc _ huc)
  have hu₁ : b.upper ≤ a.upper := IntervalSet.le_upper (hab _ hub)
  cases e with
  | assign =>
    simp only [assign_mem_change, IntervalSet.isFixed, beq_iff_eq, beq_eq_false_iff_ne]
    omega
  | lowerBound =>
    simp only [lowerBound_mem_change]
    omega
  | upperBound =>
    simp only [upperBound_mem_change]
    omega
  | removal =>
    simp only [removal_mem_change]
    rw [← not_and_or]
    refine not_congr ⟨fun h => ?_, fun h => h.2.trans h.1⟩
    have hb : b = a := IntervalSet.ext fun x => ⟨hab x, fun hx => hbc x (h ▸ hx)⟩
    exact ⟨hb, h.trans hb.symm⟩

end EventSet

namespace Store

variable {past : List Store} {s s' t : Store} {v r : VarId} {cause : Option PropId} {J : Grounds}

/-! ### Followers -/

/-- Only views on a root follow it. -/
def Faithful (s : Store) : Prop :=
  ∀ r v, v ∈ s.followers r → s.has v = true ∧ s.root v = r ∧ s.chain v ≠ []

lemma isRoot_of_mem_followers (h : v ∈ s.followers r) : s.IsRoot r := by
  rw [followers] at h
  split at h
  · rename_i h₀ vs hget
    exact ⟨h₀, vs, hget⟩
  · cases h

lemma Maps.faithful {f : VarId → History → History} (h : s.Maps s' f) (hs : s.Faithful) :
    s'.Faithful := by
  intro r v hv
  rw [h.followers] at hv
  rw [h.has, h.root, h.chain]
  exact hs r v hv

lemma Faithful.congr (h : s.Faithful) (hvars : s'.vars = s.vars) : s'.Faithful := by
  intro r v hv
  rw [followers, hvars] at hv
  rw [has, root, chain, hvars]
  exact h r v hv

/-- New variables: those that follow a root followed it before, or are views on it. -/
lemma Faithful.extend (h : s.Faithful) (hext : s.Extends s')
    (hnew : ∀ r v, v ∈ s'.followers r → v ∈ s.followers r ∨
      s'.has v = true ∧ s'.root v = r ∧ s'.chain v ≠ []) : s'.Faithful := by
  intro r v hv
  rcases hnew r v hv with hold | hnew
  · obtain ⟨hhas, hroot, hchain⟩ := h r v hold
    exact ⟨hext.has hhas, (hext.root hhas).trans hroot, hext.chain hhas ▸ hchain⟩
  · exact hnew

lemma mem_of_mem_follow {base root new : VarId} {vs : List VarId}
    (h : v ∈ follow base root new vs) : v = new ∨ v ∈ vs := by
  rw [follow] at h
  split at h
  · exact List.mem_cons.1 h
  · obtain ⟨u, hu, hv⟩ := List.mem_flatMap.1 h
    split at hv
    · rcases List.mem_pair.1 hv with rfl | rfl
      · exact .inr hu
      · exact .inl rfl
    · exact .inr (List.mem_singleton.1 hv ▸ hu)

lemma Faithful.addRoot (h : s.Faithful) (d : IntervalSet) : (s.addRoot d).2.Faithful := by
  refine h.extend (extends_addRoot s d) fun r v hv => .inl ?_
  rcases eq_of_has_addRoot (isRoot_of_mem_followers hv).has with hr | rfl
  · rwa [followers_addRoot hr] at hv
  · rw [followers, getElem?_addRoot] at hv
    cases hv

lemma Faithful.addView (h : s.Faithful) (w : s.WellFormed) {w' : View}
    (hb : s.has w'.base = true) : (s.addView w').2.Faithful := by
  have hext := extends_addView s w'
  refine h.extend hext fun r v hv => ?_
  have hroot := isRoot_of_mem_followers hv
  rcases eq_of_has_addView hroot.has with hr | rfl
  · rw [followers_addView w hb ((hext.isRoot hr).1 hroot)] at hv
    split at hv
    · rename_i hr
      subst hr
      refine (mem_of_mem_follow hv).symm.imp_right ?_
      rintro rfl
      exact ⟨has_of_getElem? (getElem?_addView s w'), root_addView s w',
        chain_addView s w' ▸ List.cons_ne_nil _ _⟩
    · exact .inl hv
  · rw [followers, getElem?_addView] at hv
    cases hv

lemma Branch.faithful (h : Branch past s) : s.Faithful := by
  induction h with
  | empty =>
    intro r v hv
    obtain ⟨_, _, hget⟩ := isRoot_of_mem_followers hv
    cases hget
  | addRoot _ _ _ ih => exact ih.addRoot _
  | addView h hb _ ih => exact ih.addView h.wellFormed hb
  | update _ _ hrun ih =>
    obtain ⟨rop, d, -, rfl⟩ := request_eq_ok_true.1 hrun
    exact (maps_narrow _ _ _ _).faithful ih
  | fail _ _ ih => exact ih.congr rfl
  | takeEvents _ ih => exact ih.congr rfl
  | mark _ ih => exact ih.congr rfl
  | restore _ level ih => exact (maps_restore _ level).faithful ih

/-! ### Events that are kept -/

section Narrow

variable {r : Request} {op : Operation} {d : IntervalSet} (w : s.WellFormed)
  (hr : s.has r.var = true)
  (he : (s.chain r.var).effect (s.history r.var).current r.operation = .narrowed op d)

include w hr he in
/-- All events of an update are on variables whose domain it changed. -/
lemma eq_of_mem_newEvents (hf : s.Faithful) {set : EventSet} (h : (v, set) ∈ s.newEvents r d) :
    set = .change (s.domain v) ((s.narrow r op d).domain v) ∧ ∃ e, e ∈ set := by
  rcases List.mem_cons.1 h with h | h
  · cases h
    exact ⟨change_root w hr he (domain_root_narrow_ne w hr he), .removal,
      EventSet.mem_union.2 (.inr rfl)⟩
  · obtain ⟨h, hne⟩ := List.mem_filter.1 h
    obtain ⟨u, hu, heq⟩ := List.mem_map.1 h
    cases heq
    obtain ⟨hv, hroot, hchain⟩ := hf _ _ hu
    rw [Bool.not_eq_true', EventSet.isEmpty_eq_false] at hne
    exact ⟨change_view w hr he hv hroot hchain, hne⟩

include w hr he in
/-- What is heard of a variable after an update. -/
lemma mem_heard_narrow (hf : s.Followed) (hf' : s.Faithful) {e : Event} :
    e ∈ Assoc.heard (s.narrow r op d).raised v ↔
      e ∈ Assoc.heard s.raised v ∨
        e ∈ EventSet.change (s.domain v) ((s.narrow r op d).domain v) := by
  refine Assoc.mem_heard_joinAll.trans (or_congr_right ⟨?_, fun h => ?_⟩)
  · rintro ⟨set, hset, he'⟩
    exact (eq_of_mem_newEvents w hr he hf' hset).1 ▸ he'
  · exact ⟨_, mem_newEvents w hr he hf (EventSet.ne_of_mem_change h), h⟩

end Narrow

/-- The store `t` comes from `s` by updates, and the events that it keeps are those of the changes
since. -/
structure Tallies (s t : Store) : Prop where
  shrinks : Shrinks s t
  followed : t.Followed
  faithful : t.Faithful
  /-- No variable is listed twice. -/
  nodup : (Assoc.keys t.raised).Nodup
  nonempty : ∀ x ∈ t.raised, ∃ e, e ∈ x.2
  heard : ∀ v e, e ∈ Assoc.heard t.raised v ↔ e ∈ EventSet.change (s.domain v) (t.domain v)

lemma tallies_self (w : s.WellFormed) (hf : s.Followed) (hf' : s.Faithful) (h : s.raised = []) :
    Tallies s s where
  shrinks := .refl w
  followed := hf
  faithful := hf'
  nodup := h ▸ List.nodup_nil
  nonempty := h ▸ nofun
  heard v e := by
    rw [h]
    exact iff_of_false (EventSet.not_mem_empty e) EventSet.not_mem_change_self

/-- One update adds the events of its changes. -/
lemma Tallies.narrow (h : Tallies s t) {q : Request} {op : Operation} {d : IntervalSet}
    (hv : t.has q.var = true)
    (he : (t.chain q.var).effect (t.history q.var).current q.operation = .narrowed op d) :
    Tallies s (t.narrow q op d) := by
  have w := h.shrinks.wellFormed
  have hsh := shrinks_narrow w hv he
  have hmaps := maps_narrow t q op d
  have hkeeps : ∀ set set' : EventSet, (∃ e, e ∈ set') → ∃ e, e ∈ set'.union set :=
    fun _ _ ⟨e, he⟩ => ⟨e, EventSet.mem_union.2 (.inl he)⟩
  refine ⟨h.shrinks.trans hsh, hmaps.followed h.followed, hmaps.faithful h.faithful,
    Assoc.nodup_keys_joinAll h.nodup _, ?_, fun v e => ?_⟩
  · exact Assoc.forall_joinAll hkeeps h.nonempty fun x hx =>
      (eq_of_mem_newEvents w hv he h.faithful hx).2
  · rw [mem_heard_narrow w hv he h.followed h.faithful, h.heard]
    by_cases hhas : t.has v = true
    · have hne := hsh.wellFormed.domain_nonempty ((hsh.has v).trans hhas)
      exact (EventSet.mem_change_trans (h.shrinks.domain v) (hsh.domain v) hne).symm
    · -- what does not exist has the same domain always
      have hroot : t.root v ≠ t.root q.var := by
        rw [root_of_not_has hhas]
        exact fun heq => hhas (heq ▸ w.has_root hv)
      rw [domain_narrow_of_root_ne w hroot]
      exact or_iff_left EventSet.not_mem_change_self

lemma Narrowing.tallies (hn : Narrowing J cause t s') (h : Tallies s t) : Tallies s s' := by
  induction hn with
  | refl => exact h
  | step _ hv _ he ih => exact ih.narrow hv he

/-! ### Successful updates -/

/-- Updates of variables, by anyone, none of which was refused. -/
inductive Updated (s : Store) : Store → Prop
  | refl : Updated s s
  | apply {t t' : Store} {v : VarId} {b : Bool} (h : Updated s t) (hv : t.has v = true)
    (cause : Option PropId) (op : Operation) (hrun : Store.apply cause v op t = .ok b t') :
    Updated s t'
  | updateBounds {t t' : Store} {v : VarId} {b : Bool} (h : Updated s t) (hv : t.has v = true)
    (cause : Option PropId) (lo hi : Int) (hrun : Store.updateBounds cause v lo hi t = .ok b t') :
    Updated s t'
  | restrictTo {t t' : Store} {v : VarId} {b : Bool} (h : Updated s t) (hv : t.has v = true)
    (cause : Option PropId) (allowed : IntervalSet)
    (hrun : Store.restrictTo cause v allowed t = .ok b t') : Updated s t'

lemma Updated.tallies (hrun : Updated s t) (h : Tallies s s) : Tallies s t := by
  induction hrun with
  | refl => exact h
  | apply _ hv _ _ hrun ih =>
    exact (Ends.of_ok hrun (ends_apply ih.shrinks.wellFormed hv)).1.narrowing.tallies ih
  | updateBounds _ hv _ _ _ hrun ih =>
    exact (Ends.of_ok hrun (ends_updateBounds ih.shrinks.wellFormed hv _ _)).1.narrowing.tallies ih
  | restrictTo _ hv _ _ hrun ih =>
    exact (Ends.of_ok hrun (ends_restrictTo ih.shrinks.wellFormed hv _)).1.narrowing.tallies ih

/-- The events that are kept in `t` tell what is different from `s`. -/
structure Reports (s t : Store) : Prop where
  /-- No variable is listed twice. -/
  once : (Assoc.keys t.raised).Nodup
  /-- Those are listed whose domain changed. -/
  listed : ∀ v, (∃ set, (v, set) ∈ t.raised) ↔ t.domain v ≠ s.domain v
  removal : ∀ v set, (v, set) ∈ t.raised → .removal ∈ set
  lowerBound : ∀ v set, (v, set) ∈ t.raised → (.lowerBound ∈ set ↔ t.lower v ≠ s.lower v)
  upperBound : ∀ v set, (v, set) ∈ t.raised → (.upperBound ∈ set ↔ t.upper v ≠ s.upper v)
  assign : ∀ v set, (v, set) ∈ t.raised →
    (.assign ∈ set ↔ s.isFixed v = false ∧ t.isFixed v = true)

lemma Tallies.mem_iff (h : Tallies s t) {set : EventSet} (hset : (v, set) ∈ t.raised) (e : Event) :
    e ∈ set ↔ e ∈ EventSet.change (s.domain v) (t.domain v) := by
  rw [← h.heard, Assoc.heard_of_mem h.nodup hset]

lemma Tallies.reports (h : Tallies s t) (w : s.WellFormed) : Reports s t := by
  have w' := h.shrinks.wellFormed
  have hne : ∀ v set, (v, set) ∈ t.raised → t.domain v ≠ s.domain v := by
    intro v set hset
    obtain ⟨e, he⟩ := h.nonempty _ hset
    exact EventSet.ne_of_mem_change ((h.mem_iff hset e).1 he)
  refine ⟨h.nodup, fun v => ⟨fun ⟨set, hset⟩ => hne v set hset, fun hv => ?_⟩, ?_, ?_, ?_, ?_⟩
  · rw [← Assoc.mem_keys]
    by_contra hno
    have hheard := (h.heard v .removal).2 (EventSet.removal_mem_change.2 hv)
    rw [Assoc.heard_of_not_mem_keys hno] at hheard
    exact EventSet.not_mem_empty _ hheard
  · exact fun v set hset => (h.mem_iff hset _).2 (EventSet.removal_mem_change.2 (hne v set hset))
  · intro v set hset
    rw [h.mem_iff hset, EventSet.lowerBound_mem_change, w.lower_eq, w'.lower_eq]
  · intro v set hset
    rw [h.mem_iff hset, EventSet.upperBound_mem_change, w.upper_eq, w'.upper_eq]
  · intro v set hset
    rw [h.mem_iff hset, EventSet.assign_mem_change, w.isFixed_eq, w'.isFixed_eq]

/-- The events of a store that can be reached are taken, and then any variables are updated, with
success.  The events that can be taken now list each variable once, and those whose domain is
another one than before, roots as well as views.  All of them lost a value, and the other events
tell which bounds moved and whether the variable became fixed. -/
theorem changes_reported (h : s.Reachable) (hrun : Updated { s with raised := [] } t) :
    Reports s t := by
  obtain ⟨past, h⟩ := h
  have htaken := h.takeEvents
  have htallies := tallies_self htaken.wellFormed htaken.followed htaken.faithful rfl
  have hreports := (hrun.tallies htallies).reports htaken.wellFormed
  -- no answer depends on the events that were taken
  exact ⟨hreports.once, hreports.listed, hreports.removal, hreports.lowerBound,
    hreports.upperBound, hreports.assign⟩

/-- A hole decides a view and the view of that view, and then a bound of the root moves.
The other root was updated before the events were taken. -/
theorem changes_reported_punctured :
    let s₀ := (((({} : Store).addRoot (.ofList [-4, 0, 2, 7])).2.addView ⟨.equals 2, ⟨0⟩⟩).2.addView
      ⟨.negation, ⟨1⟩⟩).2
    let s₁ := (s₀.addRoot (.ofRange 1 3)).2
    let s := s₁.narrow ⟨⟨3⟩, .atMost 2, none⟩ (.atMost 2) (.ofRange 1 2)
    s.Reachable ∧ Assoc.keys s.raised = [⟨3⟩] ∧ ∃ t, Updated { s with raised := [] } t ∧
      t.raised = [(⟨0⟩, .ofList [.lowerBound, .removal]),
        (⟨1⟩, .ofList [.assign, .upperBound, .removal]),
        (⟨2⟩, .ofList [.assign, .lowerBound, .removal])] ∧ Reports s t := by
  intro s₀ s₁ s
  have h₀ : Branch [] s₀ := by
    refine .addView (.addView (.addRoot .empty ⟨0, by decide⟩ (by decide)) rfl nofun) rfl
      fun _ y hy => ?_
    have hy := Booleans.mem_toSet.1 hy
    omega
  have h₁ : Branch [] s₁ := h₀.addRoot ⟨1, by decide⟩ (by decide)
  have h : s.Reachable := ⟨_, h₁.update (r := ⟨⟨3⟩, .atMost 2, none⟩) rfl
    (request_eq_ok_true.2 ⟨_, _, by decide +kernel, rfl⟩)⟩
  have hview := (Updated.refl (s := { s with raised := [] })).apply (v := ⟨2⟩) (by decide) none
    (.atLeast 1) (request_eq_ok_true.2 ⟨.differs 2, .ofList [-4, 0, 7], by decide +kernel, rfl⟩)
  have hrun := hview.apply (v := ⟨0⟩) (by decide) none (.atLeast (-1))
    (request_eq_ok_true.2 ⟨.atLeast (-1), .ofList [0, 7], by decide +kernel, rfl⟩)
  exact ⟨h, by decide +kernel, _, hrun, by decide +kernel, changes_reported h hrun⟩

end Store

end FiniteDomain
