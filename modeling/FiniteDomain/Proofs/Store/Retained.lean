import Mathlib.Tactic
import FiniteDomain.Proofs.Store.Driven

/-!
What a checkpoint retains.

Variables stay when a store goes back to a checkpoint, also those that were created since.  All
that was there when the checkpoint was taken is again as it was, and the roots that came later
are as if nothing had ever been asked of them.

* `Store.Retains`: back at a level, a store is an earlier one with more variables;
* `Store.retains_mark`: this is so for the store at which a checkpoint is taken, and
  `Store.Retains.shrinks`, `Store.Retains.extend`, `Store.Retains.mark`, `Store.Retains.restore`:
  no change above the checkpoint touches it;
* `Store.Recovered`: what a store gets back, with `Store.Retains.recovered`.
-/

namespace FiniteDomain

namespace Store

variable {base s s' t : Store} {v r : VarId} {level n : Nat} {h : History} {vs : List VarId}

/-! ### Variables that stay -/

lemma Extends.trans (h : s.Extends s') (h' : s'.Extends t) : s.Extends t := by
  intro v
  refine ⟨fun h₀ vs hv => ?_, fun ws r hv => (h' v).2 ws r ((h v).2 ws r hv)⟩
  obtain ⟨vs', hv'⟩ := (h v).1 h₀ vs hv
  exact (h' v).1 h₀ vs' hv'

/-- A root is a new variable or was a root with the same history. -/
lemma Extends.root_before (hext : s.Extends s') (hr : s'.vars[r.index]? = some (.root h vs)) :
    ¬ s.has r = true ∨ ∃ vs', s.vars[r.index]? = some (.root h vs') := by
  cases hget : s.vars[r.index]? with
  | none =>
    refine .inl fun hhas => ?_
    rw [Array.getElem?_eq_getElem (has_iff.1 hhas)] at hget
    cases hget
  | some x =>
    cases x with
    | root h₀ vs₀ =>
      obtain ⟨vs', hget'⟩ := (hext r).1 h₀ vs₀ hget
      rw [hr] at hget'
      cases hget'
      exact .inr ⟨vs₀, rfl⟩
    | view ws r' =>
      have hget' := (hext r).2 ws r' hget
      rw [hr] at hget'
      cases hget'

lemma getElem?_restore_root {i : Nat} : (s.restore level).vars[i]? = some (.root h vs) ↔
    ∃ h₀, s.vars[i]? = some (.root h₀ vs) ∧ h = h₀.rewind (s.trail.extent level) := by
  simp only [restore, Array.getElem?_map, Option.map_eq_some_iff]
  constructor
  · rintro ⟨x, hx, heq⟩
    cases x <;> cases heq
    exact ⟨_, hx, rfl⟩
  · rintro ⟨h₀, hx, rfl⟩
    exact ⟨_, hx, rfl⟩

lemma getElem?_restore_view {i : Nat} {ws : Chain} :
    (s.restore level).vars[i]? = some (.view ws r) ↔
    s.vars[i]? = some (.view ws r) := by
  simp only [restore, Array.getElem?_map, Option.map_eq_some_iff]
  constructor
  · rintro ⟨x, hx, heq⟩
    cases x <;> cases heq
    exact hx
  · intro hx
    exact ⟨_, hx, rfl⟩

/-- Going back does not see the variables that were added. -/
lemma Extends.restore (hext : s.Extends s') (htrail : s'.trail = s.trail) (level : Nat) :
    (s.restore level).Extends (s'.restore level) := by
  intro v
  refine ⟨fun h vs hv => ?_, fun ws r hv => ?_⟩
  · obtain ⟨h₀, hold, rfl⟩ := getElem?_restore_root.1 hv
    obtain ⟨vs', hv'⟩ := (hext v).1 h₀ vs hold
    exact ⟨vs', getElem?_restore_root.2 ⟨h₀, hv', by rw [htrail]⟩⟩
  · exact getElem?_restore_view.2 ((hext v).2 ws r (getElem?_restore_view.1 hv))

/-- Going back to the current level changes no variable. -/
lemma WellFormed.extends_restore_level (w : s.WellFormed) :
    s.Extends (s.restore s.trail.level) := by
  intro v
  refine ⟨fun h vs hv => ⟨vs, getElem?_restore_root.2 ⟨h, hv, ?_⟩⟩,
    fun ws r hv => getElem?_restore_view.2 hv⟩
  have hroot : s.IsRoot v := ⟨h, vs, hv⟩
  have hhistory : s.history v = h := by rw [Store.history, hroot.root_eq, hv]
  rw [Trail.extent_level]
  have wh := hhistory ▸ w.history v hroot.has
  exact (wh.rewind_eq wh.lt_length).symm

/-! ### What lies below a checkpoint -/

/-- Back at the level of a checkpoint, the store `s` is the store `base` with more variables, of
which the roots were never narrowed. -/
structure Retains (base : Store) (level : Nat) (s : Store) : Prop where
  above : level < s.trail.level
  kept : base.Extends (s.restore level)
  trail : s.trail.cut level = base.trail
  fresh : ∀ (r : VarId) h vs, (s.restore level).vars[r.index]? = some (.root h vs) →
    base.has r = true ∨ h = { initial := h.initial }

/-- The store at which a checkpoint is taken. -/
lemma retains_mark (w : s.WellFormed) : s.Retains s.trail.level s.mark := by
  have hrestore := restore_mark (s := s) (Nat.le_refl s.trail.level)
  refine ⟨?_, ?_, Trail.cut_mark _, fun r h vs hr => .inl ?_⟩
  · change s.trail.level < s.trail.mark.level
    rw [Trail.level_mark]
    exact Nat.lt_succ_self _
  · rw [hrestore]
    exact w.extends_restore_level
  · rw [hrestore] at hr
    obtain ⟨_, hr, -⟩ := getElem?_restore_root.1 hr
    exact has_of_getElem? hr

namespace Retains

/-- Nothing but the store back at the level matters. -/
lemma of_restore_eq (hb : base.Retains level s) (habove : level < t.trail.level)
    (heq : t.restore level = s.restore level) : base.Retains level t where
  above := habove
  kept := heq ▸ hb.kept
  trail := (congrArg Store.trail heq).trans hb.trail
  fresh := heq ▸ hb.fresh

/-- Domains shrink above the last checkpoint. -/
lemma shrinks (hb : base.Retains level s) (hsh : s.Shrinks { t with failure := s.failure }) :
    base.Retains level t :=
  hb.of_restore_eq (hb.above.trans_eq hsh.level.symm) (hsh.restore level hb.above)

/-- The checkpoint does not see variables that are added. -/
lemma extend (hb : base.Retains level s) (hext : s.Extends s') (htrail : s'.trail = s.trail)
    (hnew : ∀ (r : VarId) h vs, s'.vars[r.index]? = some (.root h vs) →
      s.has r = true ∨ h = { initial := h.initial }) : base.Retains level s' where
  above := by
    rw [htrail]
    exact hb.above
  kept := hb.kept.trans (hext.restore htrail level)
  trail := by
    rw [htrail]
    exact hb.trail
  fresh r h vs hr := by
    obtain ⟨h₀, hold, rfl⟩ := getElem?_restore_root.1 hr
    rcases hext.root_before hold with hno | ⟨vs', hr'⟩
    · right
      rw [(hnew r h₀ vs hold).resolve_left hno]
      rfl
    · rw [htrail]
      exact hb.fresh r _ vs' (getElem?_restore_root.2 ⟨h₀, hr', rfl⟩)

lemma addRoot (hb : base.Retains level s) (d : IntervalSet) :
    base.Retains level (s.addRoot d).2 := by
  refine hb.extend (extends_addRoot s d) rfl fun r h vs hr => ?_
  refine (eq_of_has_addRoot (has_of_getElem? hr)).imp_right ?_
  rintro rfl
  rw [getElem?_addRoot] at hr
  cases hr
  rfl

lemma addView (hb : base.Retains level s) (w : View) : base.Retains level (s.addView w).2 := by
  refine hb.extend (extends_addView s w) rfl fun r h vs hr => ?_
  refine (eq_of_has_addView (has_of_getElem? hr)).imp_right ?_
  rintro rfl
  rw [getElem?_addView] at hr
  cases hr

/-- The checkpoint does not see those that are taken later. -/
lemma mark (hb : base.Retains level s) : base.Retains level s.mark := by
  refine hb.of_restore_eq ?_ (restore_mark hb.above.le)
  change level < s.trail.mark.level
  rw [Trail.level_mark]
  exact hb.above.trans (Nat.lt_succ_self _)

/-- The checkpoint outlasts going back to one that was taken later. -/
lemma restore (hb : base.Retains level s) (w : s.WellFormed) (hn : level < n) :
    base.Retains level (s.restore n) := by
  refine hb.of_restore_eq ?_ (restore_restore w hn.le)
  change level < (s.trail.cut n).level
  rw [Trail.level_cut_eq_min]
  exact Nat.lt_min.2 ⟨hn, hb.above⟩

end Retains

/-! ### What comes back -/

/-- The store `s` has got back all of `base`, and its other variables are as if they had been
created there. -/
structure Recovered (base s : Store) : Prop where
  trail : s.trail = base.trail
  has : ∀ v, base.has v = true → s.has v = true
  domainAt : ∀ v, base.has v = true → ∀ p, s.domainAt v p = base.domainAt v p
  domain : ∀ v, base.has v = true → s.domain v = base.domain v
  lower : ∀ v, base.has v = true → s.lower v = base.lower v
  upper : ∀ v, base.has v = true → s.upper v = base.upper v
  /-- What follows a root of `base` sees the domain that the root has there. -/
  image : ∀ v, s.has v = true → base.has (s.root v) = true →
    s.domain v = (s.chain v).image (base.domain (s.root v))
  /-- Whatever follows another root has its initial domain. -/
  initial : ∀ v, s.has v = true → ¬ base.has (s.root v) = true → s.domain v = s.initial v
  failure : s.failure = none
  raised : s.raised = []

/-- Going back brings back all that a checkpoint retains. -/
lemma Retains.recovered (hb : base.Retains level s) (wb : base.WellFormed) (w : s.WellFormed) :
    base.Recovered (s.restore level) := by
  have w' : (s.restore level).WellFormed := w.restore
  have hdomain : ∀ v, base.has v = true → (s.restore level).domain v = base.domain v :=
    fun v hv => hb.kept.domain wb hv
  refine ⟨hb.trail, fun v hv => hb.kept.has hv, fun v hv p => hb.kept.domainAt wb hv, hdomain,
    fun v hv => ?_, fun v hv => ?_, fun v hv hr => ?_, fun v hv hr => ?_, rfl, rfl⟩
  · rw [w'.lower_eq, hdomain v hv, wb.lower_eq]
  · rw [w'.upper_eq, hdomain v hv, wb.upper_eq]
  · have hroot := w'.isRoot_root v hv
    have hroot_domain : (s.restore level).domain ((s.restore level).root v)
        = ((s.restore level).history v).current := by
      rw [w'.domain_eq_image, hroot.chain_eq, Chain.image, w'.history_root hv]
    rw [← hdomain _ hr, hroot_domain, w'.domain_eq_image]
  · obtain ⟨h, vs, hget⟩ := w'.isRoot_root v hv
    have hcurrent : h.current = h.initial := by
      rw [(hb.fresh _ h vs hget).resolve_left hr, History.current_initial]
    rw [w'.domain_eq_image, Store.initial, history, hget]
    dsimp only
    rw [hcurrent]

end Store

end FiniteDomain
