import Mathlib.Tactic
import FiniteDomain.Proofs.Engine.Propagation

/-!
Checkpoints and new variables keep the invariant.

* `Engine.keeps_checkpoint`: a checkpoint is taken where all active propagators are up
  to date;
* `Engine.invariant_goBack`, `Engine.keeps_restore`: below the current level they were
  up to date when the checkpoint was taken;
* `Engine.ends_newRoot`, `Engine.ends_newView`: what holds once a variable is created, with
  `Engine.keeps_newVariable`, `Engine.keeps_newView`: nothing is known yet of a new variable.
-/

namespace FiniteDomain

namespace Engine

variable {e e' : Engine} {level : Nat}

/-! ### Checkpoints -/

lemma keeps_checkpoint (inv : e.Invariant) : Keeps checkpoint e := by
  rw [checkpoint]
  refine keeps_get (keeps_require inv fun hidle => keeps_get (keeps_require inv fun _ => ?_))
  refine keeps_get ?_
  have hnone : e.conflict = none := by simpa [isFailed] using hidle
  have hr := inv.ready hnone
  refine ends_bind_set (ends_pure ⟨?_, ?_⟩)
  · have hmark : Space.Ready
        { e.space with store := e.store.mark, memory := e.memory.mark } e.propagators :=
      ⟨hr.failure, fun i q hq hact => (hr.tracked i q hq hact).congr fun _ _ _ => rfl⟩
    refine ⟨inv.consistent.mark hr, fun _ => hmark, fun h => ?_⟩
    change e.conflict.isSome = true at h
    rw [hnone] at h
    cases h
  · exact ⟨Store.continues_mark _, rfl⟩

lemma alike_goBack (e : Engine) (level : Nat) : Alike (e.rewound level) (e.goBack level) :=
  alike_foldl alike_requeue (e.rewound level).propIds (e.rewound level)

lemma propagators_rewound (e : Engine) (level : Nat) :
    (e.rewound level).propagators = e.propagators := propagators_clearPending e

/-- The engine back at a level below the current one. -/
lemma invariant_goBack (inv : e.Invariant) (hl : level < e.level) :
    (e.goBack level).Invariant ∧ Follows e (e.goBack level) := by
  obtain ⟨hc, hr⟩ := inv.consistent.restore hl
  have hpropagators := propagators_rewound e level
  have hinv : (e.rewound level).Invariant := by
    refine ⟨?_, fun _ => ?_, nofun⟩
    · rw [hpropagators]
      exact hc
    · rw [hpropagators]
      exact hr
  have hfollows : Follows e (e.rewound level) :=
    ⟨Store.continues_restore inv.consistent.store hl, hpropagators⟩
  have halike := alike_goBack e level
  exact ⟨halike.invariant hinv, hfollows.trans halike.follows⟩

lemma keeps_restore (inv : e.Invariant) (hl : level < e.level) : Keeps (restore level) e := by
  rw [restore]
  refine keeps_get (keeps_require inv fun _ => ends_modify ?_)
  exact invariant_goBack inv hl

/-! ### New variables -/

lemma alike_rename (e : Engine) (v : VarId) (name : Option String) :
    Alike e (e.rename v name) := by
  cases name <;> exact ⟨rfl, rfl, rfl, rfl, rfl, rfl, rfl⟩

/-- New variables leave the rest of the engine as it is. -/
lemma invariant_extend (inv : e.Invariant) {store : Store} (w : store.WellFormed)
    (hext : e.store.Extends store) (htrail : store.trail = e.store.trail)
    (hfailure : store.failure = e.store.failure) :
    Invariant { e with space := { e.space with store := store } } ∧
      Follows e { e with space := { e.space with store := store } } := by
  have h := inv.consistent.extend (t := { e.space with store := store }) w hext htrail hfailure rfl
  refine ⟨⟨h.1, fun hnone => h.2 (inv.ready hnone), fun hsome hobs => ?_⟩, ?_⟩
  · change store.failure.isSome = true
    rw [hfailure]
    exact inv.failed hsome hobs
  · exact ⟨hext.continues inv.consistent.store htrail, rfl⟩

section New

variable {Q : Engine → Prop}

/-- A new root is added, if its domain has a value. -/
lemma ends_newRoot {d : IntervalSet} (name : Option String) (hsame : Q e)
    (hnew : (∃ x, x ∈ d) → Q (Engine.rename
      { e with space := { e.space with store := (e.store.addRoot d).2 } }
      (e.store.addRoot d).1 name)) :
    Ends (newRoot d name) e (fun _ => Q) fun _ => Q := by
  rw [newRoot]
  refine ends_bind_get (ends_bind_require hsame fun _ => ends_bind_require hsame fun hne => ?_)
  refine ends_bind_get (ends_bind_set (ends_pure (hnew ?_)))
  rw [← IntervalSet.isEmpty_eq_false_iff]
  simpa using hne

section Root

variable (name : Option String) (hsame : Q e)
  (hnew : ∀ d : IntervalSet, (∃ x, x ∈ d) → d.InRange → Q (Engine.rename
    { e with space := { e.space with store := (e.store.addRoot d).2 } }
    (e.store.addRoot d).1 name))

include hsame hnew

/-- The values between two bounds are in range when the bounds are. -/
lemma ends_newVariable {lo hi : Int} (hlo : Value.InRange lo) (hhi : Value.InRange hi) :
    Ends (newVariable lo hi name) e (fun _ => Q) fun _ => Q := by
  rw [newVariable]
  refine ends_bind_require hsame fun _ => ends_newRoot name hsame fun hne => hnew _ hne ?_
  intro x hx
  have hbounds := IntervalSet.mem_ofRange.1 hx
  exact ⟨hlo.1.trans hbounds.1, hbounds.2.trans hhi.2⟩

lemma ends_newSparseVariable {values : List Int} (hvalues : ∀ x ∈ values, Value.InRange x) :
    Ends (newSparseVariable values name) e (fun _ => Q) fun _ => Q := by
  rw [newSparseVariable]
  exact ends_newRoot name hsame fun hne =>
    hnew _ hne fun x hx => hvalues x (IntervalSet.mem_ofList.1 hx)

end Root

/-- A new view is added to a base that exists, a negation to a boolean one. -/
lemma ends_newView (w : View) (hsame : Q e) (hnew : e.store.has w.base = true →
      (w.condition = .negation → ∀ y, y ∈ e.store.initial w.base → y = 0 ∨ y = 1) →
      Q { e with space := { e.space with store := (e.store.addView w).2 } }) :
    Ends (newView w) e (fun _ => Q) fun _ => Q := by
  rw [newView]
  refine ends_bind_get (ends_bind_require hsame fun hb => ?_)
  dsimp only
  by_cases hcond : w.condition = .negation
  · rw [if_pos hcond]
    refine ends_bind_require hsame fun hsub => ends_bind_set (ends_pure (hnew hb fun _ y hy => ?_))
    have := IntervalSet.mem_ofRange.1 (IntervalSet.isSubset_iff.1 hsub y hy)
    omega
  · rw [if_neg hcond]
    exact ends_bind_set (ends_pure (hnew hb fun h => absurd h hcond))

end New

/-- A new root keeps the invariant. -/
lemma invariant_newRoot (inv : e.Invariant) (name : Option String) (d : IntervalSet)
    (hne : ∃ x, x ∈ d) (hd : d.InRange) :
    (Engine.rename { e with space := { e.space with store := (e.store.addRoot d).2 } }
        (e.store.addRoot d).1 name).Invariant ∧
      Follows e (Engine.rename { e with space := { e.space with store := (e.store.addRoot d).2 } }
        (e.store.addRoot d).1 name) := by
  have h := invariant_extend inv (inv.consistent.store.addRoot hne hd)
    (Store.extends_addRoot _ _) rfl rfl
  have halike := alike_rename { e with space := { e.space with store := (e.store.addRoot d).2 } }
    (e.store.addRoot d).1 name
  exact ⟨halike.invariant h.1, h.2.trans halike.follows⟩

lemma keeps_newVariable (inv : e.Invariant) {lo hi : Int} (hlo : Value.InRange lo)
    (hhi : Value.InRange hi) (name : Option String) : Keeps (newVariable lo hi name) e :=
  ends_newVariable name ⟨inv, .refl e⟩ (invariant_newRoot inv name) hlo hhi

lemma keeps_newSparseVariable (inv : e.Invariant) {values : List Int}
    (hvalues : ∀ x ∈ values, Value.InRange x) (name : Option String) :
    Keeps (newSparseVariable values name) e :=
  ends_newSparseVariable name ⟨inv, .refl e⟩ (invariant_newRoot inv name) hvalues

lemma keeps_newView (inv : e.Invariant) (w : View) : Keeps (newView w) e :=
  ends_newView w ⟨inv, .refl e⟩ fun hb hneg =>
    invariant_extend inv (inv.consistent.store.addView hb hneg) (Store.extends_addView _ _) rfl rfl

end Engine

end FiniteDomain
