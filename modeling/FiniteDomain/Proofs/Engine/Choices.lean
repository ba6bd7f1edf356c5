import Mathlib.Tactic
import FiniteDomain.Proofs.Engine.Fixpoint

/-!
Decisions that were made and not taken back.

Whatever no propagator asked for goes back to a decision.  As long as a decision is not taken
back, the values that it asks for are all that is left, now and at all checkpoints since.

* `Choice`: a decision, and the number of checkpoints when it was made;
* `Engine.Chosen`: what the engine owes to some choices;
* `Engine.Move.chosen`, `Engine.Decides.chosen`, `Engine.Chosen.marked`,
  `Engine.Chosen.goBack`: this is kept, whatever calls of the engine do.
-/

namespace FiniteDomain

/-- A decision on a variable, and the number of checkpoints when it was made. -/
structure Choice where
  level : Nat
  var : VarId
  decision : Decision
  deriving DecidableEq

/-- The decision, whenever it was made. -/
def Choice.asked (k : Choice) : VarId × Decision := (k.var, k.decision)

/-- The choice asks for the value, or nothing takes it away. -/
def Choice.Allows (k : Choice) (x : Int) : Prop := k.decision.Holds x ∨ x = Value.greatest

/-- The request is one that all values of the domain satisfy which the choice asks for. -/
def Choice.Makes (k : Choice) (d : IntervalSet) (r : Request) : Prop :=
  r.var = k.var ∧ ∀ x, x ∈ d → k.decision.Holds x → r.operation.Holds x

/-- The choices of the levels up to one. -/
def Choice.upTo (level : Nat) (ks : List Choice) : List Choice :=
  ks.filter fun k => decide (k.level ≤ level)

lemma Choice.mem_upTo {level : Nat} {k : Choice} {ks : List Choice} :
    k ∈ upTo level ks ↔ k ∈ ks ∧ k.level ≤ level := by
  rw [upTo, List.mem_filter, decide_eq_true_iff]

lemma Choice.upTo_eq_self {level : Nat} {ks : List Choice} (h : ∀ k ∈ ks, k.level ≤ level) :
    upTo level ks = ks :=
  List.filter_eq_self.2 fun k hk => decide_eq_true (h k hk)

namespace Engine

variable {e e' : Engine} {ks ks' : List Choice}

/-- What no propagator asked for was asked for by one of the choices, which are all from levels
that were not left since.  The domains obey the choices, now and at the checkpoints behind
them. -/
structure Chosen (ks : List Choice) (e : Engine) : Prop where
  has : ∀ k ∈ ks, e.store.has k.var = true
  level : ∀ k ∈ ks, k.level ≤ e.level
  entry : ∀ (p : Nat) (u : Update), e.store.trail.entries[p]? = some u → u.request.cause = none →
    ∃ k ∈ ks, k.Makes (e.store.domainAt k.var p) u.request ∧
      ∀ level, p < e.store.trail.extent level → k.level ≤ level
  failure : ∀ r, e.store.failure = some r → r.cause = none →
    ∃ k ∈ ks, ∀ x, x ∈ e.store.domain k.var → ¬ k.decision.Holds x
  kept : e.conflict = none → ∀ k ∈ ks, ∀ x, x ∈ e.store.domain k.var → k.Allows x
  below : ∀ k ∈ ks, ∀ level, k.level ≤ level → level < e.level →
    ∀ x, x ∈ e.store.domainAt k.var (e.store.trail.extent level) → k.Allows x

lemma chosen_empty (strategy : Strategy) : Chosen [] { strategy := strategy } where
  has k hk := absurd hk List.not_mem_nil
  level k hk := absurd hk List.not_mem_nil
  entry p u hu := by simp [store] at hu
  failure r hr := by cases hr
  kept _ k hk := absurd hk List.not_mem_nil
  below k hk := absurd hk List.not_mem_nil

/-- Nothing happened to the variables that there were. -/
lemma Chosen.extend (h : e.Chosen ks) (hhas : ∀ v, e.store.has v = true → e'.store.has v = true)
    (hdomain : ∀ v, e.store.has v = true → e'.store.domain v = e.store.domain v)
    (hdomainAt : ∀ v, e.store.has v = true → ∀ p, e'.store.domainAt v p = e.store.domainAt v p)
    (htrail : e'.store.trail = e.store.trail) (hfailure : e'.store.failure = e.store.failure)
    (hconflict : e'.conflict = e.conflict) : e'.Chosen ks := by
  have hlevel : e'.level = e.level := congrArg Trail.level htrail
  refine ⟨fun k hk => hhas _ (h.has k hk), fun k hk => hlevel ▸ h.level k hk,
    fun p u hu hnone => ?_,
    fun r hr hnone => ?_, fun hnone k hk x hx => ?_, fun k hk level hle hl x hx => ?_⟩
  · rw [htrail] at hu ⊢
    obtain ⟨k, hk, hg, hextent⟩ := h.entry p u hu hnone
    rw [← hdomainAt _ (h.has k hk)] at hg
    exact ⟨k, hk, hg, hextent⟩
  · obtain ⟨k, hk, hno⟩ := h.failure r (hfailure ▸ hr) hnone
    exact ⟨k, hk, fun x hx => hno x (hdomain _ (h.has k hk) ▸ hx)⟩
  · exact h.kept (hconflict ▸ hnone) k hk x (hdomain _ (h.has k hk) ▸ hx)
  · rw [htrail, hdomainAt _ (h.has k hk)] at hx
    exact h.below k hk level hle (hlevel ▸ hl) x hx

/-- Domains shrink, for new choices or for propagators. -/
lemma Chosen.shrink (h : e.Chosen ks)
    (hsh : e.store.Shrinks { e'.store with failure := e.store.failure })
    (hold : ∀ k ∈ ks, k ∈ ks')
    (hks : ∀ k ∈ ks', k ∈ ks ∨ k.level = e.level ∧ e.store.has k.var = true)
    (hentry : ∀ (p : Nat) (u : Update), e.store.length ≤ p →
      e'.store.trail.entries[p]? = some u → u.request.cause = none → ∃ k ∈ ks', k.level = e.level ∧
        k.Makes (e'.store.domainAt k.var p) u.request)
    (hfailure : ∀ r, e'.store.failure = some r → r.cause = none →
      ∃ k ∈ ks', ∀ x, x ∈ e'.store.domain k.var → ¬ k.decision.Holds x)
    (hkept : e'.conflict = none → ∀ k ∈ ks', ∀ x, x ∈ e'.store.domain k.var → k.Allows x)
    (w : e.store.WellFormed) : e'.Chosen ks' := by
  have hlevel : e'.level = e.level := hsh.level
  have hextent : ∀ level, level < e.level →
      e'.store.trail.extent level = e.store.trail.extent level := hsh.extent
  have hle : ∀ level, e.store.trail.extent level ≤ e.store.length :=
    fun level => w.trail.extent_le_length
  have hdomainAt : ∀ v p, p ≤ e.store.length → e'.store.domainAt v p = e.store.domainAt v p :=
    hsh.domainAt
  refine ⟨fun k hk => (hsh.has _).trans ?_, fun k hk => hlevel ▸ ?_, fun p u hu hnone => ?_,
    hfailure, hkept, fun k hk level hk' hl x hx => ?_⟩
  · exact (hks k hk).elim (h.has k) And.right
  · exact (hks k hk).elim (h.level k) fun hk => hk.1.le
  · rcases Nat.lt_or_ge p e.store.length with hp | hp
    · have hu' : e.store.trail.entries[p]? = some u := (hsh.entry p hp).symm.trans hu
      obtain ⟨k, hk, hg, hbefore⟩ := h.entry p u hu' hnone
      refine ⟨k, hold k hk, ?_, fun level hl => ?_⟩
      · rwa [hdomainAt _ _ hp.le]
      · rcases Nat.lt_or_ge level e.level with hlt | hge
        · exact hbefore level (hextent level hlt ▸ hl)
        · exact (h.level k hk).trans hge
    · obtain ⟨k, hk, hlev, hg⟩ := hentry p u hp hu hnone
      refine ⟨k, hk, hg, fun level hl => hlev.trans_le (Nat.le_of_not_lt fun hlt => ?_)⟩
      rw [hextent level hlt] at hl
      exact absurd (hl.trans_le (hle level)) (Nat.not_lt.2 hp)
  · rw [hlevel] at hl
    rw [hextent level hl, hdomainAt _ _ (hle level)] at hx
    rcases hks k hk with hk | ⟨hk, -⟩
    · exact h.below k hk level hk' hl x hx
    · omega

/-- Propagators ask for nothing that choices are about. -/
lemma Chosen.of_drives (h : e.Chosen ks) (hd : Drives e e') (w : e.store.WellFormed)
    (hconflict : e'.conflict = none → e.conflict = none) : e'.Chosen ks := by
  have hsh := hd.store.shrinks
  refine h.shrink hsh (fun _ => id) (fun _ => .inl) (fun p u hp hu hnone => ?_)
    (fun r hr hnone => ?_)
    (fun hnone k hk x hx => h.kept (hconflict hnone) k hk x (hsh.domain _ _ hx)) w
  · have := hd.store.caused p u hp hu
    rw [hnone] at this
    cases this
  · rcases hd.store.refused r hr with hr | hcause
    · obtain ⟨k, hk, hno⟩ := h.failure r hr hnone
      exact ⟨k, hk, fun x hx => hno x (hsh.domain _ _ hx)⟩
    · rw [hnone] at hcause
      cases hcause

/-- Moves keep what is owed to choices. -/
lemma Move.chosen (hmove : Move e e') (inv : e.Invariant) (hs : e.Scheduled) (h : e.Chosen ks) :
    e'.Chosen ks := by
  have w : e.store.WellFormed := inv.consistent.store
  cases hmove with
  | account ha =>
    have hstore : e'.store = e.store := congrArg Space.store ha.space
    refine h.extend ?_ ?_ ?_ ?_ ?_ ha.conflict
    all_goals rw [hstore]
    · exact fun _ => id
    · exact fun _ _ => rfl
    · exact fun _ _ _ => rfl
  | @newRoot d hd hr =>
    have hext := Store.extends_addRoot e.store d
    exact h.extend (fun _ => hext.has) (fun _ => hext.domain w) (fun _ hv p => hext.domainAt w hv)
      rfl rfl rfl
  | @newView v hb hneg =>
    have hext := Store.extends_addView e.store v
    exact h.extend (fun _ => hext.has) (fun _ => hext.domain w) (fun _ hv p => hext.domainAt w hv)
      rfl rfl rfl
  | accept =>
    exact h.extend (fun _ => id) (fun _ _ => rfl) (fun _ _ _ => rfl) rfl rfl rfl
  | propagate hrun =>
    have hends := scheduled_propagate inv hs
    rcases hrun with ⟨r, hrun⟩ | ⟨x, hrun⟩
    · have hsettles := Ends.of_ok hrun hends
      refine h.of_drives hsettles.drives w fun hnone => ?_
      cases r with
      | ok a => exact (hsettles.quiet rfl).1
      | error i =>
        rw [hsettles.failed i rfl] at hnone
        cases hnone
    · exact (Ends.of_error hrun hends).elim

/-- Moves take no checkpoints and go back to none. -/
lemma Move.level (hmove : Move e e') (inv : e.Invariant) (hs : e.Scheduled) :
    e'.level = e.level := by
  cases hmove with
  | account ha => exact congrArg (fun s : Space => s.store.trail.level) ha.space
  | newRoot => rfl
  | newView => rfl
  | accept => rfl
  | propagate hrun =>
    have hends := scheduled_propagate inv hs
    rcases hrun with ⟨r, hrun⟩ | ⟨x, hrun⟩
    · exact (Ends.of_ok hrun hends).drives.level
    · exact (Ends.of_error hrun hends).elim

lemma Moves.level (hmoves : Moves e e') (inv : e.Invariant) (hs : e.Scheduled) :
    e'.level = e.level :=
  hmoves.keep (P := fun e' => e'.level = e.level) inv hs
    (fun _ _ hmove inv₁ hs₁ hlevel => (hmove.level inv₁ hs₁).trans hlevel) rfl

lemma Moves.chosen (hmoves : Moves e e') (inv : e.Invariant) (hs : e.Scheduled)
    (h : e.Chosen ks) : e'.Chosen ks ∧ e'.level = e.level :=
  ⟨hmoves.keep inv hs (fun _ _ hmove inv₁ hs₁ h₁ => hmove.chosen inv₁ hs₁ h₁) h,
    hmoves.level inv hs⟩

/-- A decision is one more choice. -/
lemma Decides.chosen {v : VarId} {d : Decision} {r : Except Inconsistency Bool}
    (hdecides : Decides v d e r e') (inv : e.Invariant) (h : e.Chosen ks)
    (hnone : e.conflict = none) (hv : e.store.has v = true) :
    e'.Chosen (⟨e.level, v, d⟩ :: ks) := by
  have w : e.store.WellFormed := inv.consistent.store
  have hready : e.store.failure = none := (inv.ready hnone).failure
  have hks : ∀ k ∈ (⟨e.level, v, d⟩ : Choice) :: ks,
      k ∈ ks ∨ k.level = e.level ∧ e.store.has k.var = true := by
    intro k hk
    rcases List.mem_cons.1 hk with rfl | hk
    · exact .inr ⟨rfl, hv⟩
    · exact .inl hk
  have hentry : ∀ {t : Store}, Store.Narrowing (d.Grounds v) none e.store t →
      ∀ {t' : Store}, t'.vars = t.vars → t'.trail = t.trail →
      ∀ (p : Nat) (u : Update), e.store.length ≤ p → t'.trail.entries[p]? = some u →
        u.request.cause = none → ∃ k ∈ (⟨e.level, v, d⟩ : Choice) :: ks, k.level = e.level ∧
          k.Makes (t'.domainAt k.var p) u.request := by
    intro t hn t' hvars htrail p u hp hu _
    refine ⟨_, List.mem_cons_self, rfl, ?_⟩
    rw [Store.domainAt_congr hvars]
    exact (hn.entry w hp (htrail ▸ hu)).2
  cases hdecides with
  | @granted b t hn hleaves =>
    have halike := alike_told e none { e.space with store := t }
    have hsh := hn.shrinks w
    have hdomain : ∀ v, (told e none { e.space with store := t }).store.domain v = t.domain v :=
      congrFun halike.domain
    refine h.shrink (hsh.congr rfl rfl halike.vars halike.trail rfl)
      (fun k hk => List.mem_cons_of_mem _ hk) hks (hentry hn halike.vars halike.trail)
      (fun r hr _ => ?_) (fun _ k hk x hx => ?_) w
    · rw [halike.failure] at hr
      have hfailure : t.failure = none := hsh.failure.trans hready
      cases hfailure.symm.trans hr
    · rw [hdomain] at hx
      rcases List.mem_cons.1 hk with rfl | hk
      · rcases hleaves with hmem | ⟨-, hgreatest⟩
        · exact .inl ((hmem x).1 hx).2
        · exact .inr (hgreatest x hx)
      · exact h.kept hnone k hk x (hsh.domain _ _ hx)
  | @refused i t hr hno =>
    obtain ⟨hn, -, -, -⟩ := hr
    have hsh := hn.shrinks w
    refine h.shrink (hsh.congr rfl rfl rfl rfl rfl) (fun k hk => List.mem_cons_of_mem _ hk) hks
      (hentry hn rfl rfl) (fun r hr _ => ⟨_, List.mem_cons_self, fun x hx => ?_⟩) ?_ w
    · exact hno x (hsh.domain _ _ hx)
    · intro h
      cases h

/-- A checkpoint is behind all choices. -/
lemma Chosen.marked (h : e.Chosen ks) (w : e.store.WellFormed) (hnone : e.conflict = none) :
    e.marked.Chosen ks := by
  have hextent : ∀ level, e.marked.store.trail.extent level = e.store.trail.extent level :=
    fun level => Trail.extent_mark
  refine ⟨h.has, fun k hk => (h.level k hk).trans ?_, fun p u hu hcause => ?_, h.failure, h.kept,
    fun k hk level hle hl x hx => ?_⟩
  · rw [level_marked]
    exact Nat.le_succ _
  · obtain ⟨k, hk, hg, hbefore⟩ := h.entry p u hu hcause
    exact ⟨k, hk, hg, fun level hl => hbefore level (hextent level ▸ hl)⟩
  · rw [level_marked] at hl
    rw [hextent] at hx
    rcases Nat.lt_or_eq_of_le (Nat.le_of_lt_succ hl) with hlt | rfl
    · exact h.below k hk level hle hlt x hx
    · have hlength : e.store.trail.extent e.level = e.store.length := Trail.extent_level _
      refine h.kept hnone k hk x ?_
      rwa [w.domain_eq_domainAt (h.has k hk) (Nat.le_refl _), ← hlength]

/-- Going back takes back the choices of the levels that are left. -/
lemma Chosen.goBack (h : e.Chosen ks) (w : e.store.WellFormed) {level : Nat}
    (hl : level < e.level) :
    (e.goBack level).Chosen (Choice.upTo level ks) := by
  have halike := alike_goBack e level
  have hvars : (e.goBack level).store.vars = (e.store.restore level).vars := halike.vars
  have htrail : (e.goBack level).store.trail = e.store.trail.cut level := halike.trail
  have hdomain : (e.goBack level).store.domain = fun v =>
      e.store.domainAt v (e.store.trail.extent level) :=
    halike.domain.trans (Store.domain_restore w level)
  have hlevel := level_goBack hl
  have hextent : ∀ i, (e.goBack level).store.trail.extent i
      = e.store.trail.extent (min i level) := by
    intro i
    rw [htrail]
    exact Trail.extent_cut w.trail
  have hdomainAt : ∀ v q, q ≤ e.store.trail.extent level →
      (e.goBack level).store.domainAt v q = e.store.domainAt v q := by
    intro v q hq
    rw [Store.domainAt_congr hvars]
    exact Store.domainAt_restore w v hq
  refine ⟨fun k hk => ?_, fun k hk => ?_, fun p u hu hnone => ?_, fun r hr => ?_,
    fun _ k hk x hx => ?_, fun k hk i hle hi x hx => ?_⟩
  · rw [Store.has_congr hvars, (Store.maps_restore e.store level).has]
    exact h.has k (Choice.mem_upTo.1 hk).1
  · rw [hlevel]
    exact (Choice.mem_upTo.1 hk).2
  · rw [htrail, Trail.getElem?_cut w.trail] at hu
    split at hu
    · rename_i hp
      obtain ⟨k, hk, hg, hbefore⟩ := h.entry p u hu hnone
      refine ⟨k, Choice.mem_upTo.2 ⟨hk, hbefore level hp⟩, ?_, fun i hi => ?_⟩
      · rwa [hdomainAt _ _ hp.le]
      · rw [hextent] at hi
        exact (hbefore _ hi).trans (Nat.min_le_left _ _)
    · cases hu
  · rw [halike.failure] at hr
    cases hr
  · obtain ⟨hk, hle⟩ := Choice.mem_upTo.1 hk
    rw [hdomain] at hx
    exact h.below k hk level hle hl x hx
  · rw [hlevel] at hi
    obtain ⟨hk, -⟩ := Choice.mem_upTo.1 hk
    rw [hextent, Nat.min_eq_left hi.le, hdomainAt _ _ (w.trail i level hi.le)] at hx
    exact h.below k hk i hle (hi.trans hl) x hx

end Engine

end FiniteDomain
