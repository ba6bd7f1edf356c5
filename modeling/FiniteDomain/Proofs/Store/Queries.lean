import Mathlib.Tactic
import FiniteDomain.Proofs.IntervalSet
import FiniteDomain.Proofs.Store.Branch
import FiniteDomain.Proofs.Store.Events

/-!
What is asked of a variable.

The bounds of a variable, the membership of a value and the set of all its values are worked out
in different ways: for a root from the bounds and the holes that its updates entered, for a view
from two flags, which need the bounds of its base and the membership of two values there.  In a
store that can be reached they are all about one set, and the set of a view is the image of that of
its root.

* `Store.Base`: a view and the variable that it is a view of;
* `Store.Layered`: a view came after its base, with `Store.Branch.layered`, and
  `Store.Branch.followed`: both hold in all stores that can be reached;
* `Store.Coherent`: all answers about a variable describe its domain;
* `Store.Grounded`: what a variable has from its root;
* `Store.queries_agree`: all variables are of both kinds.
-/

namespace FiniteDomain

namespace Store

variable {past : List Store} {s s' : Store} {v u : VarId}

/-! ### Views and their bases -/

/-- The variable `v` is a view of `u`. -/
def Base (s : Store) (v u : VarId) : Prop := ∃ w, s.view? v = some w ∧ w.base = u

/-- A view came after its base. -/
def Layered (s : Store) : Prop := ∀ v u, s.Base v u → u.index < v.index

lemma view?_eq_some {w : View} : s.view? v = some w ↔ ∃ ws, s.chain v = w :: ws := by
  rw [view?, List.head?_eq_some_iff]

lemma Base.has (h : s.Base v u) : s.has v = true := by
  obtain ⟨w, hw, -⟩ := h
  obtain ⟨ws, hchain⟩ := view?_eq_some.1 hw
  by_contra hv
  rw [(history_of_not_has hv).1] at hchain
  cases hchain

lemma Layered.congr (h : s.Layered) (hchain : ∀ v, s'.chain v = s.chain v) : s'.Layered := by
  rintro v u ⟨w, hw, hu⟩
  rw [view?, hchain] at hw
  exact h v u ⟨w, hw, hu⟩

lemma Layered.extend (h : s.Layered) (hext : s.Extends s')
    (hnew : ∀ v, s'.has v = true → s.has v = true ∨ ∀ u, s'.Base v u → u.index < v.index) :
    s'.Layered := by
  intro v u hbase
  rcases hnew v hbase.has with hold | hnew
  · obtain ⟨w, hw, hu⟩ := hbase
    rw [view?, hext.chain hold] at hw
    exact h v u ⟨w, hw, hu⟩
  · exact hnew u hbase

/-- A new variable has the next number, and can be a view of older ones only. -/
lemma Branch.layered (h : Branch past s) : s.Layered := by
  induction h with
  | empty => exact fun v u hbase => absurd (has_iff.1 hbase.has) (Nat.not_lt_zero _)
  | @addRoot past s d h _ _ ih =>
    refine ih.extend (extends_addRoot s d) fun v hv => (eq_of_has_addRoot hv).imp_right ?_
    rintro rfl u ⟨w, hw, -⟩
    obtain ⟨ws, hchain⟩ := view?_eq_some.1 hw
    rw [IsRoot.chain_eq ⟨_, _, getElem?_addRoot s d⟩] at hchain
    cases hchain
  | @addView past s w h hb _ ih =>
    refine ih.extend (extends_addView s w) fun v hv => (eq_of_has_addView hv).imp_right ?_
    rintro rfl u ⟨w', hw, rfl⟩
    obtain ⟨ws, hchain⟩ := view?_eq_some.1 hw
    rw [chain_addView] at hchain
    cases hchain
    exact has_iff.1 hb
  | update _ _ hrun ih =>
    obtain ⟨rop, d, -, rfl⟩ := request_eq_ok_true.1 hrun
    exact ih.congr (maps_narrow _ _ _ _).chain
  | fail _ _ ih => exact ih.congr fun _ => rfl
  | takeEvents _ ih => exact ih.congr fun _ => rfl
  | mark _ ih => exact ih.congr fun _ => rfl
  | restore _ level ih => exact ih.congr (maps_restore _ level).chain

lemma Branch.followed (h : Branch past s) : s.Followed := by
  induction h with
  | empty => exact followed_empty
  | addRoot h _ _ ih => exact ih.addRoot h.wellFormed _
  | addView h hb _ ih => exact ih.addView h.wellFormed hb
  | update _ _ hrun ih =>
    obtain ⟨rop, d, -, rfl⟩ := request_eq_ok_true.1 hrun
    exact (maps_narrow _ _ _ _).followed ih
  | fail _ _ ih => exact ih.congr rfl
  | takeEvents _ ih => exact ih.congr rfl
  | mark _ ih => exact ih.congr rfl
  | restore _ level ih => exact ih.restore level

/-- Nothing is a view of itself, not even over other views. -/
lemma Layered.acyclic (h : s.Layered) : ¬ Relation.TransGen s.Base v v := by
  have hlt : ∀ u, Relation.TransGen s.Base v u → u.index < v.index := by
    intro u hu
    induction hu with
    | single hbase => exact h _ _ hbase
    | tail _ hbase ih => exact (h _ _ hbase).trans ih
  exact fun hv => Nat.lt_irrefl _ (hlt v hv)

/-- The base of a view, of which the view has the rest of its chain and its root. -/
lemma WellFormed.linked_base (w : s.WellFormed) (hv : s.has v = true) {x : View}
    (hx : s.view? v = some x) :
    s.has x.base = true ∧ s.chain v = x :: s.chain x.base ∧ s.root x.base = s.root v := by
  obtain ⟨ws, hchain⟩ := view?_eq_some.1 hx
  obtain ⟨hhas, hbase, hroot⟩ := w.linked v hv x ws hchain
  exact ⟨hhas, by rw [hchain, hbase], hroot⟩

/-- From base to base a view leads to its root. -/
lemma WellFormed.path_root (w : s.WellFormed) (hf : s.Followed) (hv : s.has v = true) :
    Relation.ReflTransGen s.Base v (s.root v) := by
  generalize hchain : s.chain v = ws
  induction ws generalizing v with
  | nil =>
    have hroot : s.root v = v := by
      by_contra hne
      exact (hf v hv hne).2 hchain
    rw [hroot]
  | cons x ws ih =>
    obtain ⟨hhas, hbase, hroot⟩ := w.linked v hv x ws hchain
    have hstep : s.Base v x.base := ⟨x, view?_eq_some.2 ⟨ws, hchain⟩, rfl⟩
    exact .head hstep (hroot ▸ ih hhas hbase)

/-! ### Answers -/

/-- All that is asked of the variable is answered as for one set of values. -/
structure Coherent (s : Store) (v : VarId) : Prop where
  nonempty : (s.domain v).members.Nonempty
  /-- The set is in canonical form, and has the values that the variable is said to take. -/
  represents : (s.domain v).Represents {k | s.contains v k = true}
  lower : IsLeast (s.domain v).members (s.lower v)
  upper : IsGreatest (s.domain v).members (s.upper v)
  fixed : s.isFixed v = true ↔ ∃ k, (s.domain v).members = {k}

lemma WellFormed.coherent (w : s.WellFormed) (hv : s.has v = true) : s.Coherent v where
  nonempty := w.domain_nonempty hv
  represents := by
    refine ⟨(s.domain v).canonical.nonempty, (s.domain v).canonical.separated, ?_⟩
    ext k
    exact w.contains_iff.symm
  lower := ⟨w.lower_mem hv, fun _ => w.lower_le⟩
  upper := ⟨w.upper_mem hv, fun _ => w.le_upper⟩
  fixed := by
    rw [w.isFixed_iff hv]
    constructor
    · exact fun h => ⟨s.lower v, Set.Subset.antisymm h
        (Set.singleton_subset_iff.2 (w.lower_mem hv))⟩
    · rintro ⟨k, hk⟩ x hx
      have hone : ∀ y, y ∈ s.domain v → y = k := fun y hy => hk.subset hy
      rw [hone x hx, hone _ (w.lower_mem hv)]

/-- The variable leads to a root, whose values give it its own. -/
structure Grounded (s : Store) (v : VarId) : Prop where
  isRoot : s.IsRoot (s.root v)
  path : Relation.ReflTransGen s.Base v (s.root v)
  acyclic : ¬ Relation.TransGen s.Base v v
  /-- The chain of a view is the view and the chain of its base. -/
  chain : ∀ w, s.view? v = some w →
    s.has w.base = true ∧ s.chain v = w :: s.chain w.base ∧ s.root w.base = s.root v
  domain : (s.domain v).members = (s.chain v).value '' (s.domain (s.root v)).members
  initial : (s.initial v).members = (s.chain v).value '' (s.initial (s.root v)).members

lemma WellFormed.members_domainAt (w : s.WellFormed) (hv : s.has v = true) (p : Nat) :
    (s.domainAt v p).members = (s.chain v).value '' (s.domainAt (s.root v) p).members := by
  ext y
  rw [IntervalSet.mem_members, w.mem_domainAt hv, (w.isRoot_root v hv).domainAt_eq,
    w.history_root hv]
  rfl

lemma WellFormed.grounded (w : s.WellFormed) (hf : s.Followed) (hl : s.Layered)
    (hv : s.has v = true) : s.Grounded v where
  isRoot := w.isRoot_root v hv
  path := w.path_root hf hv
  acyclic := hl.acyclic
  chain _ := w.linked_base hv
  domain := by
    rw [w.domain_eq_domainAt hv le_rfl, w.domain_eq_domainAt (w.has_root hv) le_rfl]
    exact w.members_domainAt hv _
  initial := by
    rw [initial_eq_domainAt, initial_eq_domainAt]
    exact w.members_domainAt hv _

/-- In a store that can be reached, all that is asked of a variable is answered as for one set of
values, which is not empty and in canonical form.  The bounds are its extreme members, and a
variable is fixed if the set has one.  The values of a view, now and at first, are those that the
chain of views gives to the values of its root, and no chain leads back to where it began. -/
theorem queries_agree (h : s.Reachable) (hv : s.has v = true) : s.Coherent v ∧ s.Grounded v := by
  obtain ⟨past, h⟩ := h
  exact ⟨h.wellFormed.coherent hv, h.wellFormed.grounded h.followed h.layered hv⟩

/-- A hole decides a view, another update is given up, and the view of the view follows. -/
theorem queries_agree_punctured :
    let s₀ := (((({} : Store).addRoot (.ofList [-4, 0, 2, 7])).2.addView ⟨.equals 2, ⟨0⟩⟩).2.addView
      ⟨.negation, ⟨1⟩⟩).2
    let s₁ := s₀.narrow ⟨⟨2⟩, .atLeast 1, none⟩ (.differs 2) (.ofList [-4, 0, 7])
    let s := (s₁.mark.narrow ⟨⟨0⟩, .atLeast 0, none⟩ (.atLeast 0) (.ofList [0, 7])).restore 0
    s.Reachable ∧ s.isFixed ⟨2⟩ = true ∧ (∀ v, s.has v = true → s.Coherent v ∧ s.Grounded v) := by
  intro s₀ s₁ s
  have h₀ : Branch [] s₀ := by
    refine .addView (.addView (.addRoot .empty ⟨0, by decide⟩ (by decide)) rfl nofun) rfl
      fun _ y hy => ?_
    have hy := Booleans.mem_toSet.1 hy
    omega
  have h₁ : Branch [s₀] s₁ := h₀.update (r := ⟨⟨2⟩, .atLeast 1, none⟩) rfl
    (request_eq_ok_true.2 ⟨_, _, by decide +kernel, rfl⟩)
  have h : Branch [s₀] s := (h₁.mark.update (r := ⟨⟨0⟩, .atLeast 0, none⟩) rfl
    (request_eq_ok_true.2 ⟨_, _, by decide +kernel, rfl⟩)).restore 0
  have hreachable : s.Reachable := ⟨_, h⟩
  exact ⟨hreachable, by decide +kernel, fun v hv => queries_agree hreachable hv⟩

end Store

end FiniteDomain
