import Mathlib.Tactic
import FiniteDomain.Proofs.History
import FiniteDomain.Store.Update

/-!
Variables of a store after it changed.

Changes of a store either change histories of roots and nothing else about the
variables (`Store.Maps`), or add variables and leave the old ones as they are
(`Store.Extends`).  Either way the questions about the old variables are answered
as before, up to the histories.

* `Store.IsRoot`: a variable with a history of its own;
* `Store.maps_narrow`, `Store.maps_restore`: an update, and going back;
* `Store.extends_addRoot`, `Store.extends_addView`: new variables, and
  `Store.chain_addView`, `Store.root_addView`: what a new view follows.
-/

namespace FiniteDomain

lemma VarId.eq_of_index_eq {v w : VarId} (h : v.index = w.index) : v = w := by
  cases v
  cases w
  exact congrArg VarId.mk h

/-- The variable with another history, if it has one of its own. -/
def Variable.onHistory (f : History → History) : Variable → Variable
  | .root h vs => .root (f h) vs
  | .view ws r => .view ws r

namespace Store

variable {s s' : Store} {v : VarId}

/-- The variable is a root. -/
def IsRoot (s : Store) (v : VarId) : Prop := ∃ h vs, s.vars[v.index]? = some (.root h vs)

lemma has_iff : s.has v = true ↔ v.index < s.vars.size := decide_eq_true_iff

/-- Only the variables that exist have to be looked at. -/
instance (s : Store) (p : VarId → Prop) [DecidablePred p] :
    Decidable (∀ v, s.has v = true → p v) :=
  decidable_of_iff (∀ i < s.vars.size, p ⟨i⟩)
    ⟨fun h v hv => h v.index (has_iff.1 hv), fun h i hi => h ⟨i⟩ (has_iff.2 hi)⟩

lemma has_of_getElem? {x : Variable} (h : s.vars[v.index]? = some x) : s.has v = true :=
  has_iff.2 (Array.getElem?_eq_some_iff.1 h).1

lemma exists_of_has (hv : s.has v = true) : ∃ x, s.vars[v.index]? = some x :=
  ⟨_, Array.getElem?_eq_getElem (has_iff.1 hv)⟩

lemma IsRoot.has (h : s.IsRoot v) : s.has v = true := by
  obtain ⟨_, _, h⟩ := h
  exact has_of_getElem? h

lemma IsRoot.root_eq (h : s.IsRoot v) : s.root v = v := by
  obtain ⟨_, _, h⟩ := h
  rw [root, h]

lemma IsRoot.chain_eq (h : s.IsRoot v) : s.chain v = [] := by
  obtain ⟨_, _, h⟩ := h
  rw [chain, h]

lemma getElem?_of_not_has (hv : ¬ s.has v = true) : s.vars[v.index]? = none :=
  Array.getElem?_eq_none (Nat.not_lt.1 fun h => hv (has_iff.2 h))

lemma root_of_not_has (hv : ¬ s.has v = true) : s.root v = v := by
  rw [root, getElem?_of_not_has hv]

/-- What does not exist is like a root without values. -/
lemma history_of_not_has (hv : ¬ s.has v = true) : s.chain v = [] ∧ s.history v = default := by
  have hnone := getElem?_of_not_has hv
  exact ⟨by rw [chain, hnone], by rw [history, root_of_not_has hv, hnone]⟩

/-! ### Changed histories -/

/-- The history of each root is changed by a function, and nothing else about the
variables. -/
def Maps (s s' : Store) (f : VarId → History → History) : Prop :=
  ∀ v : VarId, s'.vars[v.index]? = (s.vars[v.index]?).map (Variable.onHistory (f v))

namespace Maps

variable {f : VarId → History → History}

lemma has (h : s.Maps s' f) (v : VarId) : s'.has v = s.has v := by
  have hv := h v
  rw [Bool.eq_iff_iff, has_iff, has_iff]
  rcases Nat.lt_or_ge v.index s.vars.size with hlt | hge
  · rw [Array.getElem?_eq_getElem hlt] at hv
    exact ⟨fun _ => hlt, fun _ => (Array.getElem?_eq_some_iff.1 hv).1⟩
  · rw [Array.getElem?_eq_none hge] at hv
    have := Array.getElem?_eq_none_iff.1 hv
    omega

lemma root (h : s.Maps s' f) (v : VarId) : s'.root v = s.root v := by
  rw [Store.root, Store.root, h v]
  cases s.vars[v.index]? with
  | none => rfl
  | some x => cases x <;> rfl

lemma chain (h : s.Maps s' f) (v : VarId) : s'.chain v = s.chain v := by
  rw [Store.chain, Store.chain, h v]
  cases s.vars[v.index]? with
  | none => rfl
  | some x => cases x <;> rfl

lemma isRoot (h : s.Maps s' f) (v : VarId) : s'.IsRoot v ↔ s.IsRoot v := by
  rw [IsRoot, IsRoot, h v]
  cases s.vars[v.index]? with
  | none => simp
  | some x => cases x <;> simp [Variable.onHistory]

lemma history (h : s.Maps s' f) (hv : s.IsRoot (s.root v)) :
    s'.history v = f (s.root v) (s.history v) := by
  obtain ⟨h₀, vs, hget⟩ := hv
  rw [Store.history, Store.history, h.root, h, hget]
  rfl

/-- What does not exist did not change. -/
lemma history_of_not_has (h : s.Maps s' f) (hv : ¬ s.has v = true) :
    s'.history v = s.history v := by
  have hv' : ¬ s'.has v = true := by rwa [h.has]
  rw [(Store.history_of_not_has hv').2, (Store.history_of_not_has hv).2]

lemma domainAt_of_not_has (h : s.Maps s' f) (hv : ¬ s.has v = true) (q : Nat) :
    s'.domainAt v q = s.domainAt v q := by
  rw [Store.domainAt, h.chain, h.history_of_not_has hv, Store.domainAt]

lemma domain_of_not_has (h : s.Maps s' f) (hv : ¬ s.has v = true) :
    s'.domain v = s.domain v := by
  rw [Store.domain, h.chain, h.history_of_not_has hv, Store.domain]

end Maps

lemma maps_narrow (s : Store) (r : Request) (op : Operation) (d : IntervalSet) :
    s.Maps (s.narrow r op d)
      fun v h => if v = s.root r.var then h.record s.trail.length d else h := by
  intro v
  simp only [narrow, Array.getElem?_modify]
  by_cases hv : s.root r.var = v
  · rw [if_pos (by rw [hv])]
    cases s.vars[v.index]? with
    | none => rfl
    | some x => cases x <;> simp [Variable.onHistory, hv]
  · have hne : (s.root r.var).index ≠ v.index := fun e => hv (VarId.eq_of_index_eq e)
    rw [if_neg hne]
    cases s.vars[v.index]? with
    | none => rfl
    | some x => cases x <;> simp [Variable.onHistory, Ne.symm hv]

lemma maps_restore (s : Store) (level : Nat) :
    s.Maps (s.restore level) fun _ h => h.rewind (s.trail.extent level) := by
  intro v
  simp only [restore, Array.getElem?_map]
  cases s.vars[v.index]? with
  | none => rfl
  | some x => cases x <;> rfl

/-! ### New variables -/

/-- Old variables keep their histories, chains and roots. -/
def Extends (s s' : Store) : Prop :=
  ∀ v : VarId,
    (∀ h vs, s.vars[v.index]? = some (.root h vs) → ∃ vs', s'.vars[v.index]? = some (.root h vs')) ∧
    ∀ ws r, s.vars[v.index]? = some (.view ws r) → s'.vars[v.index]? = some (.view ws r)

namespace Extends

lemma has (h : s.Extends s') (hv : s.has v = true) : s'.has v = true := by
  obtain ⟨x, hx⟩ := exists_of_has hv
  cases x with
  | root h₀ vs =>
    obtain ⟨vs', hvs⟩ := (h v).1 h₀ vs hx
    exact has_of_getElem? hvs
  | view ws r => exact has_of_getElem? ((h v).2 ws r hx)

lemma isRoot (h : s.Extends s') (hv : s.has v = true) : s'.IsRoot v ↔ s.IsRoot v := by
  obtain ⟨x, hx⟩ := exists_of_has hv
  cases x with
  | root h₀ vs => exact ⟨fun _ => ⟨h₀, vs, hx⟩, fun _ => ⟨h₀, (h v).1 h₀ vs hx⟩⟩
  | view ws r => simp [IsRoot, hx, (h v).2 ws r hx]

lemma root (h : s.Extends s') (hv : s.has v = true) : s'.root v = s.root v := by
  obtain ⟨x, hx⟩ := exists_of_has hv
  cases x with
  | root h₀ vs =>
    obtain ⟨vs', hvs⟩ := (h v).1 h₀ vs hx
    rw [Store.root, Store.root, hx, hvs]
  | view ws r => rw [Store.root, Store.root, hx, (h v).2 ws r hx]

lemma chain (h : s.Extends s') (hv : s.has v = true) : s'.chain v = s.chain v := by
  obtain ⟨x, hx⟩ := exists_of_has hv
  cases x with
  | root h₀ vs =>
    obtain ⟨vs', hvs⟩ := (h v).1 h₀ vs hx
    rw [Store.chain, Store.chain, hx, hvs]
  | view ws r => rw [Store.chain, Store.chain, hx, (h v).2 ws r hx]

lemma history (h : s.Extends s') (hv : s.has v = true) (hroot : s.IsRoot (s.root v)) :
    s'.history v = s.history v := by
  obtain ⟨h₀, vs, hget⟩ := hroot
  obtain ⟨vs', hget'⟩ := (h _).1 h₀ vs hget
  rw [Store.history, Store.history, h.root hv, hget, hget']

end Extends

lemma extends_addRoot (s : Store) (d : IntervalSet) : s.Extends (s.addRoot d).2 := by
  intro v
  have hold : ∀ x, s.vars[v.index]? = some x → (s.addRoot d).2.vars[v.index]? = some x := by
    intro x hx
    have hlt := (Array.getElem?_eq_some_iff.1 hx).1
    simp only [addRoot, Array.getElem?_push]
    rw [if_neg (by omega), hx]
  exact ⟨fun h vs hx => ⟨vs, hold _ hx⟩, fun ws r hx => hold _ hx⟩

lemma getElem?_addRoot (s : Store) (d : IntervalSet) :
    (s.addRoot d).2.vars[(s.addRoot d).1.index]? = some (.root { initial := d } []) := by
  simp [addRoot]

lemma eq_of_has_addRoot {d : IntervalSet} (hv : (s.addRoot d).2.has v = true) :
    s.has v = true ∨ v = (s.addRoot d).1 := by
  rw [has_iff] at hv ⊢
  simp only [addRoot, Array.size_push] at hv ⊢
  rcases Nat.lt_succ_iff_lt_or_eq.1 hv with hlt | heq
  · exact .inl hlt
  · exact .inr (VarId.eq_of_index_eq heq)

lemma extends_addView (s : Store) (w : View) : s.Extends (s.addView w).2 := by
  intro v
  have hold : ∀ x, s.vars[v.index]? = some x →
      (s.addView w).2.vars[v.index]? =
        if (s.root w.base).index = v.index then
          some (match x with
            | .root h vs => .root h (follow w.base (s.root w.base) ⟨s.vars.size⟩ vs)
            | .view ws r => .view ws r)
        else some x := by
    intro x hx
    have hlt := (Array.getElem?_eq_some_iff.1 hx).1
    simp only [addView, Array.getElem?_push, Array.size_modify]
    rw [if_neg (by omega), Array.getElem?_modify, hx]
    rfl
  constructor
  · intro h vs hx
    rw [hold _ hx]
    split
    · exact ⟨_, rfl⟩
    · exact ⟨vs, rfl⟩
  · intro ws r hx
    rw [hold _ hx]
    split <;> rfl

lemma getElem?_addView (s : Store) (w : View) :
    (s.addView w).2.vars[(s.addView w).1.index]?
      = some (.view (w :: s.chain w.base) (s.root w.base)) := by
  simp only [addView, Array.getElem?_push]
  rw [if_pos (by simp)]

lemma eq_of_has_addView {w : View} (hv : (s.addView w).2.has v = true) :
    s.has v = true ∨ v = (s.addView w).1 := by
  rw [has_iff] at hv ⊢
  simp only [addView, Array.size_push, Array.size_modify] at hv ⊢
  rcases Nat.lt_succ_iff_lt_or_eq.1 hv with hlt | heq
  · exact .inl hlt
  · exact .inr (VarId.eq_of_index_eq heq)

/-- A new view puts itself in front of the chain of its base. -/
lemma chain_addView (s : Store) (w : View) :
    (s.addView w).2.chain (s.addView w).1 = w :: s.chain w.base := by
  rw [chain, getElem?_addView]

/-- A new view follows the root of its base. -/
lemma root_addView (s : Store) (w : View) :
    (s.addView w).2.root (s.addView w).1 = s.root w.base := by
  rw [root, getElem?_addView]

end Store

end FiniteDomain
