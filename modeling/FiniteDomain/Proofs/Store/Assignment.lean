import Mathlib.Tactic
import FiniteDomain.Proofs.Store.Narrowing

/-!
Assignments.

An assignment gives every root a value, and with it every view.

* `Store.value`: the value of a variable;
* `Store.Initial`, `Store.Within`: assignments from the initial domains, and from
  the domains before a position of the trail;
* `Store.WellFormed.value_mem`: then every variable has a value of its domain;
* `Store.WellFormed.within_of_holds`: an assignment that satisfies the requests on the
  trail lies in the domains behind them.
-/

namespace FiniteDomain

namespace Store

variable {s t : Store} {v : VarId} {p q : Nat} {ρ : VarId → Int}

/-- The value of a variable when the roots have the given values. -/
def value (s : Store) (ρ : VarId → Int) (v : VarId) : Int := (s.chain v).value (ρ (s.root v))

/-- Every root has one of its initial values. -/
def Initial (s : Store) (ρ : VarId → Int) : Prop := ∀ v, s.IsRoot v → ρ v ∈ s.initial v

instance (s : Store) (v : VarId) : Decidable (s.IsRoot v) :=
  match h : s.vars[v.index]? with
  | some (.root hist vs) => .isTrue ⟨hist, vs, h⟩
  | some (.view _ _) | none => .isFalse fun ⟨_, _, h'⟩ => by rw [h] at h'; cases h'

/-- Only the variables that exist have to be looked at. -/
instance (s : Store) (ρ : VarId → Int) : Decidable (s.Initial ρ) :=
  decidable_of_iff (∀ i < s.vars.size, s.IsRoot ⟨i⟩ → ρ ⟨i⟩ ∈ s.initial ⟨i⟩)
    ⟨fun h v hv => h v.index (has_iff.1 hv.has) hv, fun h i _ hi => h ⟨i⟩ hi⟩

/-- Every root has one of the values it has left before a position. -/
def Within (s : Store) (p : Nat) (ρ : VarId → Int) : Prop :=
  ∀ v, s.IsRoot v → ρ v ∈ s.domainAt v p

lemma initial_iff_within : s.Initial ρ ↔ s.Within 0 ρ := by
  simp only [Initial, Within, initial_eq_domainAt]

lemma IsRoot.value_eq (h : s.IsRoot v) : s.value ρ v = ρ v := by
  rw [value, h.chain_eq, h.root_eq, Chain.value]

lemma value_congr (hroot : t.root v = s.root v) (hchain : t.chain v = s.chain v) :
    t.value ρ v = s.value ρ v := by
  rw [value, value, hroot, hchain]

namespace WellFormed

variable (w : s.WellFormed)

include w

lemma within_mono (hpq : p ≤ q) (h : s.Within q ρ) : s.Within p ρ :=
  fun v hv => w.domainAt_antitone hv.has hpq (h v hv)

lemma initial_of_within (h : s.Within q ρ) : s.Initial ρ :=
  initial_iff_within.2 (w.within_mono (Nat.zero_le q) h)

/-- The root of a variable has a value of its domain. -/
lemma root_mem (h : s.Within p ρ) (hv : s.has v = true) :
    ρ (s.root v) ∈ (s.history v).domainAt p := by
  have hroot := w.isRoot_root v hv
  have := h _ hroot
  rwa [hroot.domainAt_eq, w.history_root hv] at this

lemma value_mem (h : s.Within p ρ) (hv : s.has v = true) :
    s.value ρ v ∈ s.domainAt v p :=
  w.value_mem_domainAt hv (w.root_mem h hv)

lemma value_mem_initial (h : s.Initial ρ) (hv : s.has v = true) :
    s.value ρ v ∈ s.initial v := by
  rw [initial_eq_domainAt]
  exact w.value_mem (initial_iff_within.1 h) hv

/-- A view has the value that goes with that of its base. -/
lemma value_view (hv : s.has v = true) {x : View} {ws : Chain} (hchain : s.chain v = x :: ws) :
    s.value ρ v = x.value (s.value ρ x.base) := by
  obtain ⟨-, hchain', hroot⟩ := w.linked v hv x ws hchain
  rw [value, value, hchain, hchain', hroot]
  rfl

/-- What an update did to its root is what was asked for. -/
lemma holds_operation_iff {u : Update} (hu : s.trail.entries[p]? = some u) (h : s.Within p ρ) :
    u.operation.Holds (ρ u.root) ↔ u.request.operation.Holds (s.value ρ u.request.var) := by
  have hn := w.update p u hu
  rw [hn.root]
  exact hn.operation _ (w.root_mem h hn.has)

/-- A variable that keeps its values keeps the value of the assignment. -/
lemma within_succ {u : Update} (hu : s.trail.entries[p]? = some u) (h : s.Within p ρ)
    (hop : u.request.operation.Holds (s.value ρ u.request.var)) : s.Within (p + 1) ρ := by
  have hn := w.update p u hu
  intro v hv
  by_cases hroot : u.root = s.root v
  · have hsame : s.root u.request.var = v := by rw [← hn.root, hroot, hv.root_eq]
    have hhist : s.history v = s.history u.request.var := by
      rw [← hsame, w.history_root hn.has]
    rw [hv.domainAt_eq, hhist, hn.kept, ← hsame]
    exact ⟨w.root_mem h hn.has, hop⟩
  · rw [hv.domainAt_eq, w.domainAt_succ_of_root_ne hv.has hu hroot, ← hv.domainAt_eq]
    exact h v hv

/-- An assignment stays within the domains up to the first request that it does not
satisfy. -/
lemma within_of_holds (h : s.Initial ρ) (hp : p ≤ s.length)
    (hop : ∀ q u, q < p → s.trail.entries[q]? = some u → s.Within q ρ →
      u.request.operation.Holds (s.value ρ u.request.var)) : s.Within p ρ := by
  induction p with
  | zero => exact initial_iff_within.1 h
  | succ p ih =>
    have hprev := ih (Nat.le_of_succ_le hp) fun q u hq => hop q u (Nat.lt_succ_of_lt hq)
    obtain ⟨u, hu⟩ : ∃ u, s.trail.entries[p]? = some u :=
      ⟨_, Array.getElem?_eq_getElem hp⟩
    exact w.within_succ hu hprev (hop p u (Nat.lt_succ_self p) hu hprev)

end WellFormed

end Store

end FiniteDomain
