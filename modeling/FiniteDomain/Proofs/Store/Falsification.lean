import Mathlib.Tactic
import FiniteDomain.Proofs.Store.Assignment

/-!
When literals on roots became false.

A literal on a root became false with the update that took the last of its values from
the domain of the root.  That is the update which `Store.falsified?` finds.

* `Store.Falsifies`: the update at a position took the last value of a set;
* `Store.WellFormed.exists_falsified?`, `Store.WellFormed.falsifies_of_falsified?`: for a set
  that has no value left, and had one, `Store.falsified?` finds such a position;
* `Store.WellFormed.mem_onRoot_of_mem`, `Store.WellFormed.not_mem_of_mem_onRoot`: literals
  on views and their literals on roots.
-/

namespace FiniteDomain

namespace Store

variable {s : Store} {v x : VarId} {d d' : IntervalSet} {p q : Nat}

/-- Before the position the variable has one of the values, and behind it none. -/
structure Falsifies (s : Store) (v : VarId) (d : IntervalSet) (p : Nat) : Prop where
  before : ∃ k, k ∈ d ∧ k ∈ s.domainAt v p
  after : ∀ k, k ∈ d → k ∉ s.domainAt v (p + 1)

/-- The set has no value before the position already. -/
lemma Falsifies.lt (w : s.WellFormed) (hv : s.has v = true) (h : s.Falsifies v d p)
    (hq : ∀ k, k ∈ d → k ∉ s.domainAt v q) : p < q := by
  obtain ⟨k, hk, hin⟩ := h.before
  by_contra hle
  exact hq k hk (w.domainAt_antitone hv (Nat.not_lt.1 hle) hin)

/-- A root that loses a value loses it with one of its updates. -/
lemma IsRoot.exists_lost (hx : s.IsRoot x) (w : s.WellFormed) {k : Int} (hpq : p ≤ q)
    (hp : k ∈ s.domainAt x p) (hq : k ∉ s.domainAt x q) :
    ∃ i, p ≤ i ∧ i < q ∧ i ∈ (s.history x).positions ∧ k ∈ s.domainAt x i ∧
      k ∉ s.domainAt x (i + 1) := by
  induction q, hpq using Nat.le_induction with
  | base => exact absurd hp hq
  | succ q hpq ih =>
    by_cases hin : k ∈ s.domainAt x q
    · refine ⟨q, hpq, Nat.lt_succ_self q, ?_, hin, hq⟩
      by_contra hpos
      rw [hx.domainAt_eq, (w.history x hx.has).domainAt_succ hpos, ← hx.domainAt_eq] at hq
      exact hq hin
    · obtain ⟨i, hpi, hiq, hi⟩ := ih hin
      exact ⟨i, hpi, Nat.lt_succ_of_lt hiq, hi⟩

/-- What is falsified at a position is falsified by an update of the root. -/
lemma Falsifies.mem_positions (h : s.Falsifies x d p) (w : s.WellFormed) (hx : s.IsRoot x) :
    p ∈ (s.history x).positions := by
  obtain ⟨k, hk, hin⟩ := h.before
  obtain ⟨i, hpi, hip, hpos, -⟩ := hx.exists_lost w (Nat.le_succ p) hin (h.after k hk)
  rwa [show p = i by omega]

namespace WellFormed

variable (w : s.WellFormed)

include w

/-- The update that falsified a set. -/
lemma update_of_falsifies (hx : s.IsRoot x) (h : s.Falsifies x d p) :
    ∃ u, s.trail.entries[p]? = some u ∧ u.root = x := by
  obtain ⟨u, hu, hroot⟩ := w.position x hx.has p (h.mem_positions w hx)
  exact ⟨u, hu, hroot.trans hx.root_eq⟩

/-- What `falsified?` finds took the last value of a set that has none left. -/
lemma falsifies_of_falsified? (hx : s.IsRoot x) (hd : ∀ k, k ∈ d → k ∉ s.domain x)
    (h : s.falsified? x d = some p) : s.Falsifies x d p := by
  have hsome := List.find?_some h
  refine ⟨?_, fun k hk hin => ?_⟩
  · obtain ⟨k, hin, hk⟩ := IntervalSet.intersects_iff.1 hsome
    exact ⟨k, hk, hin⟩
  -- a value that is lost later is lost at a position that comes first in the list
  have hout : k ∉ s.domainAt x (max (p + 1) s.length) := by
    rw [← w.domain_eq_domainAt hx.has (Nat.le_max_right _ _)]
    exact hd k hk
  obtain ⟨i, hpi, -, hpos, hin, -⟩ := hx.exists_lost w (Nat.le_max_left _ _) hin hout
  obtain ⟨-, as, bs, heq, has⟩ := List.find?_eq_some_iff_append.1 h
  have hdesc := (w.history x hx.has).descending
  rw [heq] at hpos hdesc
  have hafter := (List.pairwise_append.1 hdesc).2.1
  rcases List.mem_append.1 hpos with hi | hi
  · have := has i hi
    rw [IntervalSet.intersects_iff.2 ⟨k, hin, hk⟩] at this
    cases this
  · rcases List.mem_cons.1 hi with rfl | hi
    · omega
    · have := (List.pairwise_cons.1 hafter).1 i hi
      omega

/-- A set that has no value left, and had one, was falsified. -/
lemma exists_falsified? (hx : s.IsRoot x) {k : Int} (hk : k ∈ d) (hp : k ∈ s.domainAt x p)
    (hd : k ∉ s.domain x) : ∃ q, s.falsified? x d = some q ∧ p ≤ q := by
  have hout : k ∉ s.domainAt x (max p s.length) := by
    rwa [← w.domain_eq_domainAt hx.has (Nat.le_max_right _ _)]
  obtain ⟨i, hpi, -, hpos, hin, -⟩ := hx.exists_lost w (Nat.le_max_left _ _) hp hout
  have hmeets : (s.domainAt x i).intersects d = true := IntervalSet.intersects_iff.2 ⟨k, hin, hk⟩
  cases hfind : s.falsified? x d with
  | none => exact absurd hmeets (List.find?_eq_none.1 hfind i hpos)
  | some q =>
    refine ⟨q, rfl, Nat.le_trans hpi ?_⟩
    obtain ⟨-, as, bs, heq, has⟩ := List.find?_eq_some_iff_append.1 hfind
    have hdesc := (w.history x hx.has).descending
    rw [heq] at hpos hdesc
    rcases List.mem_append.1 hpos with hi | hi
    · have := has i hi
      rw [hmeets] at this
      cases this
    · rcases List.mem_cons.1 hi with rfl | hi
      · exact Nat.le_refl _
      · exact Nat.le_of_lt ((List.pairwise_cons.1 (List.pairwise_append.1 hdesc).2.1).1 i hi)

/-! ### Literals on views -/

variable {l : Literal} {k : Int} {ρ : VarId → Int}

lemma initial_root (hv : s.has v = true) : s.initial (s.root v) = (s.history v).initial := by
  rw [Store.initial, (w.isRoot_root v hv).chain_eq, w.history_root hv]
  rfl

lemma domainAt_root (hv : s.has v = true) :
    s.domainAt (s.root v) p = (s.history v).domainAt p := by
  rw [(w.isRoot_root v hv).domainAt_eq, w.history_root hv]

/-- An initial value of the root that gives the variable a value of the literal. -/
lemma mem_onRoot_of_mem (hv : s.has l.var = true) (hk : k ∈ s.initial (s.root l.var))
    (h : (s.chain l.var).value k ∈ l.allowed) : k ∈ (s.onRoot l).allowed := by
  rw [w.initial_root hv] at hk
  exact Chain.mem_preimage_of_mem (w.boolean l.var hv) hk h

/-- A literal that holds holds on the root as well. -/
lemma holds_onRoot (hρ : s.Initial ρ) (hv : s.has l.var = true) (h : l.Holds (s.value ρ)) :
    ρ (s.onRoot l).var ∈ (s.onRoot l).allowed :=
  w.mem_onRoot_of_mem hv (hρ _ (w.isRoot_root l.var hv)) h

/-- A value of a literal on the root is an initial one. -/
lemma mem_initial_of_mem_onRoot (hv : s.has l.var = true) (hk : k ∈ (s.onRoot l).allowed) :
    k ∈ s.initial (s.onRoot l).var := by
  change k ∈ s.initial (s.root l.var)
  rw [w.initial_root hv]
  exact Chain.mem_of_mem_preimage hk

/-- A value of a literal on the root gives the variable a value of the literal, unless
there are values that no order view can tell from those above. -/
lemma value_mem_of_mem_onRoot (hv : s.has l.var = true)
    (hbelow : ∀ y, y ∈ s.initial (s.root l.var) → y < Value.greatest)
    (hk : k ∈ (s.onRoot l).allowed) : (s.chain l.var).value k ∈ l.allowed := by
  rw [w.initial_root hv] at hbelow
  exact Chain.value_mem_of_mem_preimage (w.boolean l.var hv) hbelow hk

/-- A literal that is false at a position is false there on the root. -/
lemma not_mem_of_mem_onRoot (hv : s.has l.var = true)
    (hbelow : ∀ y, y ∈ s.initial (s.root l.var) → y < Value.greatest)
    (hfalse : ∀ j, j ∈ l.allowed → j ∉ s.domainAt l.var p) (hk : k ∈ (s.onRoot l).allowed) :
    k ∉ s.domainAt (s.onRoot l).var p := by
  intro hin
  change k ∈ s.domainAt (s.root l.var) p at hin
  rw [w.domainAt_root hv] at hin
  exact hfalse _ (w.value_mem_of_mem_onRoot hv hbelow hk) (w.value_mem_domainAt hv hin)

end WellFormed

end Store

end FiniteDomain
