import Mathlib.Tactic
import FiniteDomain.Proofs.Store.Branch
import FiniteDomain.Proofs.Store.Falsification

/-!
Literals on roots.

A literal on a view stands for a literal on its root: the values that are allowed are mapped back
through the views, one after another, within the initial domains.  An order view is 0 above its
bound.  Above the greatest of all values there is none, and the greatest one is taken in its place,
where the view is 1.  This goes wrong for a literal that allows 0 and not 1, if the view is on the
root itself; further up, the views above it have no use for that value.

* `Store.Saturates`: the literals that are rewritten wrongly;
* `Store.WellFormed.mem_onRoot_iff`: the values that the literal on the root allows;
* `Store.onRoot_exact`: all other literals are rewritten exactly, for which
  `Store.onRoot_allows_greatest` shows that the greatest value matters.
-/

namespace FiniteDomain

namespace Store

variable {s : Store} {l : Literal} {k : Int}

/-- The literal says that an order view on a root is 0, where the bound has no value above and the
root had the greatest of all values. -/
structure Saturates (s : Store) (l : Literal) : Prop where
  greatest : Value.greatest ∈ s.initial (s.root l.var)
  chain : (s.chain l.var).Saturated
  zero : 0 ∈ l.allowed
  one : 1 ∉ l.allowed

/-- The literal on the root allows the initial values at which the variable has a value that the
literal allows, and the greatest one where the rewriting goes wrong. -/
lemma WellFormed.mem_onRoot_iff (w : s.WellFormed) (hv : s.has l.var = true) :
    k ∈ (s.onRoot l).allowed ↔ k ∈ s.initial (s.root l.var) ∧
      ((s.chain l.var).value k ∈ l.allowed ∨ s.Saturates l ∧ k = Value.greatest) := by
  have hboolean := w.boolean l.var hv
  have hle : ∀ x, x ∈ (s.history l.var).initial → x ≤ Value.greatest :=
    fun x hx => ((w.history l.var hv).inRange x hx).2
  rw [onRoot, Chain.mem_preimage_iff hboolean hle, w.initial_root hv]
  refine and_congr_right fun hk => ⟨?_, ?_⟩
  · rintro (hval | ⟨hchain, rfl, hzero⟩)
    · exact .inl hval
    by_cases hone : 1 ∈ l.allowed
    · exact .inl (hchain.value_eq_one hle hk ▸ hone)
    · exact .inr ⟨⟨w.initial_root hv ▸ hk, hchain, hzero, hone⟩, rfl⟩
  · rintro (hval | ⟨hsat, rfl⟩)
    · exact .inl hval
    · exact .inr ⟨hsat.chain, rfl, hsat.zero⟩

/-- In every store that updates, checkpoints and new variables lead to, a literal on any variable is
rewritten onto its root.  It allows only initial values of the root, and those exactly at which the
variable has a value that the literal allows; where it goes wrong, it allows the greatest of all
values although the variable never has such a value. -/
theorem onRoot_exact (h : s.Reachable) (hv : s.has l.var = true) :
    (s.onRoot l).var = s.root l.var ∧ s.IsRoot (s.root l.var) ∧
    (∀ k, k ∈ (s.onRoot l).allowed → k ∈ s.initial (s.root l.var)) ∧
    (¬ s.Saturates l → ∀ k, k ∈ s.initial (s.root l.var) →
      (k ∈ (s.onRoot l).allowed ↔ (s.chain l.var).value k ∈ l.allowed)) ∧
    (s.Saturates l → (s.onRoot l).allowed = {Value.greatest} ∧
      ∀ k, k ∈ s.initial (s.root l.var) → (s.chain l.var).value k ∉ l.allowed) := by
  obtain ⟨past, h⟩ := h
  have w := h.wellFormed
  have hmem := fun k => w.mem_onRoot_iff (k := k) hv
  refine ⟨rfl, w.isRoot_root l.var hv, fun k hk => ((hmem k).1 hk).1, fun hno k hk => ?_,
    fun hsat => ?_⟩
  · rw [hmem, or_iff_left fun hbad => hno hbad.1]
    exact and_iff_right hk
  · have hnever : ∀ k, k ∈ s.initial (s.root l.var) → (s.chain l.var).value k ∉ l.allowed := by
      intro k hk
      rw [w.initial_root hv] at hk
      rw [hsat.chain.value_eq_one (fun x hx => ((w.history l.var hv).inRange x hx).2) hk]
      exact hsat.one
    refine ⟨IntervalSet.ext fun k => ?_, hnever⟩
    rw [hmem, IntervalSet.mem_singleton]
    constructor
    · rintro ⟨hk, hval | ⟨-, rfl⟩⟩
      · exact absurd hval (hnever k hk)
      · rfl
    · rintro rfl
      exact ⟨hsat.greatest, .inr ⟨hsat, rfl⟩⟩

/-- A literal on the negation of an order view whose bound has no value above: that it is 1 allows
no value of the root. -/
theorem onRoot_exact_negated :
    let s := (((addRoot {} (.ofList [-3, 0, Value.greatest])).2.addView
      ⟨.atMost Value.greatest, ⟨0⟩⟩).2.addView ⟨.negation, ⟨1⟩⟩).2
    (∀ k, k ∈ (s.onRoot ⟨⟨2⟩, .single 1⟩).allowed → k ∈ s.initial ⟨0⟩) ∧
      ∀ k ∈ [-3, 0, Value.greatest], k ∉ (s.onRoot ⟨⟨2⟩, .single 1⟩).allowed := by
  intro s
  have h : s.Reachable := by
    refine ⟨[], .addView (.addView (.addRoot .empty ⟨0, by decide⟩ fun x hx => ?_) rfl nofun) rfl
      fun _ y hy => ?_⟩
    · have hx := IntervalSet.mem_ofList.1 hx
      simp only [List.mem_cons, List.not_mem_nil, or_false] at hx
      rcases hx with rfl | rfl | rfl <;> decide
    · have hy := Booleans.mem_toSet.1 hy
      omega
  obtain ⟨-, -, hinitial, hexact, -⟩ := onRoot_exact (l := ⟨⟨2⟩, .single 1⟩) h rfl
  have hno : ¬ s.Saturates ⟨⟨2⟩, .single 1⟩ := by
    rintro ⟨-, ⟨w, hchain, -⟩, -, -⟩
    cases hchain
  refine ⟨hinitial, fun k hk => ?_⟩
  have hall : ∀ k ∈ [-3, 0, Value.greatest], k ∈ s.initial ⟨0⟩ ∧
      (s.chain ⟨2⟩).value k ∉ IntervalSet.single 1 := by decide +kernel
  rw [hexact hno k (hall k hk).1]
  exact (hall k hk).2

/-- That such an order view is 0 never holds, but on the root it allows the greatest value. -/
theorem onRoot_allows_greatest :
    let s := ((addRoot {} (.ofRange 0 Value.greatest)).2.addView
      ⟨.atMost Value.greatest, ⟨0⟩⟩).2
    s.Reachable ∧ s.has ⟨1⟩ = true ∧ s.root ⟨1⟩ = ⟨0⟩ ∧ Value.greatest ∈ s.initial ⟨0⟩ ∧
      Value.greatest ∈ (s.onRoot ⟨⟨1⟩, .single 0⟩).allowed ∧
      (s.chain ⟨1⟩).value Value.greatest ∉ IntervalSet.single 0 :=
  ⟨⟨[], .addView (.addRoot .empty ⟨0, by decide⟩ (by decide)) rfl nofun⟩, rfl, rfl,
    by decide +kernel⟩

end Store

end FiniteDomain
