import Mathlib.Tactic
import FiniteDomain.Proofs.Store.Driven
import FiniteDomain.Proofs.Store.Intersection

/-!
What runs of updates keep.

If every request with grounds holds of some values as long as the domains have them, then a run
of such requests takes none of the values away, and a propagator is not refused.

* `Grounds.Spares`: choices of values that no request with grounds touches, with
  `Store.Narrowing.spares` and `Store.Refused.not_exists`: what runs do about them, and
  `Store.Narrowing.mem_iff_exists`: a run that leaves no value but those of such choices leaves
  exactly these;
* `Store.SameVariables`, `Store.Box`: domains as the variables of a store could have them;
* `Store.Narrowing.box_le`, `Store.Refused.absurd_box`: such domains.
-/

namespace FiniteDomain

/-- No request with grounds takes a value of a choice away.  A choice consists of values of the
domains, and it depends on the domains in no other way. -/
structure Grounds.Spares (J : Grounds) (vs : List VarId)
    (choice : (VarId → IntervalSet) → (VarId → Int) → Prop) : Prop where
  mem : ∀ {dom values}, choice dom values → ∀ v ∈ vs, values v ∈ dom v
  moved : ∀ {dom dom' values}, choice dom values → (∀ v ∈ vs, values v ∈ dom' v) →
    choice dom' values
  holds : ∀ {dom values v op}, choice dom values → J dom v op → v ∈ vs ∧ op.Holds (values v)

namespace Store

variable {J : Grounds} {cause : Option PropId} {s t : Store} {B : VarId → IntervalSet}

section Choices

variable {vs : List VarId} {choice : (VarId → IntervalSet) → (VarId → Int) → Prop}
  {values : VarId → Int} (hJ : J.Spares vs choice) (w : s.WellFormed)
  (hroots : (vs.map s.root).Nodup)

include hJ w hroots

/-- A choice of values for variables on different roots is kept. -/
lemma Narrowing.spares (hrun : Narrowing J cause s t) (h : choice s.domain values) :
    choice t.domain values := by
  induction hrun with
  | refl => exact h
  | @step t u op rop d hrun hu hgrounds he ih =>
    have hsh := hrun.shrinks w
    obtain ⟨hscope, hholds⟩ := hJ.holds ih hgrounds
    refine hJ.moved ih fun v hv => ?_
    by_cases hvu : v = u
    · subst hvu
      exact (mem_domain_narrow hsh.wellFormed hu he).2 ⟨hJ.mem ih v hv, hholds⟩
    · have hroot : t.root v ≠ t.root u := by
        rw [hsh.root, hsh.root]
        exact fun heq => hvu (List.inj_on_of_nodup_map hroots hv hscope heq)
      rw [domain_narrow_of_root_ne hsh.wellFormed hroot]
      exact hJ.mem ih v hv

/-- As long as there is a choice, a propagator is not refused. -/
lemma Refused.not_exists {p : PropId} (h : Refused J (some p) s t) :
    ¬ ∃ values, choice s.domain values := by
  rintro ⟨values, hchoice⟩
  obtain ⟨hrun, -, hgrounds, hno⟩ := h
  have hkept := hrun.spares hJ w hroots hchoice
  obtain ⟨hscope, hholds⟩ := hJ.holds hkept hgrounds
  exact hno rfl _ (hJ.mem hkept _ hscope) hholds

/-- If each value that is left belongs to a choice, then there was a choice, and the variables are
left exactly the values that they had in one. -/
lemma Narrowing.mem_iff_exists (hrun : Narrowing J cause s t) {u : VarId} (hu : u ∈ vs)
    (hhas : s.has u = true)
    (hleft : ∀ v ∈ vs, ∀ x, x ∈ t.domain v → ∃ values, choice t.domain values ∧ values v = x) :
    (∃ values, choice s.domain values) ∧
      ∀ v ∈ vs, ∀ x, x ∈ t.domain v ↔ ∃ values, choice s.domain values ∧ values v = x := by
  have hsh := hrun.shrinks w
  have hbefore : ∀ v ∈ vs, ∀ x, x ∈ t.domain v →
      ∃ values, choice s.domain values ∧ values v = x := by
    intro v hv x hx
    obtain ⟨values, hchoice, hvalue⟩ := hleft v hv x hx
    exact ⟨values, hJ.moved hchoice fun v hv => hsh.domain v _ (hJ.mem hchoice v hv), hvalue⟩
  refine ⟨?_, fun v hv x => ⟨hbefore v hv x, ?_⟩⟩
  · obtain ⟨x, hx⟩ := hsh.wellFormed.domain_nonempty ((hsh.has u).trans hhas)
    obtain ⟨values, hchoice, -⟩ := hbefore u hu x hx
    exact ⟨values, hchoice⟩
  · rintro ⟨values, hchoice, rfl⟩
    exact hJ.mem (hrun.spares hJ w hroots hchoice) v hv

end Choices

/-! ### Domains as they could be -/

/-- Domains as the variables of the store could have them. -/
structure Box (s : Store) (B : VarId → IntervalSet) : Prop where
  nonempty : ∀ v, s.has v = true → ∃ x, x ∈ B v
  initial : ∀ v, s.has v = true → ∀ x, x ∈ B v → x ∈ s.initial v
  view : ∀ v, s.has v = true → ∀ x, x ∈ B v ↔ ∃ y, y ∈ B (s.root v) ∧ (s.chain v).value y = x

/-- The stores have the same variables and views. -/
structure SameVariables (s t : Store) : Prop where
  has : ∀ v, t.has v = s.has v
  root : ∀ v, s.has v = true → t.root v = s.root v
  chain : ∀ v, s.has v = true → t.chain v = s.chain v
  initial : ∀ v, s.has v = true → t.initial v = s.initial v

lemma SameVariables.refl (s : Store) : s.SameVariables s :=
  ⟨fun _ => rfl, fun _ _ => rfl, fun _ _ => rfl, fun _ _ => rfl⟩

lemma SameVariables.symm (h : s.SameVariables t) : t.SameVariables s where
  has v := (h.has v).symm
  root v hv := (h.root v (h.has v ▸ hv)).symm
  chain v hv := (h.chain v (h.has v ▸ hv)).symm
  initial v hv := (h.initial v (h.has v ▸ hv)).symm

lemma SameVariables.trans {u : Store} (h : s.SameVariables t) (h' : t.SameVariables u) :
    s.SameVariables u where
  has v := (h'.has v).trans (h.has v)
  root v hv := (h'.root v (h.has v ▸ hv)).trans (h.root v hv)
  chain v hv := (h'.chain v (h.has v ▸ hv)).trans (h.chain v hv)
  initial v hv := (h'.initial v (h.has v ▸ hv)).trans (h.initial v hv)

lemma Box.congr (hB : s.Box B) (h : s.SameVariables t) : t.Box B where
  nonempty v hv := hB.nonempty v ((h.has v).symm.trans hv)
  initial v hv x hx := by
    have hv : s.has v = true := (h.has v).symm.trans hv
    rw [h.initial v hv]
    exact hB.initial v hv x hx
  view v hv x := by
    have hv : s.has v = true := (h.has v).symm.trans hv
    rw [h.root v hv, h.chain v hv]
    exact hB.view v hv x

lemma Driven.sameVariables (h : s.Driven t) : s.SameVariables t where
  has := h.shrinks.has
  root v _ := h.shrinks.root v
  chain v _ := h.shrinks.chain v
  initial v _ := by
    have hinitial := h.shrinks.domainAt v 0 (Nat.zero_le _)
    rwa [← initial_eq_domainAt, ← initial_eq_domainAt] at hinitial

/-- The domains of a store are domains as another store could have them. -/
lemma WellFormed.box (w : s.WellFormed) (h : s.SameVariables t) : t.Box s.domain where
  nonempty v hv := w.domain_nonempty ((h.has v).symm.trans hv)
  initial v hv x hx := by
    have hv : s.has v = true := (h.has v).symm.trans hv
    rw [h.initial v hv, initial_eq_domainAt]
    rw [w.domain_eq_domainAt hv (Nat.le_refl _)] at hx
    exact w.domainAt_antitone hv (Nat.zero_le _) hx
  view v hv x := by
    have hv : s.has v = true := (h.has v).symm.trans hv
    have hroot := w.isRoot_root v hv
    rw [h.root v hv, h.chain v hv, w.domain_eq_domainAt hv (Nat.le_refl _),
      w.domain_eq_domainAt hroot.has (Nat.le_refl _), w.mem_domainAt hv, hroot.domainAt_eq,
      w.history_root hv]

section Box

variable (w : s.WellFormed) (hB : s.Box B)
  (hJ : ∀ dom v op, (∀ u, s.has u = true → ∀ x, x ∈ B u → x ∈ dom u) → J dom v op →
    ∀ x, x ∈ B v → op.Holds x)
  (hle : ∀ v, s.has v = true → ∀ x, x ∈ B v → x ∈ s.domain v)

include w hB hJ hle

/-- Domains of which no request takes a value are kept, through all views. -/
lemma Narrowing.box_le (hrun : Narrowing J cause s t) :
    ∀ v, s.has v = true → ∀ x, x ∈ B v → x ∈ t.domain v := by
  induction hrun with
  | refl => exact hle
  | @step t u op rop d hrun hu hgrounds he ih =>
    have hsh := hrun.shrinks w
    have hshrinks := hsh.trans (shrinks_narrow (r := ⟨u, op, cause⟩) hsh.wellFormed hu he)
    have hinter : Intersects cause u op t (t.narrow ⟨u, op, cause⟩ rop d) true :=
      intersects_of_ok hsh.wellFormed hu (request_eq_ok_true.2 ⟨rop, d, he, rfl⟩)
    have hview := (hshrinks.wellFormed.box (.refl _)).view
    have hroot := hsh.root
    have hchain := hsh.chain
    have hhas : s.has u = true := (hsh.has u).symm.trans hu
    intro v hv x hx
    obtain ⟨y, hy, rfl⟩ := (hB.view v hv x).1 hx
    have hyroot := ih _ (w.isRoot_root v hv).has y hy
    refine (hview v ((hshrinks.has v).trans hv) _).2 ⟨y, ?_, by rw [hshrinks.chain]⟩
    rw [hshrinks.root, ← hroot]
    by_cases hne : t.root v = t.root u
    · -- the value of the variable that is asked belongs to the same value of the root
      rw [hne]
      refine (hinter.root y).2 ⟨?_, hJ _ u op ih hgrounds _ ?_⟩
      · rwa [← hne, hroot]
      · rw [hchain]
        refine (hB.view u hhas _).2 ⟨y, ?_, rfl⟩
        rwa [← hroot, ← hne, hroot]
    · rw [hinter.others]
      · rwa [hroot]
      · rwa [hroot v, hroot, w.root_root hv, ← hroot v]

/-- As long as there are such domains, a propagator is not refused. -/
lemma Refused.absurd_box {p : PropId} (h : Refused J (some p) s t) : False := by
  obtain ⟨hrun, hv, hgrounds, hno⟩ := h
  have hhas := ((hrun.shrinks w).has _).symm.trans hv
  have hkept := hrun.box_le w hB hJ hle
  obtain ⟨x, hx⟩ := hB.nonempty _ hhas
  exact hno rfl x (hkept _ hhas x hx) (hJ _ _ _ hkept hgrounds x hx)

end Box

end Store

end FiniteDomain
