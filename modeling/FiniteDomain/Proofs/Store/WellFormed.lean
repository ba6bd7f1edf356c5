import Mathlib.Tactic
import FiniteDomain.Proofs.Store.Variables
import FiniteDomain.Proofs.Trail
import FiniteDomain.Store.Graph

/-!
Well-formed stores.

The trail and the histories of a store tell the same story: every entry of the
trail narrowed its root to the values that satisfy the request, and nothing else
ever changed a domain.

* `Store.WellFormed`: the invariant of all stores, with `Store.Narrows`, what it
  says of one entry;
* `Store.WellFormed.mem_domainAt`: past domains of views as values of their roots;
* `Store.WellFormed.domainAt_antitone`, `Store.WellFormed.domainAt_nonempty`:
  domains only shrink, and never to nothing;
* `Store.Narrows.mem_iff`: the requested variable keeps what was asked for;
* `Store.WellFormed.of_entries`, `Store.WellFormed.of_maps`: what is left to show when the
  checkpoints change, and when the histories do;
* `Store.WellFormed.narrow`, `Store.WellFormed.restore`,
  `Store.WellFormed.addRoot`, `Store.WellFormed.addView`: all changes of a store
  keep it well-formed.
-/

namespace FiniteDomain

namespace Store

variable {s s' : Store} {v : VarId} {p q : Nat}

/-- The update at a position left its root the values that satisfy the request,
and took one from it.  The operation on the root says the same as the request. -/
structure Narrows (s : Store) (p : Nat) (u : Update) : Prop where
  has : s.has u.request.var = true
  root : u.root = s.root u.request.var
  mem_positions : p ∈ (s.history u.request.var).positions
  kept : ∀ x, x ∈ (s.history u.request.var).domainAt (p + 1) ↔
    x ∈ (s.history u.request.var).domainAt p ∧
      u.request.operation.Holds ((s.chain u.request.var).value x)
  lost : ∃ x, x ∈ (s.history u.request.var).domainAt p ∧
    ¬ u.request.operation.Holds ((s.chain u.request.var).value x)
  operation : ∀ x, x ∈ (s.history u.request.var).domainAt p →
    (u.operation.Holds x ↔ u.request.operation.Holds ((s.chain u.request.var).value x))

/-- The chain of a view goes on at its base. -/
def Linked (s : Store) (v : VarId) : Prop :=
  ∀ w ws, s.chain v = w :: ws →
    s.has w.base = true ∧ s.chain w.base = ws ∧ s.root w.base = s.root v

lemma Maps.linked {f : VarId → History → History} (hmaps : s.Maps s' f) (h : s.Linked v) :
    s'.Linked v := by
  intro w ws hchain
  rw [hmaps.chain] at hchain
  rw [hmaps.has, hmaps.chain, hmaps.root, hmaps.root]
  exact h w ws hchain

/-- Every variable leads to a root, histories are in order, and the trail and the
histories agree on the updates. -/
structure WellFormed (s : Store) : Prop where
  isRoot_root : ∀ v, s.has v = true → s.IsRoot (s.root v)
  linked : ∀ v, s.has v = true → s.Linked v
  boolean : ∀ v, s.has v = true → (s.chain v).Boolean (s.history v).initial
  history : ∀ v, s.has v = true → (s.history v).WellFormed s.length
  trail : s.trail.WellFormed
  update : ∀ p u, s.trail.entries[p]? = some u → s.Narrows p u
  position : ∀ v, s.has v = true → ∀ p ∈ (s.history v).positions,
    ∃ u, s.trail.entries[p]? = some u ∧ u.root = s.root v

/-! ### Domains over time -/

lemma initial_eq_domainAt : s.initial v = s.domainAt v 0 := by
  rw [initial, domainAt, History.domainAt_zero]

lemma IsRoot.domainAt_eq (h : s.IsRoot v) : s.domainAt v p = (s.history v).domainAt p := by
  rw [domainAt, h.chain_eq, Chain.image]

namespace WellFormed

lemma isRoot_iff (w : s.WellFormed) (hv : s.has v = true) : s.IsRoot v ↔ s.root v = v :=
  ⟨IsRoot.root_eq, fun h => h ▸ w.isRoot_root v hv⟩

lemma root_root (w : s.WellFormed) (hv : s.has v = true) : s.root (s.root v) = s.root v :=
  (w.isRoot_root v hv).root_eq

lemma has_root (w : s.WellFormed) (hv : s.has v = true) : s.has (s.root v) = true :=
  (w.isRoot_root v hv).has

/-- A variable shares the history of its root. -/
lemma history_root (w : s.WellFormed) (hv : s.has v = true) :
    s.history (s.root v) = s.history v := by
  rw [Store.history, w.root_root hv, Store.history]

lemma boolean_domainAt (w : s.WellFormed) (hv : s.has v = true) :
    (s.chain v).Boolean ((s.history v).domainAt q) := by
  refine (w.boolean v hv).mono fun x hx => ?_
  rw [← History.domainAt_zero]
  exact (w.history v hv).antitone 0 q (Nat.zero_le q) x hx

/-- The past domain of a variable consists of its values at the past domain of its
root. -/
lemma mem_domainAt (w : s.WellFormed) (hv : s.has v = true) {y : Int} :
    y ∈ s.domainAt v q ↔ ∃ x, x ∈ (s.history v).domainAt q ∧ (s.chain v).value x = y :=
  Chain.mem_image (w.boolean_domainAt hv) ((w.history v hv).nonempty q)

lemma value_mem_domainAt (w : s.WellFormed) (hv : s.has v = true) {x : Int}
    (hx : x ∈ (s.history v).domainAt q) : (s.chain v).value x ∈ s.domainAt v q :=
  (w.mem_domainAt hv).2 ⟨x, hx, rfl⟩

lemma domainAt_nonempty (w : s.WellFormed) (hv : s.has v = true) : ∃ x, x ∈ s.domainAt v q := by
  obtain ⟨x, hx⟩ := (w.history v hv).nonempty q
  exact ⟨_, w.value_mem_domainAt hv hx⟩

lemma domainAt_antitone (w : s.WellFormed) (hv : s.has v = true) (hpq : p ≤ q) {y : Int}
    (hy : y ∈ s.domainAt v q) : y ∈ s.domainAt v p := by
  obtain ⟨x, hx, rfl⟩ := (w.mem_domainAt hv).1 hy
  exact w.value_mem_domainAt hv ((w.history v hv).antitone p q hpq x hx)

lemma domainAt_inRange (w : s.WellFormed) (hv : s.has v = true) : (s.domainAt v q).InRange := by
  intro y hy
  obtain ⟨x, hx, rfl⟩ := (w.mem_domainAt hv).1 hy
  exact Chain.value_inRange (w.boolean_domainAt hv) (w.history v hv).domainAt_inRange hx

lemma domainAt_length (w : s.WellFormed) (hv : s.has v = true) :
    (s.history v).domainAt s.length = (s.history v).current :=
  (w.history v hv).domainAt_of_le (Nat.le_refl _)

lemma boolean_current (w : s.WellFormed) (hv : s.has v = true) :
    (s.chain v).Boolean (s.history v).current :=
  w.domainAt_length hv ▸ w.boolean_domainAt hv

lemma current_nonempty (w : s.WellFormed) (hv : s.has v = true) :
    ∃ x, x ∈ (s.history v).current :=
  w.domainAt_length hv ▸ (w.history v hv).nonempty _

/-- The domain is put together from the answers of the root. -/
lemma domain_eq_image (w : s.WellFormed) (v : VarId) :
    s.domain v = (s.chain v).image (s.history v).current := by
  rw [Store.domain]
  cases hc : s.chain v with
  | nil => rfl
  | cons x ws =>
    have hv : s.has v = true := by
      by_contra hv
      rw [(history_of_not_has hv).1] at hc
      cases hc
    have hbool := w.boolean_current hv
    rw [hc] at hbool
    change (x.flags (Chain.reading ws (s.history v).reading)).toSet = _
    rw [(w.history v hv).reading_eq, Chain.reading_eq hbool.2 (w.current_nonempty hv),
      Chain.image, View.image]

/-- What is asked of a variable is answered as by its domain. -/
lemma reading_eq (w : s.WellFormed) (v : VarId) : s.reading v = (s.domain v).reading := by
  rw [w.domain_eq_image, Store.reading]
  by_cases hv : s.has v = true
  · rw [(w.history v hv).reading_eq,
      Chain.reading_eq (w.boolean_current hv) (w.current_nonempty hv)]
  · obtain ⟨hchain, hhistory⟩ := history_of_not_has hv
    have hdefault : (default : History) = { initial := default } := rfl
    rw [hchain, hhistory, hdefault, Chain.reading, Chain.image, History.reading_initial,
      History.current_initial]

lemma lower_eq (w : s.WellFormed) (v : VarId) : s.lower v = (s.domain v).lower :=
  congrArg Reading.lower (w.reading_eq v)

lemma upper_eq (w : s.WellFormed) (v : VarId) : s.upper v = (s.domain v).upper :=
  congrArg Reading.upper (w.reading_eq v)

lemma contains_eq (w : s.WellFormed) (v : VarId) (k : Int) :
    s.contains v k = (s.domain v).contains k :=
  congrArg (fun q => q.contains k) (w.reading_eq v)

lemma isFixed_eq (w : s.WellFormed) (v : VarId) : s.isFixed v = (s.domain v).isFixed := by
  rw [Store.isFixed, w.lower_eq, w.upper_eq, IntervalSet.isFixed]

/-- A variable that was created without the greatest of all values never has it. -/
lemma lt_greatest (w : s.WellFormed) (hv : s.has v = true) (h : Value.greatest ∉ s.initial v)
    {x : Int} (hx : x ∈ s.domainAt v q) : x < Value.greatest := by
  have hx := w.domainAt_antitone hv (Nat.zero_le q) hx
  have hle := (w.domainAt_inRange hv x hx).2
  refine Int.lt_iff_le_and_ne.2 ⟨hle, ?_⟩
  rintro rfl
  rw [initial_eq_domainAt] at h
  exact h hx

lemma domain_eq_domainAt (w : s.WellFormed) (hv : s.has v = true) (hq : s.length ≤ q) :
    s.domain v = s.domainAt v q := by
  rw [w.domain_eq_image, domainAt, (w.history v hv).domainAt_of_le hq]

lemma domain_nonempty (w : s.WellFormed) (hv : s.has v = true) : ∃ x, x ∈ s.domain v := by
  rw [w.domain_eq_domainAt hv (Nat.le_refl _)]
  exact w.domainAt_nonempty hv

lemma lower_mem (w : s.WellFormed) (hv : s.has v = true) : s.lower v ∈ s.domain v :=
  w.lower_eq v ▸ IntervalSet.lower_mem (w.domain_nonempty hv)

lemma upper_mem (w : s.WellFormed) (hv : s.has v = true) : s.upper v ∈ s.domain v :=
  w.upper_eq v ▸ IntervalSet.upper_mem (w.domain_nonempty hv)

lemma lower_le (w : s.WellFormed) {x : Int} (hx : x ∈ s.domain v) : s.lower v ≤ x :=
  w.lower_eq v ▸ IntervalSet.lower_le hx

lemma le_upper (w : s.WellFormed) {x : Int} (hx : x ∈ s.domain v) : x ≤ s.upper v :=
  w.upper_eq v ▸ IntervalSet.le_upper hx

lemma contains_iff (w : s.WellFormed) {k : Int} : s.contains v k = true ↔ k ∈ s.domain v := by
  rw [w.contains_eq, IntervalSet.contains_iff]

/-- A fixed variable has no value but its least one. -/
lemma isFixed_iff (w : s.WellFormed) (hv : s.has v = true) :
    s.isFixed v = true ↔ ∀ x, x ∈ s.domain v → x = s.lower v := by
  rw [w.isFixed_eq, w.lower_eq, IntervalSet.isFixed_iff (w.domain_nonempty hv)]

lemma domain_inRange (w : s.WellFormed) (hv : s.has v = true) : (s.domain v).InRange := by
  rw [w.domain_eq_domainAt hv (Nat.le_refl _)]
  exact w.domainAt_inRange hv

lemma current_inRange (w : s.WellFormed) (hv : s.has v = true) :
    (s.history v).current.InRange :=
  w.domainAt_length hv ▸ (w.history v hv).domainAt_inRange

/-- The domain of a variable consists of its values at the domain of its root. -/
lemma mem_domain (w : s.WellFormed) (hv : s.has v = true) {y : Int} :
    y ∈ s.domain v ↔ ∃ x, x ∈ (s.history v).current ∧ (s.chain v).value x = y := by
  rw [w.domain_eq_image]
  exact Chain.mem_image (w.boolean_current hv) (w.current_nonempty hv)

section Effect

variable {op rop : Operation} {d : IntervalSet} {kind : Inconsistency.Kind} {y : Int}

/-- A request without effect is satisfied by the whole domain. -/
lemma holds_of_unchanged (w : s.WellFormed) (hv : s.has v = true)
    (he : (s.chain v).effect (s.history v).current op = .unchanged) (hy : y ∈ s.domain v) :
    op.Holds y := by
  obtain ⟨x, hx, rfl⟩ := (w.mem_domain hv).1 hy
  exact Chain.holds_of_unchanged (w.boolean_current hv) ⟨x, hx⟩ (w.current_inRange hv) he hx

/-- A request that fails is satisfied by no value of the domain. -/
lemma not_holds_of_fails (w : s.WellFormed) (hv : s.has v = true)
    (he : (s.chain v).effect (s.history v).current op = .fails kind) (hy : y ∈ s.domain v) :
    ¬ op.Holds y := by
  obtain ⟨x, hx, rfl⟩ := (w.mem_domain hv).1 hy
  exact Chain.not_holds_of_fails (w.boolean_current hv) ⟨x, hx⟩ (w.current_inRange hv) he hx

/-- A request that narrows keeps a value of the domain. -/
lemma exists_holds_of_narrowed (w : s.WellFormed) (hv : s.has v = true)
    (he : (s.chain v).effect (s.history v).current op = .narrowed rop d) :
    ∃ y, y ∈ s.domain v ∧ op.Holds y := by
  obtain ⟨⟨x, hx, hop⟩, -⟩ := Chain.exists_of_narrowed (w.boolean_current hv)
    (w.current_nonempty hv) (w.current_inRange hv) he
  exact ⟨_, (w.mem_domain hv).2 ⟨x, hx, rfl⟩, hop⟩

/-- A request that narrows leaves its root a value. -/
lemma exists_mem_of_narrowed (w : s.WellFormed) (hv : s.has v = true)
    (he : (s.chain v).effect (s.history v).current op = .narrowed rop d) : ∃ x, x ∈ d := by
  have hbool := w.boolean_current hv
  have hne := w.current_nonempty hv
  have hrange := w.current_inRange hv
  obtain ⟨⟨x, hx, hop⟩, -⟩ := Chain.exists_of_narrowed hbool hne hrange he
  exact ⟨x, (Chain.mem_of_narrowed hbool hne hrange he).2 ⟨hx, hop⟩⟩

/-- A request that narrows takes a value from the domain. -/
lemma exists_not_holds_of_narrowed (w : s.WellFormed) (hv : s.has v = true)
    (he : (s.chain v).effect (s.history v).current op = .narrowed rop d) :
    ∃ y, y ∈ s.domain v ∧ ¬ op.Holds y := by
  obtain ⟨-, x, hx, hop⟩ := Chain.exists_of_narrowed (w.boolean_current hv)
    (w.current_nonempty hv) (w.current_inRange hv) he
  exact ⟨_, (w.mem_domain hv).2 ⟨x, hx, rfl⟩, hop⟩

end Effect

/-- An update changes the domains of the variables that share its root, and no
others. -/
lemma domainAt_succ_of_root_ne (w : s.WellFormed) (hv : s.has v = true) {u : Update}
    (hu : s.trail.entries[p]? = some u) (hne : u.root ≠ s.root v) :
    (s.history v).domainAt (p + 1) = (s.history v).domainAt p := by
  refine (w.history v hv).domainAt_succ fun hp => ?_
  obtain ⟨u', hu', hroot⟩ := w.position v hv p hp
  rw [hu] at hu'
  cases hu'
  exact hne hroot

end WellFormed

namespace Narrows

variable {u : Update}

lemma mem_iff (h : s.Narrows p u) (w : s.WellFormed) {y : Int} :
    y ∈ s.domainAt u.request.var (p + 1) ↔
      y ∈ s.domainAt u.request.var p ∧ u.request.operation.Holds y := by
  rw [w.mem_domainAt h.has, w.mem_domainAt h.has]
  constructor
  · rintro ⟨x, hx, rfl⟩
    exact ⟨⟨x, ((h.kept x).1 hx).1, rfl⟩, ((h.kept x).1 hx).2⟩
  · rintro ⟨⟨x, hx, rfl⟩, hop⟩
    exact ⟨x, (h.kept x).2 ⟨hx, hop⟩, rfl⟩

/-- Some value of the requested variable does not satisfy the request. -/
lemma exists_not_holds (h : s.Narrows p u) (w : s.WellFormed) :
    ∃ y, y ∈ s.domainAt u.request.var p ∧ ¬ u.request.operation.Holds y := by
  obtain ⟨x, hx, hop⟩ := h.lost
  exact ⟨_, w.value_mem_domainAt h.has hx, hop⟩

/-- An update is about its variable and the two domains of it. -/
lemma congr (h : s.Narrows p u) {f : VarId → History → History} (hmaps : s.Maps s' f)
    (hpositions : p ∈ (s'.history u.request.var).positions)
    (hpast : ∀ q ≤ p + 1, (s'.history u.request.var).domainAt q
      = (s.history u.request.var).domainAt q) : s'.Narrows p u := by
  have hbefore := hpast p (Nat.le_succ p)
  have hafter := hpast (p + 1) le_rfl
  refine ⟨(hmaps.has _).trans h.has, h.root.trans (hmaps.root _).symm, hpositions, ?_, ?_, ?_⟩
  · rw [hbefore, hafter, hmaps.chain]
    exact h.kept
  · rw [hbefore, hmaps.chain]
    exact h.lost
  · rw [hbefore, hmaps.chain]
    exact h.operation

end Narrows

/-! ### Changes -/

/-- A store without variables. -/
lemma wellFormed_empty : ({} : Store).WellFormed := by
  have hnone : ∀ v, ¬ ({} : Store).has v = true := fun v hv => by simp [has] at hv
  exact ⟨fun v hv => absurd hv (hnone v), fun v hv => absurd hv (hnone v),
    fun v hv => absurd hv (hnone v), fun v hv => absurd hv (hnone v), Trail.wellFormed_empty,
    fun p u hu => by simp at hu, fun v hv => absurd hv (hnone v)⟩

/-- The invariant is about the variables and the entries of the trail.  The checkpoints only have to
fit the trail. -/
lemma WellFormed.of_entries (w : s.WellFormed) (hvars : s'.vars = s.vars)
    (hentries : s'.trail.entries = s.trail.entries) (htrail : s'.trail.WellFormed) :
    s'.WellFormed := by
  obtain ⟨_, ⟨_, _⟩, _, _⟩ := s
  obtain ⟨_, ⟨_, _⟩, _, _⟩ := s'
  cases hvars
  cases hentries
  exact ⟨w.isRoot_root, w.linked, w.boolean, w.history, htrail,
    fun p u hu => ⟨(w.update p u hu).has, (w.update p u hu).root, (w.update p u hu).mem_positions,
      (w.update p u hu).kept, (w.update p u hu).lost, (w.update p u hu).operation⟩, w.position⟩

lemma WellFormed.congr (w : s.WellFormed) (hvars : s'.vars = s.vars)
    (htrail : s'.trail = s.trail) : s'.WellFormed :=
  w.of_entries hvars (by rw [htrail]) (htrail ▸ w.trail)

lemma WellFormed.mark (w : s.WellFormed) : s.mark.WellFormed :=
  w.of_entries rfl rfl w.trail.mark

/-- A change of histories keeps the invariant if the histories keep theirs, with the domains that
they started from, and agree with the trail. -/
lemma WellFormed.of_maps (w : s.WellFormed) {f : VarId → History → History} (hmaps : s.Maps s' f)
    (hinitial : ∀ v, s.has v = true → (s'.history v).initial = (s.history v).initial)
    (hhistory : ∀ v, s.has v = true → (s'.history v).WellFormed s'.length)
    (htrail : s'.trail.WellFormed)
    (hupdate : ∀ p u, s'.trail.entries[p]? = some u → s'.Narrows p u)
    (hposition : ∀ v, s.has v = true → ∀ p ∈ (s'.history v).positions,
      ∃ u, s'.trail.entries[p]? = some u ∧ u.root = s.root v) : s'.WellFormed where
  isRoot_root v hv := by
    rw [hmaps.has] at hv
    rw [hmaps.root, hmaps.isRoot]
    exact w.isRoot_root v hv
  linked v hv := by
    rw [hmaps.has] at hv
    exact hmaps.linked (w.linked v hv)
  boolean v hv := by
    rw [hmaps.has] at hv
    rw [hmaps.chain, hinitial v hv]
    exact w.boolean v hv
  history v hv := by
    rw [hmaps.has] at hv
    exact hhistory v hv
  trail := htrail
  update := hupdate
  position v hv p hp := by
    rw [hmaps.has] at hv
    rw [hmaps.root]
    exact hposition v hv p hp

section Narrow

variable {r : Request} {op : Operation} {d : IntervalSet}

@[simp] lemma length_narrow : (s.narrow r op d).length = s.length + 1 := Trail.length_push _ _

lemma history_narrow (w : s.WellFormed) (hv : s.has v = true) :
    (s.narrow r op d).history v =
      if s.root v = s.root r.var then (s.history v).record s.length d else s.history v :=
  (maps_narrow s r op d).history (w.isRoot_root v hv)

/-- An update is the last one of the variables that share its root. -/
lemma mem_positions_narrow (w : s.WellFormed) (hv : s.has v = true) :
    p ∈ ((s.narrow r op d).history v).positions ↔
      s.root v = s.root r.var ∧ p = s.length ∨ p ∈ (s.history v).positions := by
  rw [history_narrow w hv]
  split
  · rename_i hroot
    simp [hroot]
  · rename_i hroot
    simp [hroot]

/-- An update does not change the past. -/
lemma historyAt_narrow (w : s.WellFormed) (hv : s.has v = true) (hq : q ≤ s.length) :
    ((s.narrow r op d).history v).domainAt q = (s.history v).domainAt q := by
  rw [history_narrow w hv]
  split
  · exact History.domainAt_record_le hq
  · rfl

lemma domainAt_narrow (w : s.WellFormed) (v : VarId) (hq : q ≤ s.length) :
    (s.narrow r op d).domainAt v q = s.domainAt v q := by
  have hmaps := maps_narrow s r op d
  by_cases hv : s.has v = true
  · rw [domainAt, historyAt_narrow w hv hq, hmaps.chain, domainAt]
  · exact hmaps.domainAt_of_not_has hv q

/-- The root of the request was its current domain, and becomes the new one. -/
lemma narrows_narrow (w : s.WellFormed) (hv : s.has r.var = true)
    (he : (s.chain r.var).effect (s.history r.var).current r.operation = .narrowed op d) :
    (s.narrow r op d).Narrows s.length ⟨s.root r.var, op, r⟩ := by
  have hmaps := maps_narrow s r op d
  have hhist : (s.narrow r op d).history r.var = (s.history r.var).record s.length d := by
    rw [history_narrow w hv, if_pos rfl]
  have hbool := w.boolean_current hv
  have hne := w.current_nonempty hv
  have hrange := w.current_inRange hv
  have hleft : ∀ x, x ∈ d ↔ x ∈ (s.history r.var).current ∧
      r.operation.Holds ((s.chain r.var).value x) :=
    fun x => Chain.mem_of_narrowed hbool hne hrange he
  have hd := w.exists_mem_of_narrowed hv he
  have hafter : ((s.history r.var).record s.length d).domainAt (s.length + 1) = d := by
    rw [(w.history r.var hv).domainAt_record hd fun x hx => ((hleft x).1 hx).1,
      if_pos (Nat.lt_succ_self _)]
  have hbefore : ((s.history r.var).record s.length d).domainAt s.length
      = (s.history r.var).current := by
    rw [History.domainAt_record_le (Nat.le_refl _), w.domainAt_length hv]
  refine ⟨by rw [hmaps.has]; exact hv, (hmaps.root _).symm, ?_, fun x => ?_, ?_, fun x hx => ?_⟩
  · simp [hhist]
  · rw [hhist, hafter, hbefore, hmaps.chain]
    exact hleft x
  · rw [hhist, hbefore, hmaps.chain]
    exact (Chain.exists_of_narrowed hbool hne hrange he).2
  · rw [hhist, hbefore] at hx
    rw [hmaps.chain]
    exact Chain.holds_of_narrowed hbool hne hrange he hx

lemma entry_narrow (p : Nat) : (s.narrow r op d).trail.entries[p]? =
    if p = s.length then some ⟨s.root r.var, op, r⟩ else s.trail.entries[p]? := Array.getElem?_push

/-- The root of the request has one more domain, all others have their histories. -/
lemma wellFormed_history_narrow (w : s.WellFormed) (hr : s.has r.var = true)
    (he : (s.chain r.var).effect (s.history r.var).current r.operation = .narrowed op d)
    (hv : s.has v = true) :
    ((s.narrow r op d).history v).WellFormed (s.narrow r op d).length := by
  rw [history_narrow w hv, length_narrow]
  split
  · rename_i hroot
    have hhist : s.history v = s.history r.var := by
      rw [Store.history, hroot, Store.history]
    rw [hhist]
    exact (w.history r.var hr).record (w.exists_mem_of_narrowed hr he) fun x hx =>
      ((Chain.mem_of_narrowed (w.boolean_current hr) (w.current_nonempty hr)
        (w.current_inRange hr) he).1 hx).1
  · exact (w.history v hv).mono (Nat.le_succ _)

lemma WellFormed.narrow (w : s.WellFormed) (hr : s.has r.var = true)
    (he : (s.chain r.var).effect (s.history r.var).current r.operation = .narrowed op d) :
    (s.narrow r op d).WellFormed := by
  have hmaps := maps_narrow s r op d
  refine w.of_maps hmaps (fun v hv => ?_) (fun v hv => wellFormed_history_narrow w hr he hv)
    w.trail.push (fun p u hu => ?_) fun v hv p hp => ?_
  · rw [history_narrow w hv]
    split
    · exact History.initial_record
    · rfl
  · -- the last entry is the request, all others are about the past
    rw [entry_narrow] at hu
    split at hu
    · rename_i hp
      cases hu
      rw [hp]
      exact narrows_narrow w hr he
    · have hold := w.update p u hu
      have hlt : p < s.length := (Array.getElem?_eq_some_iff.1 hu).1
      exact hold.congr hmaps ((mem_positions_narrow w hold.has).2 (.inr hold.mem_positions))
        fun q hq => historyAt_narrow w hold.has (hq.trans hlt)
  · rw [entry_narrow]
    rcases (mem_positions_narrow w hv).1 hp with ⟨hroot, hlast⟩ | hp
    · exact ⟨_, if_pos hlast, hroot.symm⟩
    · obtain ⟨u, hu, hroot⟩ := w.position v hv p hp
      exact ⟨u, (if_neg ((w.history v hv).lt_length p hp).ne).trans hu, hroot⟩

end Narrow

section Restore

variable {level : Nat}

lemma length_restore (w : s.WellFormed) : (s.restore level).length = s.trail.extent level :=
  Trail.length_cut w.trail

lemma history_restore (w : s.WellFormed) (hv : s.has v = true) :
    (s.restore level).history v = (s.history v).rewind (s.trail.extent level) :=
  (maps_restore s level).history (w.isRoot_root v hv)

lemma mem_positions_restore (w : s.WellFormed) (hv : s.has v = true) :
    p ∈ ((s.restore level).history v).positions ↔
      p ∈ (s.history v).positions ∧ p < s.trail.extent level := by
  rw [history_restore w hv, History.mem_positions_rewind (w.history v hv).descending]

/-- Going back does not change the past before the checkpoint. -/
lemma historyAt_restore (w : s.WellFormed) (hv : s.has v = true)
    (hq : q ≤ s.trail.extent level) :
    ((s.restore level).history v).domainAt q = (s.history v).domainAt q := by
  rw [history_restore w hv, (w.history v hv).domainAt_rewind,
    Nat.min_eq_left hq]

lemma domainAt_restore (w : s.WellFormed) (v : VarId) (hq : q ≤ s.trail.extent level) :
    (s.restore level).domainAt v q = s.domainAt v q := by
  have hmaps := maps_restore s level
  by_cases hv : s.has v = true
  · rw [domainAt, historyAt_restore w hv hq, hmaps.chain, domainAt]
  · exact hmaps.domainAt_of_not_has hv q

lemma initial_restore (w : s.WellFormed) (v : VarId) :
    (s.restore level).initial v = s.initial v := by
  rw [initial_eq_domainAt, initial_eq_domainAt, domainAt_restore w v (Nat.zero_le _)]

lemma WellFormed.restore (w : s.WellFormed) : (s.restore level).WellFormed := by
  have hmaps := maps_restore s level
  refine w.of_maps hmaps (fun v hv => ?_) (fun v hv => ?_) w.trail.cut (fun p u hu => ?_)
    fun v hv p hp => ?_
  · rw [history_restore w hv, History.initial_rewind]
  · rw [history_restore w hv, length_restore w]
    exact (w.history v hv).rewind
  · simp only [Store.restore, Trail.getElem?_cut w.trail] at hu
    split at hu
    case isFalse => cases hu
    rename_i hp
    have hold := w.update p u hu
    exact hold.congr hmaps ((mem_positions_restore w hold.has).2 ⟨hold.mem_positions, hp⟩)
      fun q hq => historyAt_restore w hold.has (hq.trans hp)
  · rw [mem_positions_restore w hv] at hp
    simp only [Store.restore, Trail.getElem?_cut w.trail, if_pos hp.2]
    exact w.position v hv p hp.1

end Restore

/-! ### New variables -/

section Extends

variable (h : s.Extends s') (w : s.WellFormed)

include h w in
lemma Extends.history_eq (hv : s.has v = true) : s'.history v = s.history v :=
  h.history hv (w.isRoot_root v hv)

include h w in
lemma Extends.domainAt (hv : s.has v = true) : s'.domainAt v p = s.domainAt v p := by
  rw [Store.domainAt, h.history_eq w hv, h.chain hv, Store.domainAt]

include h w in
lemma Extends.domain (hv : s.has v = true) : s'.domain v = s.domain v := by
  rw [Store.domain, h.history_eq w hv, h.chain hv, Store.domain]

include h w in
lemma Extends.initial (hv : s.has v = true) : s'.initial v = s.initial v := by
  rw [initial_eq_domainAt, initial_eq_domainAt, h.domainAt w hv]

include h w in
lemma Extends.narrows {u : Update} (hu : s.Narrows p u) : s'.Narrows p u where
  has := h.has hu.has
  root := by rw [h.root hu.has]; exact hu.root
  mem_positions := by rw [h.history_eq w hu.has]; exact hu.mem_positions
  kept := by rw [h.history_eq w hu.has, h.chain hu.has]; exact hu.kept
  lost := by rw [h.history_eq w hu.has, h.chain hu.has]; exact hu.lost
  operation := by rw [h.history_eq w hu.has, h.chain hu.has]; exact hu.operation

end Extends

/-- New variables keep the store well-formed if they are well-formed themselves. -/
lemma WellFormed.extend (w : s.WellFormed) (h : s.Extends s') (htrail : s'.trail = s.trail)
    (hnew : ∀ v, s'.has v = true → s.has v = true ∨
      s'.IsRoot (s'.root v) ∧ s'.Linked v ∧ (s'.chain v).Boolean (s'.history v).initial ∧
        (s'.history v).WellFormed s.length ∧
        ∀ p ∈ (s'.history v).positions, ∃ u, s.trail.entries[p]? = some u ∧ u.root = s'.root v) :
    s'.WellFormed := by
  have hlen : s'.length = s.length := by rw [length, htrail, length]
  constructor
  case isRoot_root =>
    intro v hv
    rcases hnew v hv with hold | hnew
    · rw [h.root hold]
      exact (h.isRoot (w.has_root hold)).2 (w.isRoot_root v hold)
    · exact hnew.1
  case linked =>
    intro v hv
    rcases hnew v hv with hold | hnew
    · intro w' ws hchain
      rw [h.chain hold] at hchain
      obtain ⟨hhas, hbase, hroot⟩ := w.linked v hold w' ws hchain
      exact ⟨h.has hhas, (h.chain hhas).trans hbase, by rw [h.root hhas, h.root hold, hroot]⟩
    · exact hnew.2.1
  case boolean =>
    intro v hv
    rcases hnew v hv with hold | hnew
    · rw [h.chain hold, h.history_eq w hold]
      exact w.boolean v hold
    · exact hnew.2.2.1
  case history =>
    intro v hv
    rw [hlen]
    rcases hnew v hv with hold | hnew
    · rw [h.history_eq w hold]
      exact w.history v hold
    · exact hnew.2.2.2.1
  case trail => exact htrail ▸ w.trail
  case update =>
    intro p u hu
    rw [htrail] at hu
    exact h.narrows w (w.update p u hu)
  case position =>
    intro v hv p hp
    rw [htrail]
    rcases hnew v hv with hold | hnew
    · rw [h.history_eq w hold] at hp
      rw [h.root hold]
      exact w.position v hold p hp
    · exact hnew.2.2.2.2 p hp

lemma WellFormed.addRoot (w : s.WellFormed) {d : IntervalSet} (hd : ∃ x, x ∈ d)
    (hr : d.InRange) : (s.addRoot d).2.WellFormed := by
  refine w.extend (extends_addRoot s d) rfl fun v hv => ?_
  refine (eq_of_has_addRoot hv).imp_right ?_
  rintro rfl
  have hroot : (s.addRoot d).2.IsRoot (s.addRoot d).1 := ⟨_, _, getElem?_addRoot s d⟩
  have hhist : (s.addRoot d).2.history (s.addRoot d).1 = { initial := d } := by
    rw [Store.history, hroot.root_eq, getElem?_addRoot]
  have hlinked : (s.addRoot d).2.Linked (s.addRoot d).1 := by
    intro w' ws hchain
    rw [hroot.chain_eq] at hchain
    cases hchain
  rw [hroot.root_eq, hroot.chain_eq, hhist]
  exact ⟨hroot, hlinked, trivial, .new hd hr, fun p hp => by cases hp⟩

lemma WellFormed.addView (w : s.WellFormed) {w' : View} (hb : s.has w'.base = true)
    (hneg : w'.condition = .negation → ∀ y, y ∈ s.initial w'.base → y = 0 ∨ y = 1) :
    (s.addView w').2.WellFormed := by
  have hext := extends_addView s w'
  refine w.extend hext rfl fun v hv => ?_
  refine (eq_of_has_addView hv).imp_right ?_
  rintro rfl
  have hhist : (s.addView w').2.history (s.addView w').1 = s.history w'.base := by
    rw [← hext.history_eq w hb, Store.history, root_addView, ← hext.root hb, Store.history]
  have hlinked : (s.addView w').2.Linked (s.addView w').1 := by
    intro w₀ ws hchain
    rw [chain_addView] at hchain
    cases hchain
    exact ⟨hext.has hb, hext.chain hb, by rw [hext.root hb, root_addView]⟩
  rw [root_addView, chain_addView, hhist]
  refine ⟨(hext.isRoot (w.has_root hb)).2 (w.isRoot_root _ hb), hlinked,
    ⟨fun hc x hx => hneg hc _ ?_, ?_⟩, w.history _ hb, w.position _ hb⟩
  · exact Chain.value_mem_image (w.boolean _ hb) hx
  · exact w.boolean _ hb

end Store

end FiniteDomain
