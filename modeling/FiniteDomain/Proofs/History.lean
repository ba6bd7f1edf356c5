import Mathlib.Data.List.TakeWhile
import Mathlib.Tactic
import FiniteDomain.Proofs.Chain
import FiniteDomain.Store.Basic

/-!
The domain of a root over time.

A history is read through `History.domainAt`, the domain just before a position
of the trail.  It changes only behind positions at which an update is recorded,
it only ever loses values, and both of its bounds are always values that are left.

* `History.before_before`, `History.mem_before`: the older entries of a list;
* `History.WellFormed`: what holds of every history of a store whose trail has a
  given length;
* `History.WellFormed.reading_eq`: the entries answer as the domain that they make up;
* `History.WellFormed.domainAt_record`, `History.Ordered.domainAt_rewind`: the
  past after an update and after going back;
* `History.WellFormed.record`, `History.WellFormed.rewind`: both keep histories
  well-formed.
-/

namespace FiniteDomain

namespace History

/-! ### Entries with the newest first -/

section Entries

variable {α : Type} {date : α → Nat} {entries : List α} {a : α} {n p q : Nat}

lemma before_eq_self (hlt : ∀ a ∈ entries, date a < q) : before date q entries = entries := by
  cases entries with
  | nil => rfl
  | cons a as =>
    have := hlt a List.mem_cons_self
    exact List.dropWhile_cons_of_neg (by simpa using this)

/-- Going back in two steps. -/
lemma before_before (hp : p ≤ n) :
    before date p (before date n entries) = before date p entries := by
  induction entries with
  | nil => rfl
  | cons a as ih =>
    by_cases ha : n ≤ date a
    · rw [before, before, List.dropWhile_cons_of_pos (by simpa using ha), ← before, ← before, ih,
        before, before, List.dropWhile_cons_of_pos (by simpa using Nat.le_trans hp ha)]
    · rw [before, before, List.dropWhile_cons_of_neg (by simpa using ha), ← before]

/-- In order, exactly the older entries are kept. -/
lemma mem_before (hd : entries.Pairwise fun a b => date b ≤ date a) :
    a ∈ before date n entries ↔ a ∈ entries ∧ date a < n := by
  induction entries with
  | nil => exact ⟨fun h => (List.not_mem_nil h).elim, fun h => (List.not_mem_nil h.1).elim⟩
  | cons b bs ih =>
    rw [List.pairwise_cons] at hd
    by_cases hb : n ≤ date b
    · rw [before, List.dropWhile_cons_of_pos (by simpa using hb), ← before, ih hd.2, List.mem_cons]
      constructor
      · rintro ⟨ha, hlt⟩
        exact ⟨.inr ha, hlt⟩
      · rintro ⟨rfl | ha, hlt⟩
        · omega
        · exact ⟨ha, hlt⟩
    · rw [before, List.dropWhile_cons_of_neg (by simpa using hb)]
      refine ⟨fun ha => ⟨ha, ?_⟩, And.left⟩
      rcases List.mem_cons.1 ha with rfl | ha
      · omega
      · have := hd.1 a ha
        omega

lemma before_zero : before date 0 entries = [] :=
  List.dropWhile_eq_nil_iff.2 fun a _ => decide_eq_true (Nat.zero_le (date a))

end Entries

/-! ### Well-formed histories -/

variable {h : History} {n p q : Nat} {d : IntervalSet}

/-- The entries of a list belong to updates, and the newest come first. -/
structure Entered (positions : List Nat) (entries : List Dated) : Prop where
  descending : entries.Pairwise fun a b => b.position ≤ a.position
  mem : ∀ a ∈ entries, a.position ∈ positions

/-- The entries of all lists belong to the updates, in order. -/
structure Ordered (h : History) : Prop where
  descending : h.positions.Pairwise fun p q => q < p
  lowers : Entered h.positions h.lowers
  uppers : Entered h.positions h.uppers
  holes : Entered h.positions h.holes

/-- The updates are in order and lie before the end of the trail, and the domain
loses values from position to position, but always has its bounds among them. -/
structure WellFormed (h : History) (n : Nat) : Prop extends Ordered h where
  lt_length : ∀ p ∈ h.positions, p < n
  inRange : h.initial.InRange
  bounds : ∀ q, (h.rewind q).lower ∈ h.domainAt q ∧ (h.rewind q).upper ∈ h.domainAt q
  antitone : ∀ p q, p ≤ q → ∀ x, x ∈ h.domainAt q → x ∈ h.domainAt p

namespace Entered

variable {positions : List Nat} {entries : List Dated}

/-- The entries of an update are added in front. -/
lemma append {position : Nat} {new : List Dated} (e : Entered positions entries)
    (hle : ∀ p ∈ positions, p ≤ position) (hnew : ∀ a ∈ new, a.position = position) :
    Entered (position :: positions) (new ++ entries) where
  descending := by
    refine List.pairwise_append.2 ⟨List.pairwise_iff_forall_sublist.2 fun hab => ?_, e.descending,
      fun a ha b hb => ?_⟩
    · have ha := hnew _ (hab.subset (List.mem_cons_self))
      have hb := hnew _ (hab.subset (List.mem_cons_of_mem _ List.mem_cons_self))
      omega
    · rw [hnew a ha]
      exact hle _ (e.mem b hb)
  mem a ha := by
    rcases List.mem_append.1 ha with ha | ha
    · rw [hnew a ha]
      exact List.mem_cons_self
    · exact List.mem_cons_of_mem _ (e.mem a ha)

/-- A bound is entered when it moves. -/
lemma bound {position : Nat} {k start : Int} (e : Entered positions entries)
    (hle : ∀ p ∈ positions, p ≤ position) :
    Entered (position :: positions)
      (if k = start then entries else ⟨position, k⟩ :: entries) := by
  split
  · have hnone : ∀ a ∈ ([] : List Dated), a.position = position := nofun
    exact e.append hle hnone
  · have hone : ∀ a ∈ [Dated.mk position k], a.position = position :=
      fun a ha => by rw [List.mem_singleton.1 ha]
    exact e.append hle hone

/-- Going back gives up the same updates in all lists. -/
lemma before (e : Entered positions entries) (hd : positions.Pairwise fun p q => q < p) :
    Entered (before id n positions) (before Dated.position n entries) where
  descending := e.descending.sublist (List.dropWhile_sublist _)
  mem a ha := by
    obtain ⟨ha, hlt⟩ := (mem_before e.descending).1 ha
    exact (mem_before (hd.imp fun hlt => Nat.le_of_lt hlt)).2 ⟨e.mem a ha, hlt⟩

end Entered

@[simp] lemma positions_record : (h.record p d).positions = p :: h.positions := rfl

@[simp] lemma initial_record : (h.record p d).initial = h.initial := rfl

@[simp] lemma initial_rewind : (h.rewind n).initial = h.initial := rfl

/-- Going back keeps the updates before the position. -/
lemma mem_positions_rewind (hd : h.positions.Pairwise fun p q => q < p) :
    p ∈ (h.rewind n).positions ↔ p ∈ h.positions ∧ p < n :=
  mem_before (hd.imp fun hlt => Nat.le_of_lt hlt)

/-- Going back in two steps. -/
lemma rewind_rewind (hp : p ≤ n) : (h.rewind n).rewind p = h.rewind p := by
  simp only [rewind, before_before hp]

/-- Without updates all values are left. -/
lemma current_initial : ({ initial := d } : History).current = d := by
  ext x
  rw [mem_current]
  simp only [lower, upper, Dated.latest, List.not_mem_nil, false_imp_iff, implies_true, and_true]
  exact ⟨And.left, fun hx => ⟨hx, IntervalSet.lower_le hx, IntervalSet.le_upper hx⟩⟩

/-- Without updates the root answers as it did at first. -/
lemma reading_initial : ({ initial := d } : History).reading = d.reading := by
  rw [reading, IntervalSet.reading, Reading.mk.injEq]
  refine ⟨rfl, rfl, ?_⟩
  funext k
  rw [Bool.eq_iff_iff, contains_iff, current_initial, IntervalSet.contains_iff]

/-- Before the first update the domain is the initial one. -/
lemma domainAt_zero : h.domainAt 0 = h.initial := by
  rw [domainAt, rewind, before_zero, before_zero, before_zero, before_zero]
  exact current_initial

namespace Ordered

/-- Behind the last update nothing is given up. -/
lemma rewind_eq (o : h.Ordered) (hlt : ∀ p ∈ h.positions, p < q) : h.rewind q = h := by
  have hentered {entries : List Dated} (e : Entered h.positions entries) :
      History.before Dated.position q entries = entries :=
    before_eq_self fun a ha => hlt _ (e.mem a ha)
  have hpositions : History.before id q h.positions = h.positions := before_eq_self hlt
  rw [History.rewind, hentered o.lowers, hentered o.uppers, hentered o.holes, hpositions]

/-- An update behind all others keeps the order. -/
lemma record (o : h.Ordered) (hlt : ∀ p ∈ h.positions, p < n) : (h.record n d).Ordered := by
  have hle : ∀ p ∈ h.positions, p ≤ n := fun p hp => Nat.le_of_lt (hlt p hp)
  refine ⟨List.pairwise_cons.2 ⟨hlt, o.descending⟩, o.lowers.bound hle, o.uppers.bound hle,
    o.holes.append hle fun a ha => ?_⟩
  obtain ⟨k, -, rfl⟩ := List.mem_map.1 ha
  rfl

/-- Going back keeps the order. -/
lemma rewind (o : h.Ordered) : (h.rewind n).Ordered where
  descending := o.descending.sublist (List.dropWhile_sublist _)
  lowers := o.lowers.before o.descending
  uppers := o.uppers.before o.descending
  holes := o.holes.before o.descending

/-- After going back to a position nothing changes behind it. -/
lemma rewind_rewind_min (o : h.Ordered) : (h.rewind n).rewind q = h.rewind (min q n) := by
  rcases Nat.le_total q n with hq | hn
  · rw [rewind_rewind hq, Nat.min_eq_left hq]
  · rw [Nat.min_eq_right hn, o.rewind.rewind_eq fun p hp =>
      Nat.lt_of_lt_of_le ((mem_positions_rewind o.descending).1 hp).2 hn]

/-- After going back to a position, the past before it is the same, and nothing
changes behind it. -/
lemma domainAt_rewind (o : h.Ordered) : (h.rewind n).domainAt q = h.domainAt (min q n) := by
  rw [domainAt, o.rewind_rewind_min, domainAt]

/-- At the first update and before the domain is the initial one. -/
lemma domainAt_eq_zero (o : h.Ordered) (hle : ∀ p ∈ h.positions, q ≤ p) :
    h.domainAt q = h.domainAt 0 := by
  have hback : (h.rewind q).rewind 0 = h.rewind q := o.rewind.rewind_eq fun p hp => by
    obtain ⟨hp, hlt⟩ := (mem_positions_rewind o.descending).1 hp
    exact absurd (hle p hp) (Nat.not_le.2 hlt)
  rw [domainAt, domainAt, ← hback, rewind_rewind (Nat.zero_le q)]

/-- Across a position without update the domain stays. -/
lemma domainAt_succ (o : h.Ordered) (hp : p ∉ h.positions) :
    h.domainAt (p + 1) = h.domainAt p := by
  have hback : (h.rewind (p + 1)).rewind p = h.rewind (p + 1) := o.rewind.rewind_eq fun q hq => by
    obtain ⟨hq, hlt⟩ := (mem_positions_rewind o.descending).1 hq
    have hne : q ≠ p := fun he => hp (he ▸ hq)
    omega
  rw [domainAt, domainAt, ← hback, rewind_rewind (Nat.le_succ p)]

end Ordered

namespace WellFormed

lemma domainAt_of_le (w : h.WellFormed n) (hq : n ≤ q) : h.domainAt q = h.current := by
  rw [domainAt, w.rewind_eq fun p hp => Nat.lt_of_lt_of_le (w.lt_length p hp) hq]

lemma domainAt_inRange (w : h.WellFormed n) : (h.domainAt q).InRange := by
  intro x hx
  refine w.inRange x ?_
  rw [← domainAt_zero]
  exact w.antitone 0 q (Nat.zero_le q) x hx

lemma nonempty (w : h.WellFormed n) (q : Nat) : ∃ x, x ∈ h.domainAt q := ⟨_, (w.bounds q).1⟩

/-- The entries answer as the domain that they make up. -/
lemma reading_eq (w : h.WellFormed n) : h.reading = h.current.reading := by
  have hback : h.rewind n = h := w.rewind_eq w.lt_length
  obtain ⟨hlower, hupper⟩ := w.bounds n
  rw [domainAt, hback] at hlower hupper
  have hd : ∃ x, x ∈ h.current := ⟨_, hlower⟩
  have hle := (mem_current.1 (IntervalSet.lower_mem hd)).1.2.1
  have hge := (mem_current.1 (IntervalSet.upper_mem hd)).1.2.2
  rw [reading, IntervalSet.reading, Reading.mk.injEq]
  refine ⟨Int.le_antisymm hle (IntervalSet.lower_le hlower),
    Int.le_antisymm (IntervalSet.le_upper hupper) hge, ?_⟩
  funext k
  rw [Bool.eq_iff_iff, contains_iff, IntervalSet.contains_iff]

/-- A history stays well-formed as the trail grows. -/
lemma mono (w : h.WellFormed n) (hn : n ≤ p) : h.WellFormed p :=
  { w with lt_length := fun q hq => Nat.lt_of_lt_of_le (w.lt_length q hq) hn }

/-! ### Updates and going back -/

section Record

variable (w : h.WellFormed n) (hd : ∃ x, x ∈ d) (hsub : ∀ x, x ∈ d → x ∈ h.current)

include w in
/-- Behind its position an update is kept. -/
lemma rewind_record_of_lt (hq : n < q) : (h.record n d).rewind q = h.record n d := by
  refine (w.toOrdered.record w.lt_length).rewind_eq fun p hp => ?_
  rcases List.mem_cons.1 hp with rfl | hp
  · exact hq
  · exact Nat.lt_trans (w.lt_length p hp) hq

include w hd hsub in
lemma domainAt_record : (h.record n d).domainAt q = if n < q then d else h.domainAt q := by
  split
  · rename_i hq
    rw [domainAt, w.rewind_record_of_lt hq, current_record hd hsub]
  · rename_i hq
    exact domainAt_record_le (Nat.not_lt.1 hq)

include w hd hsub in
/-- An update at the end of the trail keeps the history well-formed if it leaves
some of the current values. -/
lemma record : (h.record n d).WellFormed (n + 1) where
  toOrdered := w.toOrdered.record w.lt_length
  lt_length p hp := by
    rcases List.mem_cons.1 hp with rfl | hp
    · exact Nat.lt_succ_self _
    · exact Nat.lt_succ_of_lt (w.lt_length p hp)
  inRange := w.inRange
  bounds q := by
    rw [domainAt_record w hd hsub]
    split
    · rename_i hq
      rw [w.rewind_record_of_lt hq, lower_record, upper_record]
      exact ⟨IntervalSet.lower_mem hd, IntervalSet.upper_mem hd⟩
    · rename_i hq
      rw [rewind_record (Nat.not_lt.1 hq)]
      exact w.bounds q
  antitone p q hpq x := by
    rw [domainAt_record w hd hsub, domainAt_record w hd hsub]
    split <;> split
    · exact id
    · intro hx
      rw [← w.domainAt_of_le (Nat.le_refl n)] at hsub
      exact w.antitone p n (by omega) x (hsub x hx)
    · omega
    · exact w.antitone p q hpq x

end Record

/-- Going back keeps the history well-formed. -/
lemma rewind (w : h.WellFormed p) : (h.rewind n).WellFormed n where
  toOrdered := w.toOrdered.rewind
  lt_length q hq := ((mem_positions_rewind w.descending).1 hq).2
  inRange := w.inRange
  bounds q := by
    rw [w.domainAt_rewind, w.rewind_rewind_min]
    exact w.bounds _
  antitone p q hpq x := by
    rw [w.domainAt_rewind, w.domainAt_rewind]
    exact w.antitone _ _ (by omega) x

/-- A new history has no updates. -/
lemma new (hd : ∃ x, x ∈ d) (hr : d.InRange) : ({ initial := d } : History).WellFormed n := by
  have hnone : Entered [] [] := ⟨.nil, fun _ ha => (List.not_mem_nil ha).elim⟩
  have hdomain : ∀ q, ({ initial := d } : History).domainAt q = d := fun q => domainAt_zero
  refine ⟨⟨.nil, hnone, hnone, hnone⟩, fun p hp => (List.not_mem_nil hp).elim, hr, fun q => ?_,
    fun p q _ x hx => ?_⟩
  · rw [hdomain]
    exact ⟨IntervalSet.lower_mem hd, IntervalSet.upper_mem hd⟩
  · rw [hdomain] at hx ⊢
    exact hx

end WellFormed

end History

end FiniteDomain
