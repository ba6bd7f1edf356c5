import Mathlib.Tactic
import FiniteDomain.Proofs.Arithmetic
import FiniteDomain.Proofs.Store.Branch

/-!
Requests in the words of a machine.

When a bound of a root is taken away, the next value is looked for from its neighbour on, and a
request on a view becomes one on its base with another constant.  These neighbours and constants
are taken in words of 32 bits here, and the request stops if one does not fit.  None does: a bound
is taken away only if the other one lies beyond it, and an order view is made 0 only if it can be 1
as well, so that there are values on both sides of its constant.

* `History.evaluate?`: what becomes of a root, with `History.evaluate?_eq`;
* `Booleans.target?`, `View.request?`: the value that a view is to take, and the request on its
  base, with `Booleans.target?_eq` and `View.request?_eq`;
* `Chain.effect?`: both along a chain of views, with `Chain.effect?_eq`;
* `Store.Computes`: a store in which all requests come to a result, which is the right one, with
  `Store.Reachable.computes`: every store is of this kind.
-/

namespace FiniteDomain

open Word

variable {d : IntervalSet} {h : History} {b : Booleans} {w : View} {ws : Chain} {op : Operation}
  {k lo hi : Int} {s : Store} {v : VarId}

/-- A set with one member has it as its lower bound. -/
lemma IntervalSet.lower_eq_of_forall (hk : k ∈ d) (hall : ∀ x, x ∈ d → x = k) : d.lower = k :=
  hall _ (lower_mem ⟨k, hk⟩)

/-! ### Roots -/

namespace History

/-- The lower bound goes up to the least value that is left from `k` on. -/
def raise (h : History) (k : Int) : Effect :=
  match h.current.next? k with
  | some lo => .narrowed (h.current.between lo h.upper)
  | none => .fails .emptied

/-- The upper bound goes down to the greatest value that is left up to `k`. -/
def reduce (h : History) (k : Int) : Effect :=
  match h.current.previous? k with
  | some hi => .narrowed (h.current.between h.lower hi)
  | none => .fails .emptied

/-- What an operation does to the root, if the neighbour of a bound that is taken away fits. -/
def evaluate? (h : History) : Operation → Option Effect
  | .atLeast k =>
    some (if k ≤ h.lower then .unchanged else if h.upper < k then .fails .crossed else h.raise k)
  | .atMost k =>
    some (if h.upper ≤ k then .unchanged else if k < h.lower then .fails .crossed else h.reduce k)
  | .differs k =>
    if !h.contains k then some .unchanged
    else if h.lower = h.upper then some (.fails .emptied)
    else if k = h.lower then (int32.add? k 1).map h.raise
    else if k = h.upper then (int32.sub? k 1).map h.reduce
    else some (.narrowed (h.current.erase k))
  | .equals k =>
    some (if k < h.lower ∨ h.upper < k then .fails .crossed
      else if !h.allows k then .fails .emptied
      else if h.lower = h.upper then .unchanged
      else .narrowed {k})

variable (hread : h.reading = h.current.reading) (hne : ∃ x, x ∈ h.current)
  (hin : h.current.InRange)

include hread in
lemma lower_eq : h.lower = h.current.lower := congrArg Reading.lower hread

include hread in
lemma upper_eq : h.upper = h.current.upper := congrArg Reading.upper hread

include hread in
lemma isFixed_iff : h.current.isFixed = true ↔ h.lower = h.upper := by
  rw [IntervalSet.isFixed, beq_iff_eq, lower_eq hread, upper_eq hread]

lemma not_contains_iff : (!h.contains k) = true ↔ k ∉ h.current := by
  rw [Bool.not_eq_true', ← Bool.not_eq_true, contains_iff]

/-- Between the bounds the holes decide. -/
lemma not_allows_iff (hlo : h.lower ≤ k) (hhi : k ≤ h.upper) :
    (!h.allows k) = true ↔ k ∉ h.current := by
  rw [← not_contains_iff, contains, decide_eq_true hlo, decide_eq_true hhi, Bool.and_self,
    Bool.true_and]

include hread hne in
lemma raise_eq (hk : k ≤ h.upper) : h.raise k = .narrowed (h.current.atLeast k) := by
  rw [upper_eq hread] at hk
  rw [raise]
  split
  · rename_i lo hlo
    obtain ⟨-, hle⟩ := IntervalSet.next?_mem hlo
    congr 1
    ext x
    rw [IntervalSet.mem_between, IntervalSet.mem_atLeast, upper_eq hread]
    constructor
    · rintro ⟨hx, hlox, -⟩
      exact ⟨hx, hle.trans hlox⟩
    · rintro ⟨hx, hkx⟩
      exact ⟨hx, IntervalSet.next?_le hlo hx hkx, IntervalSet.le_upper hx⟩
  · rename_i hnone
    exact absurd hk (Int.not_le.2 (IntervalSet.lt_of_next?_eq_none hnone
      (IntervalSet.upper_mem hne)))

include hread hne in
lemma reduce_eq (hk : h.lower ≤ k) : h.reduce k = .narrowed (h.current.atMost k) := by
  rw [lower_eq hread] at hk
  rw [reduce]
  split
  · rename_i hi hhi
    obtain ⟨-, hle⟩ := IntervalSet.previous?_mem hhi
    congr 1
    ext x
    rw [IntervalSet.mem_between, IntervalSet.mem_atMost, lower_eq hread]
    constructor
    · rintro ⟨hx, -, hxhi⟩
      exact ⟨hx, hxhi.trans hle⟩
    · rintro ⟨hx, hxk⟩
      exact ⟨hx, IntervalSet.lower_le hx, IntervalSet.le_previous? hhi hx hxk⟩
  · rename_i hnone
    exact absurd hk (Int.not_le.2 (IntervalSet.lt_of_previous?_eq_none hnone
      (IntervalSet.lower_mem hne)))

include hread hne hin in
/-- A bound that is taken away has the other one beyond it, so its neighbour fits. -/
lemma evaluate?_differs (k : Int) :
    h.evaluate? (.differs k) = some ((Operation.differs k).effect h.current) := by
  rw [evaluate?, Operation.effect]
  by_cases hk : k ∈ h.current
  case neg => rw [if_pos (not_contains_iff.2 hk), if_pos hk]
  rw [if_neg fun hno => not_contains_iff.1 hno hk, if_neg (not_not_intro hk)]
  by_cases hfixed : h.lower = h.upper
  case pos => rw [if_pos hfixed, if_pos ((isFixed_iff hread).2 hfixed)]
  rw [if_neg hfixed, if_neg fun hfix => hfixed ((isFixed_iff hread).1 hfix)]
  have hlower := hin _ (IntervalSet.lower_mem hne)
  have hupper := hin _ (IntervalSet.upper_mem hne)
  have hle := IntervalSet.lower_le (IntervalSet.upper_mem hne)
  rw [← lower_eq hread] at hlower hle
  rw [← upper_eq hread] at hupper hle
  have hlt : h.lower < h.upper := lt_of_le_of_ne hle hfixed
  by_cases hlow : k = h.lower
  · rw [if_pos hlow, hlow, add?_one hlower hupper hlt, Option.map_some,
      raise_eq hread hne (Int.add_one_le_of_lt hlt)]
    congr 2
    ext x
    rw [IntervalSet.mem_atLeast, IntervalSet.mem_erase]
    refine and_congr_right fun hx => ?_
    have := IntervalSet.lower_le hx
    rw [← lower_eq hread] at this
    omega
  by_cases hhigh : k = h.upper
  · rw [if_neg hlow, if_pos hhigh, hhigh, sub?_one hupper hlower hlt, Option.map_some,
      reduce_eq hread hne (Int.le_sub_one_of_lt hlt)]
    congr 2
    ext x
    rw [IntervalSet.mem_atMost, IntervalSet.mem_erase]
    refine and_congr_right fun hx => ?_
    have := IntervalSet.le_upper hx
    rw [← upper_eq hread] at this
    omega
  · rw [if_neg hlow, if_neg hhigh]

include hread hne hin in
lemma evaluate?_eq (op : Operation) : h.evaluate? op = some (op.effect h.current) := by
  cases op with
  | atLeast k =>
    rw [evaluate?, Operation.effect, ← lower_eq hread, ← upper_eq hread]
    split_ifs with hlow hhigh
    · rfl
    · rfl
    · rw [raise_eq hread hne (Int.not_lt.1 hhigh)]
  | atMost k =>
    rw [evaluate?, Operation.effect, ← lower_eq hread, ← upper_eq hread]
    split_ifs with hhigh hlow
    · rfl
    · rfl
    · rw [reduce_eq hread hne (Int.not_lt.1 hlow)]
  | differs k => exact evaluate?_differs hread hne hin k
  | equals k =>
    rw [evaluate?, Operation.effect, ← lower_eq hread, ← upper_eq hread]
    by_cases hout : k < h.lower ∨ h.upper < k
    · rw [if_pos hout, if_pos hout]
    · have hlo : h.lower ≤ k := by omega
      have hhi : k ≤ h.upper := by omega
      simp only [hout, not_allows_iff hlo hhi, isFixed_iff hread, if_false]

end History

/-! ### Views -/

/-- The value that is left to a boolean variable that an operation narrows. -/
def Effect.target : Effect → Except Inconsistency.Kind (Option Int)
  | .unchanged => .ok none
  | .fails kind => .error kind
  | .narrowed left => .ok (some left.lower)

namespace Booleans

/-- The value that an operation gives to a boolean variable, or none if it holds already, if the
other one of a value that is taken away fits. -/
def target? (b : Booleans) : Operation → Option (Except Inconsistency.Kind (Option Int))
  | .atLeast k =>
    some (if k ≤ b.reading.lower then .ok none
      else if b.reading.upper < k then .error .crossed
      else .ok (some 1))
  | .atMost k =>
    some (if b.reading.upper ≤ k then .ok none
      else if k < b.reading.lower then .error .crossed
      else .ok (some 0))
  | .differs k =>
    if !b.reading.contains k then some (.ok none)
    else if b.reading.isFixedTo k then some (.error .emptied)
    else (int32.sub? 1 k).map fun t => .ok (some t)
  | .equals k =>
    some (if !b.reading.contains k then .error .crossed
      else if b.reading.isFixedTo k then .ok none
      else .ok (some k))

lemma eq_zero_or_one (hk : k ∈ b.toSet) : k = 0 ∨ k = 1 :=
  (mem_toSet.1 hk).imp And.left And.left

lemma not_contains_iff : (!b.toSet.reading.contains k) = true ↔ k ∉ b.toSet := by
  rw [Bool.not_eq_true', ← Bool.not_eq_true]
  exact not_congr IntervalSet.contains_iff

lemma isFixedTo_iff (hk : k ∈ b.toSet) :
    b.toSet.reading.isFixedTo k = true ↔ b.toSet.isFixed = true := by
  have := IntervalSet.lower_le hk
  have := IntervalSet.le_upper hk
  simp only [Reading.isFixedTo, IntervalSet.reading, IntervalSet.isFixed, Bool.and_eq_true,
    beq_iff_eq]
  omega

section Nonempty

variable (hne : ∃ y, y ∈ b.toSet)

include hne

/-- A variable with two bounds has both values. -/
lemma mem_of_lower_lt_upper (hlt : b.toSet.lower < b.toSet.upper) :
    b.toSet.lower = 0 ∧ b.toSet.upper = 1 ∧ (0 : Int) ∈ b.toSet ∧ (1 : Int) ∈ b.toSet := by
  have hlo := IntervalSet.lower_mem hne
  have hhi := IntervalSet.upper_mem hne
  have hzero : b.toSet.lower = 0 := by
    have := eq_zero_or_one hlo
    have := eq_zero_or_one hhi
    omega
  have hone : b.toSet.upper = 1 := (eq_zero_or_one hhi).resolve_left (by omega)
  exact ⟨hzero, hone, hzero ▸ hlo, hone ▸ hhi⟩

lemma lower_atLeast (hlo : b.toSet.lower < k) (hhi : k ≤ b.toSet.upper) :
    (b.toSet.atLeast k).lower = 1 := by
  obtain ⟨hzero, hupper, -, hone⟩ := mem_of_lower_lt_upper hne (hlo.trans_le hhi)
  refine IntervalSet.lower_eq_of_forall (IntervalSet.mem_atLeast.2 ⟨hone, by omega⟩) fun y hy => ?_
  obtain ⟨hy, hk⟩ := IntervalSet.mem_atLeast.1 hy
  exact (eq_zero_or_one hy).resolve_left (by omega)

lemma lower_atMost (hlo : b.toSet.lower ≤ k) (hhi : k < b.toSet.upper) :
    (b.toSet.atMost k).lower = 0 := by
  obtain ⟨hlower, hupper, hzero, -⟩ := mem_of_lower_lt_upper hne (hlo.trans_lt hhi)
  refine IntervalSet.lower_eq_of_forall (IntervalSet.mem_atMost.2 ⟨hzero, by omega⟩) fun y hy => ?_
  obtain ⟨hy, hk⟩ := IntervalSet.mem_atMost.1 hy
  exact (eq_zero_or_one hy).resolve_right (by omega)

/-- If one value of two is taken away, the other one is left. -/
lemma lower_erase (hk : k ∈ b.toSet) (hfixed : ¬ b.toSet.isFixed = true) :
    (b.toSet.erase k).lower = 1 - k := by
  have hle := (IntervalSet.lower_le hk).trans (IntervalSet.le_upper hk)
  rw [IntervalSet.isFixed, beq_iff_eq] at hfixed
  obtain ⟨-, -, hzero, hone⟩ := mem_of_lower_lt_upper hne (lt_of_le_of_ne hle hfixed)
  have hor := eq_zero_or_one hk
  refine IntervalSet.lower_eq_of_forall (IntervalSet.mem_erase.2 ⟨?_, by omega⟩) fun y hy => ?_
  · rcases hor with rfl | rfl
    · exact hone
    · exact hzero
  · obtain ⟨hy, hne⟩ := IntervalSet.mem_erase.1 hy
    have := eq_zero_or_one hy
    omega

/-- No value is missing between the bounds. -/
lemma outside_of_not_mem (hk : k ∉ b.toSet) : k < b.toSet.lower ∨ b.toSet.upper < k := by
  have hlo := IntervalSet.lower_mem hne
  have hhi := IntervalSet.upper_mem hne
  by_contra hno
  have hlow := eq_zero_or_one hlo
  have hhigh := eq_zero_or_one hhi
  rcases show k = b.toSet.lower ∨ k = b.toSet.upper by omega with rfl | rfl
  · exact hk hlo
  · exact hk hhi

/-- The other value of a flag fits, and the answers are those of the set of the flags. -/
lemma target?_eq (op : Operation) : b.target? op = some (op.effect b.toSet).target := by
  cases op with
  | atLeast k =>
    simp only [target?, Operation.effect, reading_eq hne, IntervalSet.reading]
    split_ifs with hlow hhigh
    · rfl
    · rfl
    · rw [Effect.target, lower_atLeast hne (Int.not_le.1 hlow) (Int.not_lt.1 hhigh)]
  | atMost k =>
    simp only [target?, Operation.effect, reading_eq hne, IntervalSet.reading]
    split_ifs with hhigh hlow
    · rfl
    · rfl
    · rw [Effect.target, lower_atMost hne (Int.not_lt.1 hlow) (Int.not_le.1 hhigh)]
  | differs k =>
    rw [target?, Operation.effect, reading_eq hne]
    by_cases hk : k ∈ b.toSet
    case neg =>
      rw [if_pos (not_contains_iff.2 hk), if_pos hk]
      rfl
    rw [if_neg fun hno => not_contains_iff.1 hno hk, if_neg (not_not_intro hk)]
    by_cases hfixed : b.toSet.isFixed = true
    · rw [if_pos ((isFixedTo_iff hk).2 hfixed), if_pos hfixed]
      rfl
    · rw [if_neg fun h => hfixed ((isFixedTo_iff hk).1 h), if_neg hfixed,
        sub?_flag (eq_zero_or_one hk), Effect.target, lower_erase hne hk hfixed]
      rfl
  | equals k =>
    rw [target?, Operation.effect, reading_eq hne]
    by_cases hk : k ∈ b.toSet
    case neg =>
      rw [if_pos (not_contains_iff.2 hk), if_pos (outside_of_not_mem hne hk)]
      rfl
    have hinside : ¬ (k < b.toSet.lower ∨ b.toSet.upper < k) := by
      have := IntervalSet.lower_le hk
      have := IntervalSet.le_upper hk
      omega
    rw [if_neg fun hno => not_contains_iff.1 hno hk, if_neg hinside, if_neg (not_not_intro hk)]
    by_cases hfixed : b.toSet.isFixed = true
    · rw [if_pos ((isFixedTo_iff hk).2 hfixed), if_pos hfixed]
      rfl
    · rw [if_neg fun h => hfixed ((isFixedTo_iff hk).1 h), if_neg hfixed, Effect.target,
        IntervalSet.lower_eq_of_forall (IntervalSet.mem_singleton.2 rfl) fun y hy =>
          IntervalSet.mem_singleton.1 hy]

end Nonempty

end Booleans

/-- The request on the base that gives the view a value, if its constant fits. -/
def View.request? (w : View) (target : Int) : Option Operation :=
  match w.condition with
  | .equals k => some (if target = 1 then .equals k else .differs k)
  | .atMost k => if target = 1 then some (.atMost k) else (int32.add? k 1).map .atLeast
  | .negation => (int32.sub? 1 target).map .equals

lemma View.request?_eq {t : Int} (ht : t = 0 ∨ t = 1)
    (hk : ∀ k, w.condition = .atMost k → t = 0 → Value.InRange (k + 1)) :
    w.request? t = some (w.request t) := by
  cases hc : w.condition with
  | equals k => rw [request?, request, hc]
  | atMost k =>
    simp only [request?, request, hc]
    split_ifs with hone
    · rfl
    · have hnext := hk k hc (ht.resolve_right hone)
      have hfits : int32.add? k 1 = some (k + 1) := hold?_int32 hnext
      rw [hfits, Value.above_of_lt (Int.lt_of_add_one_le hnext.2), Option.map_some]
  | negation =>
    simp only [request?, request, hc]
    rw [sub?_flag ht, Option.map_some]

namespace Chain

/-- What an operation on the head of the chain does to the root, if all constants fit. -/
def effect? (h : History) : Chain → Operation → Option RootEffect
  | [], op => do
    match ← h.evaluate? op with
    | .unchanged => return .unchanged
    | .fails kind => return .fails kind
    | .narrowed left => return .narrowed op left
  | w :: ws, op => do
    match ← (w.flags (reading ws h.reading)).target? op with
    | .ok none => return .unchanged
    | .error kind => return .fails kind
    | .ok (some target) => effect? h ws (← w.request? target)

/-- A view that is narrowed has both values, so an order view has values of its base on both
sides of its constant. -/
lemma request?_of_narrowed {left : IntervalSet} (hb : Boolean d (w :: ws)) (hne : ∃ x, x ∈ d)
    (hin : d.InRange) (he : op.effect (image (w :: ws) d) = .narrowed left) :
    w.request? left.lower = some (w.request left.lower) := by
  have himage : ∃ y, y ∈ image (w :: ws) d := hne.imp' _ fun _ => value_mem_image hb
  have hvalues : ∀ y, y ∈ image (w :: ws) d → ∃ x, x ∈ d ∧ w.value (value ws x) = y :=
    fun y => (mem_image hb hne).1
  have hbool : ∀ y, y ∈ image (w :: ws) d → y = 0 ∨ y = 1 := by
    intro y hy
    obtain ⟨x, hx, rfl⟩ := hvalues y hy
    exact value_boolean hb hx
  have hlower := IntervalSet.lower_mem (Operation.exists_mem_of_narrowed himage he)
  obtain ⟨hmem, hholds⟩ := (Operation.mem_of_narrowed he _).1 hlower
  refine View.request?_eq (hbool _ hmem) fun k hc hzero => ?_
  obtain ⟨z, hz, hno⟩ := Operation.exists_not_holds_of_narrowed himage he
  have hone : z = 1 := (hbool z hz).resolve_left fun h => hno (h ▸ hzero ▸ hholds)
  obtain ⟨x, hx, hxvalue⟩ := hvalues _ hmem
  obtain ⟨y, hy, hyvalue⟩ := hvalues z hz
  have hxin := (value_inRange hb.2 hin hx).2
  have hyin := (value_inRange hb.2 hin hy).1
  simp only [View.value, hc, hzero, hone] at hxvalue hyvalue
  have hlt : k < value ws x := Int.not_le.1 fun hle => by simp [hle] at hxvalue
  have hle : value ws y ≤ k := by
    by_contra hno
    simp [hno] at hyvalue
  exact ⟨by omega, by omega⟩

lemma effect?_eq (hread : h.reading = h.current.reading) (hne : ∃ x, x ∈ h.current)
    (hin : h.current.InRange) (hb : Boolean h.current ws) (op : Operation) :
    effect? h ws op = some (effect ws h.current op) := by
  induction ws generalizing op with
  | nil =>
    rw [effect?, effect, History.evaluate?_eq hread hne hin]
    cases op.effect h.current <;> rfl
  | cons w ws ih =>
    have himage : ∃ y, y ∈ image (w :: ws) h.current := hne.imp' _ fun _ => value_mem_image hb
    have htarget : (w.flags (reading ws h.reading)).target? op =
        some (op.effect (image (w :: ws) h.current)).target := by
      rw [hread, reading_eq hb.2 hne]
      exact Booleans.target?_eq himage op
    rw [effect?, effect, htarget]
    cases heff : op.effect (image (w :: ws) h.current) with
    | unchanged => rfl
    | fails kind => rfl
    | narrowed left =>
      have hrequest := request?_of_narrowed hb hne hin heff
      exact (congrArg (Option.bind · (effect? h ws)) hrequest).trans (ih hb.2 _)

end Chain

namespace Store

/-- All requests in the store come to a result in words, and the result is the right one. -/
def Computes (s : Store) : Prop :=
  ∀ v, s.has v = true → ∀ op,
    (s.chain v).effect? (s.history v) op = some ((s.chain v).effect (s.history v).current op)

lemma WellFormed.computes (w : s.WellFormed) : s.Computes := fun _ hv op =>
  Chain.effect?_eq (w.history _ hv).reading_eq (w.current_nonempty hv) (w.current_inRange hv)
    (w.boolean_current hv) op

lemma Reachable.computes (h : s.Reachable) : s.Computes := by
  obtain ⟨past, hbranch⟩ := h
  exact hbranch.wellFormed.computes

end Store

end FiniteDomain
