import Mathlib.Tactic
import Mathlib.Data.Set.Card
import FiniteDomain.IntervalSet.Edit
import FiniteDomain.Proofs.Chain

/-!
Sets of integers and their ranges.

However a set was made, its list of ranges is the only one in canonical form for its members,
and what is asked of the list is answered as for the set of integers.

* `IntervalSet.members`: the set of integers that a list of ranges stands for;
* `IntervalSet.Origin`, `IntervalSet.edits`: sets that were made and then changed, with
  `IntervalSet.Origin.members` and `IntervalSet.Edit.on`, what this means for the integers;
* `IntervalSet.members_edit`, `IntervalSet.members_edits`: one change, and a sequence of them;
* `IntervalSet.edits_represent`: the list of ranges after any changes;
* `IntervalSet.queries_answer`: what is asked of a list of ranges.
-/

namespace FiniteDomain

namespace IntervalSet

variable {s t : IntervalSet} {v : Int}

/-- The integers in the set. -/
def members (s : IntervalSet) : Set Int := {v | v ∈ s}

@[simp] lemma mem_members : v ∈ s.members ↔ v ∈ s := Iff.rfl

lemma members_inj : s.members = t.members ↔ s = t :=
  ⟨fun h => ext fun v => Set.ext_iff.1 h v, fun h => h ▸ rfl⟩

lemma lo_mem {r : Interval} (hr : r ∈ s.ranges) : r.lo ∈ s :=
  ⟨r, hr, Int.le_refl _, s.canonical.nonempty r hr⟩

lemma hi_mem {r : Interval} (hr : r ∈ s.ranges) : r.hi ∈ s :=
  ⟨r, hr, s.canonical.nonempty r hr, Int.le_refl _⟩

/-! ### Changes -/

/-- A set as it is first made. -/
inductive Origin
  | empty
  | single (v : Int)
  | ofRange (lo hi : Int)
  | ofList (vs : List Int)

namespace Origin

/-- The list of ranges that is made. -/
def make : Origin → IntervalSet
  | empty => ∅
  | single v => {v}
  | ofRange lo hi => .ofRange lo hi
  | ofList vs => .ofList vs

/-- The integers that it is made for. -/
def members : Origin → Set Int
  | empty => ∅
  | single v => {v}
  | ofRange lo hi => Set.Icc lo hi
  | ofList vs => {v | v ∈ vs}

/-- The set is made of values that a program may use, or of bounds that it may use. -/
def InRange : Origin → Prop
  | empty => True
  | single v => Value.InRange v
  | ofRange lo hi => Value.InRange lo ∧ Value.InRange hi
  | ofList vs => ∀ v ∈ vs, Value.InRange v

lemma members_make (o : Origin) : o.make.members = o.members := by
  ext v
  cases o with
  | empty => exact iff_of_false not_mem_empty (Set.notMem_empty v)
  | single k => exact mem_singleton
  | ofRange lo hi => exact mem_ofRange
  | ofList vs => exact mem_ofList

lemma inRange_make {o : Origin} (h : o.InRange) : o.make.InRange := by
  intro v hv
  rw [← mem_members, members_make] at hv
  cases o with
  | empty => cases hv
  | single k => exact (Set.mem_singleton_iff.1 hv) ▸ h
  | ofRange lo hi => exact ⟨h.1.1.trans hv.1, hv.2.trans h.2.2⟩
  | ofList vs => exact h v hv

end Origin

namespace Edit

/-- What the operation does to a set of integers. -/
def on (A : Set Int) : Edit → Set Int
  | insert v => A ∪ {v}
  | insertRange lo hi => A ∪ Set.Icc lo hi
  | union t => A ∪ t.members
  | erase v => A \ {v}
  | eraseRange lo hi => A \ Set.Icc lo hi
  | diff t => A \ t.members
  | between lo hi => A ∩ Set.Icc lo hi
  | inter t => A ∩ t.members
  | clear => ∅

/-- The operation adds no values but those that a program may use. -/
def InRange : Edit → Prop
  | insert v => Value.InRange v
  | insertRange lo hi => Value.InRange lo ∧ Value.InRange hi
  | union t => t.InRange
  | _ => True

end Edit

/-- The set after a sequence of operations. -/
def edits (s : IntervalSet) (es : List Edit) : IntervalSet := es.foldl edit s

/-- Each operation on ranges is the operation on sets of integers that it is named for. -/
lemma members_edit (s : IntervalSet) (e : Edit) : (s.edit e).members = e.on s.members := by
  ext v
  cases e with
  | insert k => exact mem_insert
  | insertRange lo hi => exact mem_insertRange
  | union t => exact mem_union
  | erase k => exact mem_erase
  | eraseRange lo hi => exact mem_eraseRange
  | diff t => exact mem_diff
  | between lo hi => exact mem_between
  | inter t => exact mem_inter
  | clear => exact iff_of_false not_mem_empty (Set.notMem_empty v)

lemma members_edits (s : IntervalSet) (es : List Edit) :
    (s.edits es).members = es.foldl Edit.on s.members := by
  induction es generalizing s with
  | nil => rfl
  | cons e es ih => rw [edits, List.foldl_cons, List.foldl_cons, ← members_edit, ← ih, edits]

/-- An operation leaves the range of values only with what it adds. -/
lemma inRange_edit (hs : s.InRange) {e : Edit} (he : e.InRange) : (s.edit e).InRange := by
  intro v hv
  rw [← mem_members, members_edit] at hv
  cases e with
  | insert k => exact hv.elim (hs v) fun h => (Set.mem_singleton_iff.1 h) ▸ he
  | insertRange lo hi =>
    exact hv.elim (hs v) fun h => ⟨he.1.1.trans h.1, h.2.trans he.2.2⟩
  | union t => exact hv.elim (hs v) (he v)
  | erase k | eraseRange lo hi | diff t | between lo hi | inter t => exact hs v hv.1
  | clear => cases hv

lemma inRange_edits (hs : s.InRange) {es : List Edit} (hes : ∀ e ∈ es, e.InRange) :
    (s.edits es).InRange := by
  induction es generalizing s with
  | nil => exact hs
  | cons e es ih =>
    obtain ⟨he, hes⟩ := List.forall_mem_cons.1 hes
    exact ih (inRange_edit hs he) hes

/-- The list of ranges is in canonical form, and stands for the set of integers. -/
structure Represents (s : IntervalSet) (A : Set Int) : Prop where
  /-- No range is without a member. -/
  nonempty : ∀ r ∈ s.ranges, r.lo ≤ r.hi
  /-- The ranges ascend, and between two of them at least one integer is missing. -/
  separated : s.ranges.Pairwise fun r q => r.hi + 1 < q.lo
  members : s.members = A

/-- However a set was made and changed, its ranges are not empty, ascend and do not touch, and
stand for the union, difference or intersection of the integers that the operations speak of.
If all the operations add lies in the range of values, so do the ends of the ranges.  Two such
sets are equal exactly if they have the same integers. -/
theorem edits_represent (o : Origin) (es : List Edit) :
    Represents (o.make.edits es) (es.foldl Edit.on o.members) ∧
    (o.InRange → (∀ e ∈ es, e.InRange) →
      ∀ r ∈ (o.make.edits es).ranges, Value.InRange r.lo ∧ Value.InRange r.hi) ∧
    ∀ (o' : Origin) (es' : List Edit), o.make.edits es = o'.make.edits es' ↔
      es.foldl Edit.on o.members = es'.foldl Edit.on o'.members := by
  have hmembers : ∀ (o : Origin) (es : List Edit),
      (o.make.edits es).members = es.foldl Edit.on o.members := fun o es => by
    rw [members_edits, Origin.members_make]
  refine ⟨⟨?_, ?_, hmembers o es⟩, fun ho hes r hr => ?_, fun o' es' => ?_⟩
  · exact (o.make.edits es).canonical.nonempty
  · exact (o.make.edits es).canonical.separated
  · have hrange := inRange_edits (Origin.inRange_make ho) hes
    exact ⟨hrange _ (lo_mem hr), hrange _ (hi_mem hr)⟩
  · rw [← hmembers, ← hmembers, members_inj]

/-- The whole range of values without its ends, to which one of them comes back and adjoins, and
which bounds that are reversed leave alone. -/
theorem edits_represent_extreme :
    let es : List Edit := [.erase Value.greatest, .erase Value.least, .insertRange 5 3,
      .insert Value.greatest, .eraseRange 1 0]
    let s := (Origin.ofRange Value.least Value.greatest).make.edits es
    s.ranges = [⟨Value.least + 1, Value.greatest⟩] ∧
      s = (Origin.ofRange (Value.least + 1) Value.greatest).make.edits [] ∧
      ∀ r ∈ s.ranges, Value.InRange r.lo ∧ Value.InRange r.hi := by
  intro es s
  have hranges : s.ranges = [⟨Value.least + 1, Value.greatest⟩] := by decide
  have hrange : (Origin.ofRange Value.least Value.greatest).InRange := by
    simp only [Origin.InRange]
    decide
  refine ⟨hranges, by decide, (edits_represent _ es).2.1 hrange fun e he => ?_⟩
  simp only [es, List.mem_cons, List.not_mem_nil, or_false] at he
  rcases he with rfl | rfl | rfl | rfl | rfl <;> simp only [Edit.InRange] <;> decide

/-! ### Queries -/

/-- The integers of a set are those of its list, which has each once. -/
lemma ncard_members (s : IntervalSet) : s.members.ncard = s.size := by
  have hmembers : s.members = ↑s.toList.toFinset := by
    ext v
    rw [List.coe_toFinset, mem_members, ← mem_toList]
    rfl
  have hnodup : s.toList.Nodup := s.toList_sorted.imp fun h => Int.ne_of_lt h
  rw [hmembers, Set.ncard_coe_finset, List.toFinset_card_of_nodup hnodup, length_toList]

/-- The answer is the member of `A` at the end that is asked for, or `none` if there is no
member. -/
structure Finds (answer : Option Int) (extreme : Set Int → Int → Prop) (A : Set Int) : Prop where
  some_iff : ∀ k, answer = some k ↔ extreme A k
  none_iff : answer = none ↔ A = ∅

/-- It is enough that the answer is right if it is given, and that otherwise there is none. -/
lemma finds_of {answer : Option Int} {extreme : Set Int → Int → Prop} {A : Set Int}
    (hunique : ∀ k l, extreme A k → extreme A l → k = l) (hmem : ∀ k, extreme A k → k ∈ A)
    (hsome : ∀ k, answer = some k → extreme A k) (hnone : answer = none → ∀ x, x ∉ A) :
    Finds answer extreme A := by
  cases h : answer with
  | none =>
    have hempty := hnone h
    refine ⟨fun k => ⟨nofun, fun hk => absurd (hmem k hk) (hempty k)⟩, ?_⟩
    exact iff_of_true rfl (Set.eq_empty_iff_forall_notMem.2 hempty)
  | some l =>
    have hl := hsome l h
    refine ⟨fun k => ?_, iff_of_false nofun fun hA => ?_⟩
    · rw [Option.some.injEq]
      exact ⟨fun e => e ▸ hl, hunique l k hl⟩
    · exact Set.eq_empty_iff_forall_notMem.1 hA l (hmem l hl)

lemma finds_least {answer : Option Int} {A : Set Int} (hsome : ∀ k, answer = some k → IsLeast A k)
    (hnone : answer = none → ∀ x, x ∉ A) : Finds answer IsLeast A :=
  finds_of (fun _ _ => IsLeast.unique) (fun _ => And.left) hsome hnone

lemma finds_greatest {answer : Option Int} {A : Set Int}
    (hsome : ∀ k, answer = some k → IsGreatest A k) (hnone : answer = none → ∀ x, x ∉ A) :
    Finds answer IsGreatest A :=
  finds_of (fun _ _ => IsGreatest.unique) (fun _ => And.left) hsome hnone

/-- Whatever is asked of a list of ranges is answered as for the integers that it stands for:
membership, the next member from a value on and the last one up to it, common members and
inclusion, the number of members and the extreme ones.  The members are listed in ascending
order, each once. -/
theorem queries_answer (s t : IntervalSet) :
    (∀ k, s.contains k = true ↔ k ∈ s.members) ∧
    (∀ k, Finds (s.next? k) IsLeast {x ∈ s.members | k ≤ x}) ∧
    (∀ k, Finds (s.previous? k) IsGreatest {x ∈ s.members | x ≤ k}) ∧
    (s.intersects t = true ↔ (s.members ∩ t.members).Nonempty) ∧
    (s.isSubset t = true ↔ s.members ⊆ t.members) ∧
    s.size = s.members.ncard ∧ (s.isEmpty = true ↔ s.members = ∅) ∧
    Finds s.min? IsLeast s.members ∧ Finds s.max? IsGreatest s.members ∧
    s.toList.Pairwise (· < ·) ∧ ∀ k, k ∈ s.toList ↔ k ∈ s.members := by
  refine ⟨fun k => contains_iff, fun k => ?next, fun k => ?previous, intersects_iff, isSubset_iff,
    (ncard_members s).symm, ?empty, ?min, ?max, s.toList_sorted, fun k => mem_toList⟩
  case next =>
    refine finds_least (fun m h => ⟨next?_mem h, fun x hx => next?_le h hx.1 hx.2⟩) ?_
    exact fun h x hx => absurd (lt_of_next?_eq_none h hx.1) (Int.not_lt.2 hx.2)
  case previous =>
    refine finds_greatest (fun m h => ⟨previous?_mem h, fun x hx => le_previous? h hx.1 hx.2⟩) ?_
    exact fun h x hx => absurd (lt_of_previous?_eq_none h hx.1) (Int.not_lt.2 hx.2)
  case empty => rw [isEmpty_iff, Set.eq_empty_iff_forall_notMem]; rfl
  case min => exact finds_least (fun m h => ⟨min?_mem h, fun x => min?_le h⟩) min?_eq_none_iff.1
  case max => exact finds_greatest (fun m h => ⟨max?_mem h, fun x => le_max? h⟩) max?_eq_none_iff.1

end IntervalSet

end FiniteDomain
