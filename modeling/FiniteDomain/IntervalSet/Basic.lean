import FiniteDomain.Value

/-!
Sets of integers as ranges.

A finite set of integers is kept as the list of its maximal ranges of
consecutive members, in ascending order.  Each set has exactly one such list,
so two sets are equal as soon as they have the same members
(`IntervalSet.ext` in the lemmas beside this file).

* `Interval`: a range of consecutive integers;
* `Ranges.Canonical`: the form a list of ranges has in a set;
* `Ranges.insert`, `Ranges.erase`, `Ranges.clip`, `Ranges.inter`: the
  operations on lists of ranges, each of which keeps the form
  (`Ranges.canonical_insert` and its neighbours);
* `Ranges.reaching?`, `Ranges.compared`: the search for a value, and the walk
  along two lists, which find what they look for if the lists have the form;
* `IntervalSet`: a list of ranges in that form, with the set operations, the
  queries and the printed form.
-/

namespace FiniteDomain

/-- The integers from `lo` to `hi`, both included. -/
structure Interval where
  lo : Int
  hi : Int
  deriving DecidableEq, Repr

namespace Interval

/-- A range contains the integers between its ends. -/
instance : Membership Int Interval := ⟨fun r v => r.lo ≤ v ∧ v ≤ r.hi⟩

theorem mem_def {r : Interval} {v : Int} : v ∈ r ↔ r.lo ≤ v ∧ v ≤ r.hi := Iff.rfl

instance (r : Interval) (v : Int) : Decidable (v ∈ r) :=
  inferInstanceAs (Decidable (_ ∧ _))

/-- The number of integers in the range. -/
def size (r : Interval) : Nat := (r.hi - r.lo + 1).toNat

/-- The first `n` integers of the range, ascending. -/
def take (r : Interval) (n : Nat) : List Int :=
  (List.range (min n r.size)).map fun (i : Nat) => r.lo + (i : Int)

/-- The integers of the range, ascending. -/
def toList (r : Interval) : List Int := r.take r.size

/-- The part of the range between two bounds, if there is one. -/
def clip (lo hi : Int) (r : Interval) : Option Interval :=
  if max r.lo lo ≤ min r.hi hi then some ⟨max r.lo lo, min r.hi hi⟩ else none

/-- The part of the range from a bound on, if there is one. -/
def atLeast? (lo : Int) (r : Interval) : Option Interval :=
  if lo ≤ r.hi then some ⟨max r.lo lo, r.hi⟩ else none

/-- The part of the range up to a bound, if there is one. -/
def atMost? (hi : Int) (r : Interval) : Option Interval :=
  if r.lo ≤ hi then some ⟨r.lo, min r.hi hi⟩ else none

/-- What is left of the range without the integers from `lo` to `hi`. -/
def without (lo hi : Int) (r : Interval) : List Interval :=
  (r.atMost? (lo - 1)).toList ++ (r.atLeast? (hi + 1)).toList

/-- A range of one integer is written as that integer. -/
protected def toString (r : Interval) : String :=
  if r.lo = r.hi then toString r.lo else toString r.lo ++ ".." ++ toString r.hi

instance : ToString Interval := ⟨Interval.toString⟩

end Interval

/-! ### Lists of ranges -/

namespace Ranges

/-- Every range has a member, and each range ends at least two below the start
of every later one. -/
structure Canonical (rs : List Interval) : Prop where
  nonempty : ∀ r ∈ rs, r.lo ≤ r.hi
  separated : rs.Pairwise fun r s => r.hi + 1 < s.lo

/-- The integers in some range of the list. -/
def Mem (v : Int) (rs : List Interval) : Prop := ∃ r ∈ rs, v ∈ r

/-- The list with the range from `lo` to `hi` added: the ranges it touches are
merged into it. -/
def insert (lo hi : Int) : List Interval → List Interval
  | [] => [⟨lo, hi⟩]
  | r :: rs =>
    if r.hi + 1 < lo then r :: insert lo hi rs
    else if hi + 1 < r.lo then ⟨lo, hi⟩ :: r :: rs
    else insert (min lo r.lo) (max hi r.hi) rs

/-- The list without the integers from `lo` to `hi`. -/
def erase (lo hi : Int) (rs : List Interval) : List Interval :=
  rs.flatMap (Interval.without lo hi)

/-- The part of the list between two bounds. -/
def clip (lo hi : Int) (rs : List Interval) : List Interval :=
  rs.filterMap (Interval.clip lo hi)

/-- The first range of the list that ends at `v` or later. -/
def reaching? (v : Int) (rs : List Interval) : Option Interval :=
  rs.find? fun r => decide (v ≤ r.hi)

/-- The pairs that a walk along two lists compares while it stands at the range `r` of the
first one.  It passes the ranges of the second that end no later than `r`, and goes on with
`next` at the first that ends later. -/
def comparedTo (r : Interval) (next : List Interval → List (Interval × Interval)) :
    List Interval → List (Interval × Interval)
  | [] => []
  | q :: qs => (r, q) :: if r.hi < q.hi then next (q :: qs) else comparedTo r next qs

/-- The pairs of ranges that a walk along two lists compares.  Each step leaves the range behind
that ends first, and of two that end together the one of the second list. -/
def compared : List Interval → List Interval → List (Interval × Interval)
  | [], _ => []
  | r :: rs, ss => comparedTo r (compared rs) ss

/-- The part of the list that lies in a second list too. -/
def inter (rs ss : List Interval) : List Interval :=
  (compared rs ss).filterMap fun p => p.2.clip p.1.lo p.1.hi

theorem canonical_nil : Canonical [] := ⟨by simp, .nil⟩

theorem canonical_cons {r : Interval} {rs : List Interval} :
    Canonical (r :: rs) ↔
      r.lo ≤ r.hi ∧ (∀ s ∈ rs, r.hi + 1 < s.lo) ∧ Canonical rs := by
  constructor
  · rintro ⟨hn, hs⟩
    rw [List.pairwise_cons] at hs
    exact ⟨hn r (by simp), hs.1, fun s h => hn s (by simp [h]), hs.2⟩
  · rintro ⟨hr, hs, hc⟩
    refine ⟨fun s h => ?_, List.pairwise_cons.2 ⟨hs, hc.separated⟩⟩
    rcases List.mem_cons.1 h with rfl | h
    · exact hr
    · exact hc.nonempty s h

/-- Everything in the result starts no lower than the added range and the
ranges that were there. -/
theorem le_lo_of_mem_insert {lo hi b : Int} {rs : List Interval} (hb : b ≤ lo)
    (h : ∀ r ∈ rs, b ≤ r.lo) : ∀ r ∈ insert lo hi rs, b ≤ r.lo := by
  fun_induction insert lo hi rs with
  | case1 => simpa using hb
  | case2 lo hi r rs h₁ ih =>
    intro s hs
    rcases List.mem_cons.1 hs with rfl | hs
    · exact h _ (by simp)
    · exact ih hb (fun t ht => h t (by simp [ht])) s hs
  | case3 => simpa [hb] using h
  | case4 lo hi r rs h₁ h₂ ih =>
    have := h r (by simp)
    exact ih (by omega) fun t ht => h t (by simp [ht])

/-- Adding a range keeps the form. -/
theorem canonical_insert {lo hi : Int} {rs : List Interval} (hle : lo ≤ hi)
    (h : Canonical rs) : Canonical (insert lo hi rs) := by
  fun_induction insert lo hi rs with
  | case1 => exact canonical_cons.2 ⟨hle, by simp, canonical_nil⟩
  | case2 lo hi r rs h₁ ih =>
    obtain ⟨hr, hs, hc⟩ := canonical_cons.1 h
    refine canonical_cons.2 ⟨hr, fun s hmem => ?_, ih hle hc⟩
    have : r.hi + 2 ≤ s.lo := le_lo_of_mem_insert (by omega)
      (fun t ht => by have := hs t ht; omega) s hmem
    omega
  | case3 lo hi r rs h₁ h₂ =>
    refine canonical_cons.2 ⟨hle, fun s hmem => ?_, h⟩
    obtain ⟨hr, hs, hc⟩ := canonical_cons.1 h
    rcases List.mem_cons.1 hmem with rfl | hmem
    · exact h₂
    · have := hs s hmem
      simp only
      omega
  | case4 lo hi r rs h₁ h₂ ih =>
    obtain ⟨hr, hs, hc⟩ := canonical_cons.1 h
    exact ih (by omega) hc

theorem mem_clip_bounds {lo hi : Int} {r s : Interval} (h : r.clip lo hi = some s) :
    r.lo ≤ s.lo ∧ s.hi ≤ r.hi ∧ lo ≤ s.lo ∧ s.hi ≤ hi ∧ s.lo ≤ s.hi := by
  rw [Interval.clip] at h
  split at h
  case isTrue hle =>
    cases h
    exact ⟨Int.le_max_left .., Int.min_le_left .., Int.le_max_right .., Int.min_le_right .., hle⟩
  case isFalse => cases h

/-- Cutting at two bounds keeps the form. -/
theorem canonical_clip {lo hi : Int} {rs : List Interval} (h : Canonical rs) :
    Canonical (clip lo hi rs) := by
  refine ⟨fun s hs => ?_, ?_⟩
  · obtain ⟨r, -, hr⟩ := List.mem_filterMap.1 hs
    exact (mem_clip_bounds hr).2.2.2.2
  · refine List.pairwise_filterMap.2 (h.separated.imp fun {r t} hrt s hs u hu => ?_)
    have := mem_clip_bounds hs
    have := mem_clip_bounds hu
    omega

/-- Replacing each range by ranges inside it keeps the form. -/
theorem canonical_flatMap {f : Interval → List Interval} {rs : List Interval}
    (h : Canonical rs) (hf : ∀ r ∈ rs, Canonical (f r))
    (hin : ∀ r ∈ rs, ∀ s ∈ f r, r.lo ≤ s.lo ∧ s.hi ≤ r.hi) :
    Canonical (rs.flatMap f) := by
  refine ⟨fun s hs => ?_, ?_⟩
  · obtain ⟨r, hr, hs⟩ := List.mem_flatMap.1 hs
    exact (hf r hr).nonempty s hs
  · refine List.pairwise_flatMap.2 ⟨fun r hr => (hf r hr).separated, ?_⟩
    refine h.separated.imp_of_mem fun {r t} hr ht hrt s hs u hu => ?_
    have := hin r hr s hs
    have := hin t ht u hu
    omega

theorem mem_without_bounds {lo hi : Int} {r s : Interval} (h : s ∈ r.without lo hi)
    (hr : r.lo ≤ r.hi) : r.lo ≤ s.lo ∧ s.hi ≤ r.hi ∧ s.lo ≤ s.hi := by
  simp only [Interval.without, Interval.atMost?, Interval.atLeast?, List.mem_append,
    Option.mem_toList] at h
  rcases h with h | h <;> split at h <;> cases h <;> dsimp only <;> omega

/-- Removing a range keeps the form. -/
theorem canonical_erase {lo hi : Int} {rs : List Interval} (hle : lo ≤ hi)
    (h : Canonical rs) : Canonical (erase lo hi rs) := by
  refine canonical_flatMap h (fun r hr => ⟨fun s hs => ?_, ?_⟩) fun r hr s hs => ?_
  · exact (mem_without_bounds hs (h.nonempty r hr)).2.2
  · simp only [Interval.without, Interval.atMost?, Interval.atLeast?]
    split <;> split <;> simp
    omega
  · have := mem_without_bounds hs (h.nonempty r hr)
    exact ⟨this.1, this.2.1⟩

theorem compared_cons (r q : Interval) (rs qs : List Interval) :
    compared (r :: rs) (q :: qs) =
      (r, q) :: if r.hi < q.hi then compared rs (q :: qs) else compared (r :: rs) qs := rfl

theorem mem_of_mem_compared {rs ss : List Interval} {p : Interval × Interval}
    (h : p ∈ compared rs ss) : p.1 ∈ rs ∧ p.2 ∈ ss := by
  induction rs generalizing ss with
  | nil => cases h
  | cons r rs ih =>
    induction ss with
    | nil => cases h
    | cons q qs ihs =>
      rw [compared_cons, List.mem_cons] at h
      rcases h with rfl | h
      · exact ⟨List.mem_cons_self, List.mem_cons_self⟩
      · split at h
        · exact ⟨List.mem_cons_of_mem _ (ih h).1, (ih h).2⟩
        · exact ⟨(ihs h).1, List.mem_cons_of_mem _ (ihs h).2⟩

/-- What a pair of the walk has in common lies below what every later pair has in common. -/
theorem pairwise_compared {rs ss : List Interval} (hr : Canonical rs) (hs : Canonical ss) :
    (compared rs ss).Pairwise fun p p' => min p.1.hi p.2.hi + 1 < max p'.1.lo p'.2.lo := by
  induction rs generalizing ss with
  | nil => exact .nil
  | cons r rs ih =>
    obtain ⟨-, hafter, hrs⟩ := canonical_cons.1 hr
    induction ss with
    | nil => exact .nil
    | cons q qs ihs =>
      obtain ⟨-, hafter', hqs⟩ := canonical_cons.1 hs
      rw [compared_cons]
      refine List.pairwise_cons.2 ⟨fun p hp => ?_, ?_⟩
      · dsimp only
        split at hp
        · have := hafter p.1 (mem_of_mem_compared hp).1
          omega
        · have := hafter' p.2 (mem_of_mem_compared hp).2
          omega
      · split
        · exact ih hrs hs
        · exact ihs hqs

/-- The common part of two lists has the form if both do. -/
theorem canonical_inter {rs ss : List Interval} (hr : Canonical rs) (hs : Canonical ss) :
    Canonical (inter rs ss) := by
  refine ⟨fun s h => ?_, ?_⟩
  · obtain ⟨p, -, hp⟩ := List.mem_filterMap.1 h
    exact (mem_clip_bounds hp).2.2.2.2
  · refine List.pairwise_filterMap.2 ((pairwise_compared hr hs).imp fun {p p'} h s hs u hu => ?_)
    have := mem_clip_bounds hs
    have := mem_clip_bounds hu
    omega

end Ranges

/-! ### Sets -/

/-- A finite set of integers, as its maximal ranges in ascending order. -/
structure IntervalSet where
  ranges : List Interval
  canonical : Ranges.Canonical ranges

namespace IntervalSet

instance : DecidableEq IntervalSet := fun s t =>
  decidable_of_iff (s.ranges = t.ranges)
    ⟨fun h => by cases s; cases t; simpa using h, fun h => h ▸ rfl⟩

instance : Repr IntervalSet := ⟨fun s n => reprPrec s.ranges n⟩

/-- The members of a set are the integers of its ranges. -/
instance : Membership Int IntervalSet := ⟨fun s v => Ranges.Mem v s.ranges⟩

theorem mem_def {s : IntervalSet} {v : Int} : v ∈ s ↔ ∃ r ∈ s.ranges, v ∈ r := Iff.rfl

instance (s : IntervalSet) (v : Int) : Decidable (v ∈ s) :=
  inferInstanceAs (Decidable (∃ r ∈ s.ranges, v ∈ r))

instance : EmptyCollection IntervalSet := ⟨⟨[], Ranges.canonical_nil⟩⟩

instance : Inhabited IntervalSet := ⟨∅⟩

/-- The set with the integers from `lo` to `hi` added. -/
def insertRange (lo hi : Int) (s : IntervalSet) : IntervalSet :=
  if h : lo ≤ hi then ⟨Ranges.insert lo hi s.ranges, Ranges.canonical_insert h s.canonical⟩
  else s

/-- The set with one integer added. -/
def insert (v : Int) (s : IntervalSet) : IntervalSet := s.insertRange v v

/-- The integers from `lo` to `hi`. -/
def ofRange (lo hi : Int) : IntervalSet := insertRange lo hi ∅

/-- The set of one integer. -/
def single (v : Int) : IntervalSet := ofRange v v

instance : Singleton Int IntervalSet := ⟨single⟩

/-- The set of the integers in a list. -/
def ofList (vs : List Int) : IntervalSet := vs.foldl (fun s v => s.insert v) ∅

/-- The set of the integers in a list of ranges, which may overlap and stand in
any order. -/
def ofRanges (rs : List Interval) : IntervalSet :=
  rs.foldl (fun s r => s.insertRange r.lo r.hi) ∅

/-- The members of either set. -/
def union (s t : IntervalSet) : IntervalSet :=
  t.ranges.foldl (fun s r => s.insertRange r.lo r.hi) s

instance : Union IntervalSet := ⟨union⟩

/-- The members outside the integers from `lo` to `hi`. -/
def eraseRange (lo hi : Int) (s : IntervalSet) : IntervalSet :=
  if h : lo ≤ hi then ⟨Ranges.erase lo hi s.ranges, Ranges.canonical_erase h s.canonical⟩
  else s

/-- The members other than one integer. -/
def erase (v : Int) (s : IntervalSet) : IntervalSet := s.eraseRange v v

/-- The members of the first set that are not in the second. -/
def diff (s t : IntervalSet) : IntervalSet :=
  t.ranges.foldl (fun s r => s.eraseRange r.lo r.hi) s

instance : SDiff IntervalSet := ⟨diff⟩

/-- The members from `lo` to `hi`. -/
def between (lo hi : Int) (s : IntervalSet) : IntervalSet :=
  ⟨Ranges.clip lo hi s.ranges, Ranges.canonical_clip s.canonical⟩

/-- The members of both sets. -/
def inter (s t : IntervalSet) : IntervalSet :=
  ⟨Ranges.inter s.ranges t.ranges, Ranges.canonical_inter s.canonical t.canonical⟩

instance : Inter IntervalSet := ⟨inter⟩

/-! ### Queries -/

/-- Whether the set has no member. -/
def isEmpty (s : IntervalSet) : Bool := s.ranges.isEmpty

/-- Whether the integer is a member. -/
def contains (s : IntervalSet) (v : Int) : Bool :=
  (Ranges.reaching? v s.ranges).any fun r => decide (r.lo ≤ v)

/-- The number of members. -/
def size (s : IntervalSet) : Nat := s.ranges.foldr (fun r n => r.size + n) 0

/-- The least member, if there is one. -/
def min? (s : IntervalSet) : Option Int := s.ranges.head?.map Interval.lo

/-- The greatest member, if there is one. -/
def max? (s : IntervalSet) : Option Int := s.ranges.getLast?.map Interval.hi

/-- The least member; an empty set has the greatest value. -/
def lower (s : IntervalSet) : Int := s.min?.getD Value.greatest

/-- The greatest member; an empty set has the least value. -/
def upper (s : IntervalSet) : Int := s.max?.getD Value.least

/-- The members from a bound on. -/
def atLeast (lo : Int) (s : IntervalSet) : IntervalSet := s.between lo (max lo s.upper)

/-- The members up to a bound. -/
def atMost (hi : Int) (s : IntervalSet) : IntervalSet := s.between (min hi s.lower) hi

/-- Whether the set has exactly one member. -/
def isFixed (s : IntervalSet) : Bool := s.lower == s.upper

/-- Whether the integer is the only member. -/
def isFixedTo (s : IntervalSet) (v : Int) : Bool := s.lower == v && s.upper == v

/-- The least member that is at least `v`. -/
def next? (s : IntervalSet) (v : Int) : Option Int :=
  (Ranges.reaching? v s.ranges).map fun r => max r.lo v

/-- The greatest member that is at most `v`. -/
def previous? (s : IntervalSet) (v : Int) : Option Int :=
  (s.ranges.takeWhile fun r => decide (r.lo ≤ v)).getLast?.map fun r => min r.hi v

/-- Whether the two sets have a member in common. -/
def intersects (s t : IntervalSet) : Bool :=
  (Ranges.compared s.ranges t.ranges).any fun p =>
    decide (max p.1.lo p.2.lo ≤ min p.1.hi p.2.hi)

/-- Whether every member of the first set is in the second. -/
def isSubset (s t : IntervalSet) : Bool :=
  s.ranges.all fun r =>
    (Ranges.reaching? r.lo t.ranges).any fun q => decide (q.lo ≤ r.lo ∧ r.hi ≤ q.hi)

/-- The members, ascending. -/
def toList (s : IntervalSet) : List Int := s.ranges.flatMap Interval.toList

/-- The first `n` members of a list of ranges, found without listing the others. -/
def takeFrom : Nat → List Interval → List Int
  | _, [] => []
  | n, r :: rs => if n ≤ r.size then r.take n else r.toList ++ takeFrom (n - r.size) rs

/-- The first `n` members, ascending. -/
def take (s : IntervalSet) (n : Nat) : List Int := takeFrom n s.ranges

/-- The ranges in braces, ascending, a comma and a blank between them. -/
protected def toString (s : IntervalSet) : String :=
  "\x7b" ++ ", ".intercalate (s.ranges.map Interval.toString) ++ "\x7d"

instance : ToString IntervalSet := ⟨IntervalSet.toString⟩

end IntervalSet

end FiniteDomain
