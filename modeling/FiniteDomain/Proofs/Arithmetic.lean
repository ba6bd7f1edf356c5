import Mathlib.Tactic
import FiniteDomain.Proofs.IntervalSet

/-!
Sets of integers in the words of a machine.

Values are integers here, but a machine has them in words of 32 bits, and adds and subtracts in
words where the result may not fit.  The operations on sets are followed once more with each sum
and each difference in a word, and stop at the first that does not fit.  None does, whatever values
are in the set and at the ends of its ranges.

* `Word`, `Word.add?`, `Word.sub?`: sums and differences that have to fit;
* `Ranges.merge?`, `Ranges.cut?`: the two passes over a list of ranges, with
  `Ranges.merge?_eq` and `Ranges.cut?_eq`: they are `Ranges.insert` and `Ranges.erase`;
* `Ranges.compared?`: the walk along two lists, with `Ranges.compared?_eq`;
* `Ranges.edit?`, `Ranges.size?`, `Ranges.previous?`, `Ranges.intersects?`: all changes of a set,
  and the questions about it that need arithmetic;
* `IntervalSet.Computes`: a set for which all of this comes to a result, which is the right one,
  with `IntervalSet.InRange.computes`: sets of values are such sets.
-/

namespace FiniteDomain

/-- A kind of words: signed words of 32 or 64 bits, and unsigned words of 64 bits. -/
inductive Word
  | int32
  | int64
  | nat64

namespace Word

/-- The least integer that fits. -/
def least : Word → Int
  | int32 => Value.least
  | int64 => -9223372036854775808
  | nat64 => 0

/-- The greatest integer that fits. -/
def greatest : Word → Int
  | int32 => Value.greatest
  | int64 => 9223372036854775807
  | nat64 => 18446744073709551615

/-- The integer, if it fits. -/
def hold? (w : Word) (n : Int) : Option Int :=
  if w.least ≤ n ∧ n ≤ w.greatest then some n else none

/-- The sum, if it fits. -/
def add? (w : Word) (m n : Int) : Option Int := w.hold? (m + n)

/-- The difference, if it fits. -/
def sub? (w : Word) (m n : Int) : Option Int := w.hold? (m - n)

variable {k m n : Int}

lemma hold?_int32 (h : Value.InRange n) : int32.hold? n = some n := if_pos h

lemma hold?_nat64 (h : 0 ≤ n) (h' : n ≤ 18446744073709551615) : nat64.hold? n = some n :=
  if_pos ⟨h, h'⟩

lemma hold?_int64 (h : -9223372036854775808 ≤ n) (h' : n ≤ 9223372036854775807) :
    int64.hold? n = some n :=
  if_pos ⟨h, h'⟩

/-- The next value up, if there is a value that is greater. -/
lemma add?_one (h : Value.InRange n) (h' : Value.InRange m) (hlt : n < m) :
    int32.add? n 1 = some (n + 1) := by
  refine hold?_int32 ?_
  simp only [Value.InRange] at *
  omega

/-- The next value down, if there is a value that is less. -/
lemma sub?_one (h : Value.InRange n) (h' : Value.InRange m) (hlt : m < n) :
    int32.sub? n 1 = some (n - 1) := by
  refine hold?_int32 ?_
  simp only [Value.InRange] at *
  omega

/-- Every value has one above it among the words of 64 bits. -/
lemma add?_one_int64 (h : Value.InRange n) : int64.add? n 1 = some (n + 1) := by
  simp only [Value.InRange, Value.least, Value.greatest] at h
  exact hold?_int64 (by omega) (by omega)

/-- The other one of two flags. -/
lemma sub?_flag (h : n = 0 ∨ n = 1) : int32.sub? 1 n = some (1 - n) := by
  refine hold?_int32 ?_
  rcases h with rfl | rfl <;> decide

end Word

/-! ### Lists of ranges -/

open Word

variable {lo hi : Int} {r : Interval} {rs ts : List Interval} {s : IntervalSet}

namespace Interval

/-- The part of a range below the integers that are taken away, if it reaches below them. -/
def below? (lo : Int) (r : Interval) : Option (List Interval) :=
  if r.lo < lo then (int32.sub? lo 1).map fun k => [⟨r.lo, k⟩] else some []

/-- The part of a range above the integers that are taken away, if it reaches above them. -/
def above? (hi : Int) (r : Interval) : Option (List Interval) :=
  if hi < r.hi then (int32.add? hi 1).map fun k => [⟨k, r.hi⟩] else some []

/-- What is left of a range without the integers from `lo` to `hi`. -/
def without? (lo hi : Int) (r : Interval) : Option (List Interval) :=
  if r.hi < lo ∨ hi < r.lo then some [r]
  else do return (← r.below? lo) ++ (← r.above? hi)

/-- The number of integers in a range. -/
def size? (r : Interval) : Option Int := do
  let width ← int64.sub? r.hi r.lo
  let size ← int64.add? width 1
  nat64.hold? size

/-- Both ends are values. -/
def InRange (r : Interval) : Prop := Value.InRange r.lo ∧ Value.InRange r.hi

/-- A bound above the least value of a range, and not behind the range, has a value below. -/
lemma below?_eq (hr : r.InRange) (hle : lo ≤ r.hi) :
    r.below? lo = some (r.atMost? (lo - 1)).toList := by
  rw [below?, atMost?]
  by_cases hlt : r.lo < lo
  · have hlo : Value.InRange lo := ⟨hr.1.1.trans hlt.le, hle.trans hr.2.2⟩
    rw [if_pos hlt, if_pos (by omega), sub?_one hlo hr.1 hlt, min_eq_right (by omega)]
    rfl
  · rw [if_neg hlt, if_neg (by omega)]
    rfl

lemma above?_eq (hr : r.InRange) (hle : r.lo ≤ hi) :
    r.above? hi = some (r.atLeast? (hi + 1)).toList := by
  rw [above?, atLeast?]
  by_cases hlt : hi < r.hi
  · have hhi : Value.InRange hi := ⟨hr.1.1.trans hle, hlt.le.trans hr.2.2⟩
    rw [if_pos hlt, if_pos (by omega), add?_one hhi hr.2 hlt, max_eq_right (by omega)]
    rfl
  · rw [if_neg hlt, if_neg (by omega)]
    rfl

lemma without?_eq (hr : r.InRange) (hne : r.lo ≤ r.hi) (hle : lo ≤ hi) :
    r.without? lo hi = some (r.without lo hi) := by
  rw [without?, without]
  split
  · rename_i hapart
    rw [atMost?, atLeast?]
    rcases hapart with hbelow | habove
    · rw [if_pos (by omega), if_neg (by omega), min_eq_left (by omega)]
      rfl
    · rw [if_neg (by omega), if_pos (by omega), max_eq_left (by omega)]
      rfl
  · rw [below?_eq hr (by omega), above?_eq hr (by omega)]
    rfl

lemma size?_eq (hr : r.InRange) (hne : r.lo ≤ r.hi) : r.size? = some (r.size : Int) := by
  simp only [InRange, Value.InRange, Value.least, Value.greatest] at hr
  have hsize : (r.size : Int) = r.hi - r.lo + 1 := by
    rw [size]
    omega
  have hwidth : int64.sub? r.hi r.lo = some (r.hi - r.lo) := hold?_int64 (by omega) (by omega)
  have hsum : int64.add? (r.hi - r.lo) 1 = some (r.hi - r.lo + 1) :=
    hold?_int64 (by omega) (by omega)
  simp only [size?, hwidth, hsum, hsize, Option.bind_eq_bind, Option.bind_some]
  exact hold?_nat64 (by omega) (by omega)

end Interval

namespace Ranges

/-- A pass over the list, on which a range grows by the ranges that it touches.  It gets its place
before the first one behind it, and the pass goes on to the end. -/
def merge? (lo hi : Int) (placed : Bool) : List Interval → Option (List Interval)
  | [] => some (if placed then [] else [⟨lo, hi⟩])
  | r :: rs => do
    let next ← int64.add? r.hi 1
    if next < lo then return r :: (← merge? lo hi placed rs)
    else do
      let next ← int64.add? hi 1
      if next < r.lo then
        return (if placed then [r] else [⟨lo, hi⟩, r]) ++ (← merge? lo hi true rs)
      else merge? (min lo r.lo) (max hi r.hi) placed rs

/-- The number of ranges that there has to be room for, if a list grows by one. -/
def room? (rs : List Interval) : Option Int := nat64.add? rs.length 1

/-- The list with a range added. -/
def insert? (lo hi : Int) (rs : List Interval) : Option (List Interval) :=
  if hi < lo then some rs else (room? rs).bind fun _ => merge? lo hi false rs

/-- A pass over the list, on which each range is cut. -/
def cut? (lo hi : Int) : List Interval → Option (List Interval)
  | [] => some []
  | r :: rs => do return (← r.without? lo hi) ++ (← cut? lo hi rs)

/-- The list without the integers from `lo` to `hi`. -/
def erase? (lo hi : Int) (rs : List Interval) : Option (List Interval) :=
  if hi < lo then some rs else (room? rs).bind fun _ => cut? lo hi rs

/-- The walk along two lists, from the places `i` and `j` on. -/
def compared? (i j : Int) : List Interval → List Interval → Option (List (Interval × Interval))
  | [], _ => some []
  | _ :: _, [] => some []
  | r :: rs, q :: qs => do
    if r.hi < q.hi then return (r, q) :: (← compared? (← nat64.add? i 1) j rs (q :: qs))
    else return (r, q) :: (← compared? i (← nat64.add? j 1) (r :: rs) qs)
  termination_by rs qs => rs.length + qs.length

/-- The part of the list that lies in a second list too. -/
def inter? (rs ts : List Interval) : Option (List Interval) :=
  (compared? 0 0 rs ts).map fun ps => ps.filterMap fun p => p.2.clip p.1.lo p.1.hi

/-- Whether a range of the one list meets a range of the other one.  A walk that ends at the first
such pair takes no more steps than this one. -/
def intersects? (rs ts : List Interval) : Option Bool :=
  (compared? 0 0 rs ts).map fun ps => ps.any fun p =>
    decide (max p.1.lo p.2.lo ≤ min p.1.hi p.2.hi)

/-- The list after a change. -/
def edit? (rs : List Interval) : IntervalSet.Edit → Option (List Interval)
  | .insert v => insert? v v rs
  | .insertRange lo hi => insert? lo hi rs
  | .union t => t.ranges.foldlM (fun rs r => insert? r.lo r.hi rs) rs
  | .erase v => erase? v v rs
  | .eraseRange lo hi => erase? lo hi rs
  | .diff t => t.ranges.foldlM (fun rs r => erase? r.lo r.hi rs) rs
  | .between lo hi => some (clip lo hi rs)
  | .inter t => inter? rs t.ranges
  | .clear => some []

/-- The number of integers in the ranges together. -/
def size? (rs : List Interval) : Option Int :=
  rs.foldlM (fun n r => do nat64.add? n (← r.size?)) 0

/-- The greatest integer up to a bound, at the end of the range before the first behind it. -/
def previous? (v : Int) (rs : List Interval) : Option (Option Int) :=
  let behind := (rs.takeWhile fun r => decide (r.lo ≤ v)).length
  if behind = 0 then some none
  else do
    let place ← nat64.sub? behind 1
    return rs[place.toNat]?.map fun r => min r.hi v

/-! ### Two passes -/

/-- Once the range has its place, the others stay as they are. -/
lemma merge?_placed (hrs : Canonical rs) (hin : ∀ r ∈ rs, r.InRange) (hhi : Value.InRange hi)
    (hle : lo ≤ hi) (hbehind : ∀ r ∈ rs, hi + 1 < r.lo) : merge? lo hi true rs = some rs := by
  induction rs with
  | nil => rfl
  | cons r rs ih =>
    obtain ⟨hr, -, hrest⟩ := canonical_cons.1 hrs
    have hlt := hbehind r List.mem_cons_self
    have hmerge := ih hrest (fun s hs => hin s (List.mem_cons_of_mem _ hs)) fun s hs =>
      hbehind s (List.mem_cons_of_mem _ hs)
    have hnext := add?_one_int64 (hin r List.mem_cons_self).2
    simp only [merge?, hnext, add?_one_int64 hhi, hmerge, Option.bind_eq_bind, Option.bind_some]
    rw [if_neg (by omega), if_pos hlt]
    rfl

/-- All sums on the pass fit, for the range grows only to ends that are values. -/
lemma merge?_eq (hrs : Canonical rs) (hin : ∀ r ∈ rs, r.InRange) (hlo : Value.InRange lo)
    (hhi : Value.InRange hi) (hle : lo ≤ hi) : merge? lo hi false rs = some (insert lo hi rs) := by
  induction rs generalizing lo hi with
  | nil => rfl
  | cons r rs ih =>
    obtain ⟨hr, hafter, hrest⟩ := canonical_cons.1 hrs
    have hin' : ∀ s ∈ rs, s.InRange := fun s hs => hin s (List.mem_cons_of_mem _ hs)
    obtain ⟨hrlo, hrhi⟩ := hin r List.mem_cons_self
    rw [insert]
    simp only [merge?, add?_one_int64 hrhi, add?_one_int64 hhi, Option.bind_eq_bind,
      Option.bind_some]
    split
    · rw [ih hrest hin' hlo hhi hle]
      rfl
    split
    · rename_i hlt
      have hbehind : ∀ s ∈ rs, hi + 1 < s.lo := fun s hs => by
        have := hafter s hs
        omega
      rw [merge?_placed hrest hin' hhi hle hbehind]
      rfl
    · have hmin : Value.InRange (min lo r.lo) := by
        rcases min_choice lo r.lo with h | h <;> rw [h] <;> assumption
      have hmax : Value.InRange (max hi r.hi) := by
        rcases max_choice hi r.hi with h | h <;> rw [h] <;> assumption
      exact ih hrest hin' hmin hmax (by omega)

lemma cut?_eq (hrs : Canonical rs) (hin : ∀ r ∈ rs, r.InRange) (hle : lo ≤ hi) :
    cut? lo hi rs = some (erase lo hi rs) := by
  induction rs with
  | nil => rfl
  | cons r rs ih =>
    obtain ⟨hr, -, hrest⟩ := canonical_cons.1 hrs
    rw [cut?, Interval.without?_eq (hin r List.mem_cons_self) hr hle,
      ih hrest fun s hs => hin s (List.mem_cons_of_mem _ hs)]
    rfl

/-- No place is behind the end of its list. -/
lemma compared?_eq {i j : Nat} (hi : (i : Int) + rs.length ≤ 18446744073709551615)
    (hj : (j : Int) + ts.length ≤ 18446744073709551615) :
    compared? i j rs ts = some (compared rs ts) := by
  have hnext : ∀ n : Nat, (n : Int) + 1 ≤ 18446744073709551615 →
      nat64.add? n 1 = some ((n + 1 : Nat) : Int) := fun n hn => hold?_nat64 (by omega) hn
  induction rs generalizing i j ts with
  | nil =>
    rw [compared?]
    rfl
  | cons r rs ih =>
    induction ts generalizing j with
    | nil =>
      rw [compared?]
      rfl
    | cons q qs ihs =>
      have hrs := hi
      have hqs := hj
      rw [List.length_cons] at hrs hqs
      rw [compared?, compared_cons]
      split
      · rw [hnext i (by omega), Option.bind_eq_bind, Option.bind_some, ih (by omega) hj]
        rfl
      · rw [hnext j (by omega), Option.bind_eq_bind, Option.bind_some, ihs (by omega)]
        rfl

/-! ### Sizes -/

/-- Ranges of values from a bound on have no more integers than there are values from there. -/
lemma sum_size_le (hrs : Canonical rs) (hin : ∀ r ∈ rs, r.InRange) {b : Int}
    (hb : b ≤ Value.greatest + 1) (hbelow : ∀ r ∈ rs, b ≤ r.lo) :
    ((rs.foldr (fun r n => r.size + n) 0 : Nat) : Int) ≤ Value.greatest + 1 - b := by
  induction rs generalizing b with
  | nil => exact Int.sub_nonneg_of_le hb
  | cons r rs ih =>
    obtain ⟨hr, hafter, hrest⟩ := canonical_cons.1 hrs
    have hlo := hbelow r List.mem_cons_self
    have hhi := (hin r List.mem_cons_self).2.2
    have hsum := ih hrest (fun s hs => hin s (List.mem_cons_of_mem _ hs)) (b := r.hi + 1)
      (by omega) fun s hs => (hafter s hs).le
    have hsize : (r.size : Int) = r.hi - r.lo + 1 := by
      rw [Interval.size]
      omega
    rw [List.foldr_cons, Nat.cast_add, hsize]
    omega

/-- The numbers of all ranges are added up from the first one on. -/
lemma foldlM_size? (hrs : Canonical rs) (hin : ∀ r ∈ rs, r.InRange) {n : Nat}
    (hn : (n : Int) + (rs.foldr (fun r n => r.size + n) 0 : Nat) ≤ 18446744073709551615) :
    rs.foldlM (fun (n : Int) r => do nat64.add? n (← r.size?)) (n : Int) =
      some ((n + rs.foldr (fun r n => r.size + n) 0 : Nat) : Int) := by
  induction rs generalizing n with
  | nil => rfl
  | cons r rs ih =>
    obtain ⟨hr, -, hrest⟩ := canonical_cons.1 hrs
    rw [List.foldr_cons, Nat.cast_add] at hn
    have hsum : nat64.add? n r.size = some ((n + r.size : Nat) : Int) :=
      hold?_nat64 (by omega) (by omega)
    have hothers := ih hrest (fun s hs => hin s (List.mem_cons_of_mem _ hs)) (n := n + r.size)
      (by omega)
    rw [List.foldlM_cons, Interval.size?_eq (hin r List.mem_cons_self) hr, List.foldr_cons,
      ← Nat.add_assoc, ← hothers]
    exact congrArg (Option.bind · _) hsum

/-- Each range has an integer. -/
lemma length_le_sum_size (hrs : Canonical rs) :
    rs.length ≤ rs.foldr (fun r n => r.size + n) 0 := by
  induction rs with
  | nil => exact Nat.le_refl 0
  | cons r rs ih =>
    obtain ⟨hr, -, hrest⟩ := canonical_cons.1 hrs
    have hsize : 0 < r.size := by
      rw [Interval.size]
      omega
    have := ih hrest
    rw [List.length_cons, List.foldr_cons]
    omega

end Ranges

/-! ### Sets -/

namespace IntervalSet

open Ranges

/-- All arguments of the operation are values. -/
def Edit.OfValues : Edit → Prop
  | insert v | erase v => Value.InRange v
  | insertRange lo hi | eraseRange lo hi | between lo hi => Value.InRange lo ∧ Value.InRange hi
  | union t | diff t | inter t => t.InRange
  | clear => True

lemma InRange.ranges (h : s.InRange) : ∀ r ∈ s.ranges, r.InRange :=
  fun _ hr => ⟨h _ (lo_mem hr), h _ (hi_mem hr)⟩

lemma InRange.size_le (h : s.InRange) : (s.size : Int) ≤ 4294967296 := by
  have hsum := sum_size_le s.canonical h.ranges (b := Value.least) (by decide) fun r hr =>
    (h.ranges r hr).1.1
  simp only [Value.least, Value.greatest] at hsum
  rw [size]
  omega

/-- There are no more ranges than values. -/
lemma InRange.length_le (h : s.InRange) : (s.ranges.length : Int) ≤ 4294967296 := by
  have hlength := length_le_sum_size s.canonical
  have hle := h.size_le
  rw [size] at hle
  omega

lemma InRange.room?_eq (h : s.InRange) :
    room? s.ranges = some ((s.ranges.length : Int) + 1) := by
  have hle := h.length_le
  rw [room?, add?]
  exact hold?_nat64 (by omega) (by omega)

lemma InRange.insert?_eq (h : s.InRange) (hlo : Value.InRange lo) (hhi : Value.InRange hi) :
    insert? lo hi s.ranges = some (s.insertRange lo hi).ranges := by
  rw [insert?, insertRange]
  split
  · rw [dif_neg (by omega)]
  · rw [dif_pos (by omega), h.room?_eq, Option.bind_some]
    exact merge?_eq s.canonical h.ranges hlo hhi (by omega)

lemma InRange.erase?_eq (h : s.InRange) :
    erase? lo hi s.ranges = some (s.eraseRange lo hi).ranges := by
  rw [erase?, eraseRange]
  split
  · rw [dif_neg (by omega)]
  · rw [dif_pos (by omega), h.room?_eq, Option.bind_some]
    exact cut?_eq s.canonical h.ranges (by omega)

/-- What is done for one range is done for one range after another. -/
lemma InRange.foldlM_ranges {f? : List Interval → Interval → Option (List Interval)}
    {f : IntervalSet → Interval → IntervalSet} (h : s.InRange)
    (hf : ∀ r ∈ ts, ∀ s : IntervalSet, s.InRange →
      f? s.ranges r = some (f s r).ranges ∧ (f s r).InRange) :
    ts.foldlM f? s.ranges = some (ts.foldl f s).ranges := by
  induction ts generalizing s with
  | nil => rfl
  | cons r ts ih =>
    obtain ⟨hstep, hin⟩ := hf r List.mem_cons_self s h
    rw [List.foldlM_cons, hstep, Option.bind_eq_bind, Option.bind_some,
      ih hin fun q hq => hf q (List.mem_cons_of_mem _ hq), List.foldl_cons]

lemma InRange.compared?_eq (h : s.InRange) {t : IntervalSet} (ht : t.InRange) :
    compared? 0 0 s.ranges t.ranges = some (compared s.ranges t.ranges) := by
  have hs := h.length_le
  have ht := ht.length_le
  exact Ranges.compared?_eq (i := 0) (j := 0) (by omega) (by omega)

lemma InRange.edit?_eq (h : s.InRange) {e : Edit} (he : e.OfValues) :
    edit? s.ranges e = some (s.edit e).ranges := by
  cases e with
  | insert v => exact h.insert?_eq he he
  | insertRange lo hi => exact h.insert?_eq he.1 he.2
  | union t =>
    refine h.foldlM_ranges fun r hr u hu => ?_
    obtain ⟨hlo, hhi⟩ := InRange.ranges he r hr
    exact ⟨hu.insert?_eq hlo hhi, inRange_edit hu (e := .insertRange r.lo r.hi) ⟨hlo, hhi⟩⟩
  | erase v => exact h.erase?_eq
  | eraseRange lo hi => exact h.erase?_eq
  | diff t =>
    exact h.foldlM_ranges fun r _ u hu =>
      ⟨hu.erase?_eq, inRange_edit hu (e := .eraseRange r.lo r.hi) trivial⟩
  | inter t => exact congrArg (Option.map _) (h.compared?_eq he)
  | between | clear => rfl

lemma InRange.intersects?_eq (h : s.InRange) {t : IntervalSet} (ht : t.InRange) :
    intersects? s.ranges t.ranges = some (s.intersects t) :=
  congrArg (Option.map _) (h.compared?_eq ht)

lemma InRange.size?_eq (h : s.InRange) : Ranges.size? s.ranges = some (s.size : Int) := by
  have hle := h.size_le
  rw [size] at hle ⊢
  have hsum := foldlM_size? s.canonical h.ranges (n := 0) (by omega)
  rwa [Nat.zero_add] at hsum

lemma InRange.previous?_eq (h : s.InRange) (v : Int) :
    Ranges.previous? v s.ranges = some (s.previous? v) := by
  have hprefix := List.takeWhile_prefix (l := s.ranges) fun r => decide (r.lo ≤ v)
  rw [Ranges.previous?, previous?]
  generalize s.ranges.takeWhile (fun r => decide (r.lo ≤ v)) = ts at hprefix ⊢
  split
  · rename_i hnone
    rw [List.length_eq_zero_iff.1 hnone]
    rfl
  · have hlength := hprefix.length_le
    have hle := h.length_le
    have hplace : nat64.sub? ts.length 1 = some ((ts.length : Int) - 1) :=
      hold?_nat64 (by omega) (by omega)
    have hget : s.ranges[((ts.length : Int) - 1).toNat]? = ts.getLast? := by
      obtain ⟨rest, hrest⟩ := hprefix
      rw [← hrest, List.getLast?_eq_getElem?, List.getElem?_append_left (by omega)]
      congr 1
      omega
    rw [hplace, ← hget]
    rfl

/-- All that is done with the ranges of the set and asked about them comes to a result in words,
and the result is the right one. -/
structure Computes (s : IntervalSet) : Prop where
  edit : ∀ e : Edit, e.OfValues → Ranges.edit? s.ranges e = some (s.edit e).ranges
  size : Ranges.size? s.ranges = some (s.size : Int)
  previous : ∀ v, Ranges.previous? v s.ranges = some (s.previous? v)
  intersects : ∀ t : IntervalSet, t.InRange →
    Ranges.intersects? s.ranges t.ranges = some (s.intersects t)

/-- This is so for all sets of values. -/
lemma InRange.computes (h : s.InRange) : s.Computes :=
  ⟨fun _ he => h.edit?_eq he, h.size?_eq, h.previous?_eq, fun _ ht => h.intersects?_eq ht⟩

/-- The range of all values is cut at both ends, but a sum beyond the greatest would not fit. -/
example : Ranges.erase? Value.least 0 [⟨Value.least, Value.greatest⟩] =
    some [⟨1, Value.greatest⟩] ∧ int32.add? Value.greatest 1 = none := by
  decide

end IntervalSet

end FiniteDomain
