import FiniteDomain.Reading

/-!
The domain of a root over time.

A root keeps the set that it was created with.  Of an update it enters only what became
different: a bound that moved, and values that are gone though they lie between the bounds.  The
domain now, or just before a position of the trail, is put together from these entries.

* `Dated`: an entry of an update;
* `History`: the entries of a root, in lists with the newest first;
* `History.reading`: the bounds and the membership of a value, from the entries alone;
* `History.current`, `History.domainAt`: the domain now and at a position, as sets;
* `History.record`, `History.rewind`: one more update, and going back;
* `History.mem_current`, `History.contains_iff`: the values that are left;
* `History.current_record`, `History.rewind_record`: what an update enters is the domain that it
  leaves, and going back gives it up.
-/

namespace FiniteDomain

/-- A value that the update at a position of the trail entered. -/
structure Dated where
  position : Nat
  value : Int
  deriving DecidableEq

/-- The newest value of a list, or the one at the start. -/
def Dated.latest (start : Int) : List Dated → Int
  | [] => start
  | d :: _ => d.value

/-- The domain a root was created with and what its updates entered, newest first. -/
structure History where
  initial : IntervalSet
  /-- The lower bounds since. -/
  lowers : List Dated := []
  /-- The upper bounds since. -/
  uppers : List Dated := []
  /-- The values that were taken from between the bounds. -/
  holes : List Dated := []
  /-- The positions of the updates. -/
  positions : List Nat := []
  deriving DecidableEq, Inhabited

namespace History

/-- The entries of a list, newest first, that are older than a position. -/
def before {α : Type} (date : α → Nat) (position : Nat) (entries : List α) : List α :=
  entries.dropWhile fun a => decide (position ≤ date a)

/-- The lower bound after all updates. -/
def lower (h : History) : Int := Dated.latest h.initial.lower h.lowers

/-- The upper bound after all updates. -/
def upper (h : History) : Int := Dated.latest h.initial.upper h.uppers

/-- Whether the value was there at first and is no hole. -/
def allows (h : History) (k : Int) : Bool :=
  h.initial.contains k && !h.holes.any fun d => d.value == k

/-- Whether the value is left after all updates. -/
def contains (h : History) (k : Int) : Bool :=
  decide (h.lower ≤ k) && decide (k ≤ h.upper) && h.allows k

/-- The answers of the root. -/
def reading (h : History) : Reading := ⟨h.lower, h.upper, h.contains⟩

/-- The domain after all updates. -/
def current (h : History) : IntervalSet :=
  h.holes.foldl (fun d hole => d.erase hole.value) (h.initial.between h.lower h.upper)

/-- The history with one more update, which left the domain `d`. -/
def record (h : History) (position : Nat) (d : IntervalSet) : History where
  initial := h.initial
  lowers := if d.lower = h.lower then h.lowers else ⟨position, d.lower⟩ :: h.lowers
  uppers := if d.upper = h.upper then h.uppers else ⟨position, d.upper⟩ :: h.uppers
  holes := (h.current.between d.lower d.upper \ d).toList.map (Dated.mk position) ++ h.holes
  positions := position :: h.positions

/-- The history without the updates from a position on. -/
def rewind (h : History) (position : Nat) : History where
  initial := h.initial
  lowers := before Dated.position position h.lowers
  uppers := before Dated.position position h.uppers
  holes := before Dated.position position h.holes
  positions := before id position h.positions

/-- The domain just before the update at a position. -/
def domainAt (h : History) (position : Nat) : IntervalSet := (h.rewind position).current

/-! ### The values that are left -/

theorem mem_foldl_erase {holes : List Dated} {d : IntervalSet} {x : Int} :
    x ∈ holes.foldl (fun d hole => d.erase hole.value) d ↔
      x ∈ d ∧ ∀ hole ∈ holes, x ≠ hole.value := by
  induction holes generalizing d with
  | nil => simp
  | cons hole holes ih =>
    rw [List.foldl_cons, ih, IntervalSet.mem_erase, List.forall_mem_cons, and_assoc]

theorem mem_current {h : History} {x : Int} :
    x ∈ h.current ↔
      (x ∈ h.initial ∧ h.lower ≤ x ∧ x ≤ h.upper) ∧ ∀ hole ∈ h.holes, x ≠ hole.value := by
  rw [current, mem_foldl_erase, IntervalSet.mem_between]

/-- Membership needs no set. -/
theorem contains_iff {h : History} {k : Int} : h.contains k = true ↔ k ∈ h.current := by
  have hholes : (!h.holes.any fun d => d.value == k) = true ↔ ∀ hole ∈ h.holes, k ≠ hole.value := by
    rw [Bool.not_eq_true', List.any_eq_false]
    refine forall_congr' fun d => forall_congr' fun _ => ?_
    rw [beq_iff_eq, eq_comm]
  rw [contains, allows, Bool.and_eq_true, Bool.and_eq_true, Bool.and_eq_true, decide_eq_true_eq,
    decide_eq_true_eq, IntervalSet.contains_iff, hholes, mem_current]
  constructor
  · rintro ⟨⟨hlo, hhi⟩, hk, hno⟩
    exact ⟨⟨hk, hlo, hhi⟩, hno⟩
  · rintro ⟨⟨hk, hlo, hhi⟩, hno⟩
    exact ⟨⟨hlo, hhi⟩, hk, hno⟩

/-! ### Updates -/

@[simp] theorem lower_record (h : History) (position : Nat) (d : IntervalSet) :
    (h.record position d).lower = d.lower := by
  change Dated.latest h.initial.lower (if d.lower = h.lower then _ else _) = _
  split
  · rename_i he
    exact he.symm
  · rfl

@[simp] theorem upper_record (h : History) (position : Nat) (d : IntervalSet) :
    (h.record position d).upper = d.upper := by
  change Dated.latest h.initial.upper (if d.upper = h.upper then _ else _) = _
  split
  · rename_i he
    exact he.symm
  · rfl

/-- The entries of an update that takes values away say what it leaves. -/
theorem current_record {h : History} {position : Nat} {d : IntervalSet} (hd : ∃ x, x ∈ d)
    (hsub : ∀ x, x ∈ d → x ∈ h.current) : (h.record position d).current = d := by
  have hlo := (mem_current.1 (hsub _ (IntervalSet.lower_mem hd))).1.2.1
  have hhi := (mem_current.1 (hsub _ (IntervalSet.upper_mem hd))).1.2.2
  have hholes : ∀ x, (∀ hole ∈ (h.record position d).holes, x ≠ hole.value) ↔
      ¬ (x ∈ h.current.between d.lower d.upper \ d) ∧ ∀ hole ∈ h.holes, x ≠ hole.value := by
    intro x
    rw [record, List.forall_mem_append, List.forall_mem_map]
    refine and_congr_left fun _ => ⟨fun hno hx => ?_, fun hno y hy he => ?_⟩
    · exact hno x (IntervalSet.mem_toList.2 hx) rfl
    · rw [← show x = y from he, IntervalSet.mem_toList] at hy
      exact hno hy
  ext x
  rw [mem_current, hholes, lower_record, upper_record, IntervalSet.mem_diff,
    IntervalSet.mem_between]
  constructor
  · rintro ⟨⟨hx, hxlo, hxhi⟩, hno, hold⟩
    have hcurrent : x ∈ h.current :=
      mem_current.2 ⟨⟨hx, Int.le_trans hlo hxlo, Int.le_trans hxhi hhi⟩, hold⟩
    exact Classical.not_not.1 fun hxd => hno ⟨⟨hcurrent, hxlo, hxhi⟩, hxd⟩
  · intro hx
    obtain ⟨⟨hinitial, -⟩, hold⟩ := mem_current.1 (hsub x hx)
    exact ⟨⟨hinitial, IntervalSet.lower_le hx, IntervalSet.le_upper hx⟩, fun hno => hno.2 hx, hold⟩

/-- What an update entered is gone before its position. -/
theorem before_append_of_le {α : Type} {date : α → Nat} {q : Nat} {new old : List α}
    (hnew : ∀ a ∈ new, q ≤ date a) : before date q (new ++ old) = before date q old :=
  List.dropWhile_append_of_pos fun a ha => decide_eq_true (hnew a ha)

/-- Going back to a position from which on an update was made gives it up. -/
theorem rewind_record {h : History} {position q : Nat} {d : IntervalSet} (hq : q ≤ position) :
    (h.record position d).rewind q = h.rewind q := by
  have hbound : ∀ (k start : Int) (ds : List Dated),
      before Dated.position q (if k = start then ds else ⟨position, k⟩ :: ds)
        = before Dated.position q ds := by
    intro k start ds
    split
    · rfl
    · exact @before_append_of_le Dated _ q [⟨position, k⟩] _ (by simpa using hq)
  have hholes : ∀ ks : List Int,
      before Dated.position q (ks.map (Dated.mk position) ++ h.holes)
        = before Dated.position q h.holes :=
    fun ks => before_append_of_le (by simpa using fun _ _ => hq)
  simp only [rewind, record, hbound, hholes, History.mk.injEq, true_and]
  exact @before_append_of_le Nat id q [position] _ (by simpa using hq)

/-- Before its position an update is not seen. -/
theorem domainAt_record_le {h : History} {position q : Nat} {d : IntervalSet}
    (hq : q ≤ position) : (h.record position d).domainAt q = h.domainAt q := by
  rw [domainAt, rewind_record hq, domainAt]

end History

end FiniteDomain
