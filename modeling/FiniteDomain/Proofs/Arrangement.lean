import Mathlib.Tactic
import FiniteDomain.Proofs.Memory

/-!
How the numbers of a remembered set are arranged.

Going back inserts and removes once more, in an order that need not be the one of the first time,
so the members may come to stand elsewhere.  All the same, the two arrays of every set stay
permutations of the numbers below its capacity, each the inverse of the other.

* `SparseSet.WellFormed.exchange`: the two arrays can trade places, with
  `SparseSet.WellFormed.perm_dense`, `SparseSet.WellFormed.perm_positions`: the permutations;
* `Memory.clear_of_getLast?`, `Memory.trail_clear`: a set is emptied from its last member to its
  first, and each removal is logged;
* `Memory.Reached`: the memories that any operations lead to, with sets of given capacities;
* `Memory.Arranged`: what is expected of a set, with `Memory.Reached.arranged`: it is so always.
-/

namespace FiniteDomain

namespace SparseSet

variable {s : SparseSet} {e p : Nat}

/-! ### The two arrays -/

/-- Each array undoes the other, so they can trade places. -/
lemma WellFormed.exchange (w : s.WellFormed) :
    ({ dense := s.positions, positions := s.dense, size := s.size } : SparseSet).WellFormed :=
  ⟨w.size_le.trans_eq w.same_size.symm, w.same_size.symm, w.positions_dense, w.dense_positions⟩

/-- All numbers below the capacity stand at some place. -/
lemma WellFormed.perm_dense (w : s.WellFormed) : s.dense.toList.Perm (List.range s.capacity) := by
  refine (List.perm_ext_iff_of_nodup w.nodup_dense List.nodup_range).2 fun e => ?_
  rw [List.mem_range, Array.mem_toList_iff, Array.mem_iff_getElem?]
  constructor
  · rintro ⟨p, hp⟩
    rw [capacity, ← w.same_size]
    exact (Array.getElem?_eq_some_iff.1 (w.positions_dense p e hp)).1
  · intro he
    obtain ⟨p, hp, -⟩ := w.getElem?_positions he
    exact ⟨p, w.dense_positions e p hp⟩

lemma WellFormed.perm_positions (w : s.WellFormed) :
    s.positions.toList.Perm (List.range s.capacity) := by
  rw [capacity, ← w.same_size]
  exact w.exchange.perm_dense

/-! ### The last member -/

/-- The last member stands at the border already. -/
lemma WellFormed.getElem?_positions_getLast? (w : s.WellFormed)
    (hlast : s.elements.getLast? = some e) : s.positions[e]? = some (s.size - 1) ∧ 0 < s.size := by
  have hpos : 0 < s.size := by
    rw [← length_elements w]
    exact List.length_pos_of_mem (List.mem_of_getLast? hlast)
  rw [List.getLast?_eq_getElem?, length_elements w, elements, List.getElem?_take,
    if_pos (by omega), Array.getElem?_toList] at hlast
  exact ⟨w.positions_dense _ e hlast, hpos⟩

lemma elements_remove_getLast? (w : s.WellFormed) (hlast : s.elements.getLast? = some e) :
    (s.remove e).2.elements = s.elements.dropLast := by
  obtain ⟨hp, hpos⟩ := w.getElem?_positions_getLast? hlast
  have hsize := w.size_le
  have hlt : s.size - 1 < s.dense.size := by omega
  -- the member is exchanged with itself
  have hdense : (s.swap (s.size - 1) (s.size - 1)).dense = s.dense := by
    refine Array.ext_getElem? fun q => ?_
    rw [getElem?_dense_swap hlt hlt]
    by_cases hq : s.size - 1 = q
    · rw [if_pos hq, ← hq, Array.getElem?_eq_getElem hlt]
    · rw [if_neg hq, if_neg hq]
  rw [remove_snd hp (by omega), elements, hdense, List.dropLast_eq_take, length_elements w,
    elements,
    List.take_take, Nat.min_eq_left (Nat.sub_le _ _)]

end SparseSet

namespace Memory

variable {m : Memory} {caps : List Nat} {i j : SetId} {e e' capacity level : Nat} {p : PropId}
  {a : Activity}

/-! ### One set -/

lemma set_insert (w : m.WellFormed) (hi : i.index < m.sets.size) :
    (m.insert i e).set i = ((m.set i).insert e).2 := by
  rcases insert_cases w i e with ⟨h, hc | he⟩ | ⟨-, -, h⟩
  · rw [h, SparseSet.insert_of_contains hc]
  · rw [h, SparseSet.insert_of_capacity_le (w.set i) he]
  · rw [h]
    exact (set_withSet hi).trans (if_pos rfl)

lemma set_remove (hi : i.index < m.sets.size) :
    (m.remove i e).set i = ((m.set i).remove e).2 := by
  rcases remove_cases m i e with ⟨h, hc⟩ | ⟨-, h⟩
  · rw [h, SparseSet.remove_of_not_contains hc]
  · rw [h]
    exact (set_withSet hi).trans (if_pos rfl)

/-- A set that has a member is known. -/
lemma lt_size_of_getLast? (w : m.WellFormed) (hlast : (m.set i).elements.getLast? = some e) :
    i.index < m.sets.size := by
  have hc := (SparseSet.mem_elements (w.set i)).1 (List.mem_of_getLast? hlast)
  exact lt_size_of_capacity (SparseSet.lt_capacity_of_contains (w.set i) hc)

/-- The last member is removed, and so on. -/
lemma clear_of_getLast? (w : m.WellFormed) (hlast : (m.set i).elements.getLast? = some e) :
    m.clear i = (m.remove i e).clear i := by
  have hset := set_remove (e := e) (lt_size_of_getLast? w hlast)
  obtain ⟨es, hes⟩ := List.getLast?_eq_some_iff.1 hlast
  rw [clear, clear, hset, SparseSet.elements_remove_getLast? (w.set i) hlast, hes,
    List.reverse_append, List.dropLast_concat]
  rfl

/-- Nothing is left to remove. -/
lemma clear_of_elements_eq_nil (h : (m.set i).elements = []) : m.clear i = m := by
  rw [clear, h]
  rfl

/-- Members that are removed one by one are logged one by one. -/
lemma trail_foldl_remove (w : m.WellFormed) {es : List Nat} (hnodup : es.Nodup)
    (hmem : ∀ e ∈ es, (m.set i).contains e = true) :
    (es.foldl (fun m e => m.remove i e) m).trail.entries.toList =
      m.trail.entries.toList ++ es.map (.removed i) := by
  induction es generalizing m with
  | nil => simp
  | cons e es ih =>
    obtain ⟨he, hes⟩ := List.nodup_cons.1 hnodup
    have hc := hmem e List.mem_cons_self
    have hkept : Kept ⟨0⟩ [i] m (m.remove i e) := .remove w List.mem_cons_self
    have htrail : (m.remove i e).trail = m.trail.push (.removed i e) := by
      rcases remove_cases m i e with ⟨-, hc'⟩ | ⟨-, h⟩
      · rw [hc] at hc'
        cases hc'
      · rw [h]
        rfl
    have hleft : ∀ e' ∈ es, ((m.remove i e).set i).contains e' = true := fun e' he' =>
      (contains_remove w).2 ⟨fun h => he (h.2 ▸ he'), hmem e' (List.mem_cons_of_mem _ he')⟩
    rw [List.foldl_cons, ih hkept.wellFormed hes hleft, htrail, Trail.push, Array.toList_push,
      List.append_assoc]
    rfl

/-- When a set is emptied, the removal of each member is logged once. -/
lemma trail_clear (w : m.WellFormed) : (m.clear i).trail.entries.toList =
    m.trail.entries.toList ++ (m.set i).elements.reverse.map (.removed i) :=
  trail_foldl_remove w (List.nodup_reverse.2 (w.set i).nodup_elements) fun _ he =>
    (SparseSet.mem_elements (w.set i)).1 (List.mem_reverse.1 he)

/-! ### Whether membership changes -/

lemma insert_fst_iff (w : m.WellFormed) (he : e < (m.set i).capacity) :
    ((m.set i).insert e).1 = true ↔
      ∃ e', ((m.insert i e).set i).contains e' ≠ (m.set i).contains e' := by
  rw [SparseSet.insert_fst (w.set i) he, Bool.not_eq_true']
  have hafter : ∀ e', ((m.insert i e).set i).contains e' = true ↔
      e' = e ∨ (m.set i).contains e' = true := by
    intro e'
    rw [contains_insert w he]
    simp
  constructor
  · intro hc
    refine ⟨e, fun heq => ?_⟩
    rw [(hafter e).2 (.inl rfl), hc] at heq
    cases heq
  · rintro ⟨e', hne⟩
    refine Bool.eq_false_iff.2 fun hc => hne ?_
    rw [Bool.eq_iff_iff, hafter]
    refine or_iff_right_of_imp ?_
    rintro rfl
    exact hc

lemma remove_fst_iff (w : m.WellFormed) : ((m.set i).remove e).1 = true ↔
    ∃ e', ((m.remove i e).set i).contains e' ≠ (m.set i).contains e' := by
  rw [SparseSet.remove_fst]
  have hafter : ∀ e', ((m.remove i e).set i).contains e' = true ↔
      e' ≠ e ∧ (m.set i).contains e' = true := by
    intro e'
    rw [contains_remove w]
    simp
  constructor
  · intro hc
    refine ⟨e, fun heq => ?_⟩
    rw [hc, hafter] at heq
    exact heq.1 rfl
  · rintro ⟨e', hne⟩
    by_contra hc
    refine hne ?_
    rw [Bool.eq_iff_iff, hafter]
    refine and_iff_right_of_imp ?_
    rintro hc' rfl
    exact hc hc'

/-! ### All operations -/

/-- The memories that some operations lead to, with the capacities of their sets.  Numbers that are
inserted or removed lie below the capacity, and only levels are gone back to that there are. -/
inductive Reached : List Nat → Memory → Prop
  | new : Reached [] {}
  | addActivity {caps : List Nat} {m : Memory} (h : Reached caps m) : Reached caps m.addActivity
  | setActivity {caps : List Nat} {m : Memory} {p : PropId} (h : Reached caps m)
    (hp : p.index < m.activities.size) (a : Activity) : Reached caps (m.setActivity p a)
  | addSet {caps : List Nat} {m : Memory} (h : Reached caps m) (capacity : Nat) :
    Reached (caps ++ [capacity]) (m.addSet capacity).2
  | insert {caps : List Nat} {m : Memory} {i : SetId} {e capacity : Nat} (h : Reached caps m)
    (hi : caps[i.index]? = some capacity) (he : e < capacity) : Reached caps (m.insert i e)
  | remove {caps : List Nat} {m : Memory} {i : SetId} {e capacity : Nat} (h : Reached caps m)
    (hi : caps[i.index]? = some capacity) (he : e < capacity) : Reached caps (m.remove i e)
  | clear {caps : List Nat} {m : Memory} {i : SetId} (h : Reached caps m)
    (hi : i.index < caps.length) : Reached caps (m.clear i)
  | mark {caps : List Nat} {m : Memory} (h : Reached caps m) : Reached caps m.mark
  | restore {caps : List Nat} {m : Memory} {level : Nat} (h : Reached caps m)
    (hl : level ≤ m.trail.level) : Reached caps (m.restore level)

/-- The memory is well-formed, and has one set for each capacity. -/
structure Fits (caps : List Nat) (m : Memory) : Prop where
  wellFormed : m.WellFormed
  size : m.sets.size = caps.length
  capacity : ∀ i : SetId, ∀ c, caps[i.index]? = some c → (m.set i).capacity = c

lemma Fits.of_kept (h : Fits caps m) {m' : Memory} {own : List SetId} (hkept : Kept p own m m') :
    Fits caps m' :=
  ⟨hkept.wellFormed, hkept.size_sets.trans h.size,
    fun i c hi => (hkept.capacity i).trans (h.capacity i c hi)⟩

lemma Fits.lt_size (h : Fits caps m) (hi : caps[i.index]? = some capacity) :
    i.index < m.sets.size := by
  rw [h.size]
  exact (List.getElem?_eq_some_iff.1 hi).1

lemma WellFormed.setActivity (w : m.WellFormed) (hp : p.index < m.activities.size) (a : Activity) :
    (m.setActivity p a).WellFormed := by
  rw [Memory.setActivity]
  split
  · exact w
  refine ⟨w.set, w.trail.push, fun c hc => ?_⟩
  have hsize : (m.withActivity p a).activities.size = m.activities.size := by simp [withActivity]
  rw [Trail.push, Array.toList_push, List.mem_append, List.mem_singleton] at hc
  rcases hc with hc | rfl
  · exact (w.known c hc).congr hsize rfl
  · exact Change.Known.congr (m := m) hp hsize rfl

lemma Fits.addSet (h : Fits caps m) (capacity : Nat) :
    Fits (caps ++ [capacity]) (m.addSet capacity).2 := by
  refine ⟨h.wellFormed.addSet capacity, ?_, fun i c hi => ?_⟩
  · rw [Memory.addSet, Array.size_push, h.size, List.length_append, List.length_singleton]
  · rcases Nat.lt_or_ge i.index m.sets.size with hlt | hge
    · rw [set_addSet hlt]
      rw [List.getElem?_append_left (h.size ▸ hlt)] at hi
      exact h.capacity i c hi
    · rw [List.getElem?_append_right (h.size ▸ hge), List.getElem?_singleton] at hi
      have hnew : i = (m.addSet capacity).1 := by
        refine congrArg SetId.mk (Nat.le_antisymm ?_ hge)
        rw [h.size]
        exact Nat.sub_eq_zero_iff_le.1 (by split at hi <;> [assumption; cases hi])
      rw [hnew, set_addSet_new]
      split at hi <;> cases hi
      exact Array.size_range

/-- Every operation keeps the sets well-formed and their capacities. -/
lemma Reached.fits (h : Reached caps m) : Fits caps m := by
  induction h with
  | new => exact ⟨wellFormed_empty, rfl, fun i c hi => by simp at hi⟩
  | addActivity _ ih => exact ⟨ih.wellFormed.addActivity, ih.size, ih.capacity⟩
  | @setActivity _ m p _ hp a ih =>
    have hsets : (m.setActivity p a).sets = m.sets := by
      rw [Memory.setActivity]
      split <;> rfl
    refine ⟨ih.wellFormed.setActivity hp a, (congrArg Array.size hsets).trans ih.size,
      fun i c hi => ?_⟩
    rw [set, hsets]
    exact ih.capacity i c hi
  | addSet _ capacity ih => exact ih.addSet capacity
  | @insert _ _ i _ _ _ _ _ ih =>
    exact ih.of_kept (Kept.insert (p := ⟨0⟩) ih.wellFormed (List.mem_singleton_self i))
  | @remove _ _ i _ _ _ _ _ ih =>
    exact ih.of_kept (Kept.remove (p := ⟨0⟩) ih.wellFormed (List.mem_singleton_self i))
  | @clear _ _ i _ _ ih =>
    exact ih.of_kept (Kept.clear (p := ⟨0⟩) ih.wellFormed (List.mem_singleton_self i))
  | mark _ ih => exact ⟨ih.wellFormed.mark, ih.size, ih.capacity⟩
  | restore _ _ ih =>
    exact ⟨ih.wellFormed.restore, (size_restore _ _).2.trans ih.size,
      fun i c hi => capacity_restore.trans (ih.capacity i c hi)⟩

/-- What is expected of a set with room for the numbers below a capacity.  Its two arrays are
permutations of these numbers and inverse to each other, its members are listed once each, and
insertion and removal tell whether membership changed.  Emptying it takes the last member away as
long as there is one, and leaves no member and each removal in the log. -/
structure Arranged (m : Memory) (i : SetId) (capacity : Nat) : Prop where
  dense : (m.set i).dense.toList.Perm (List.range capacity)
  positions : (m.set i).positions.toList.Perm (List.range capacity)
  inverse : ∀ e p : Nat, (m.set i).positions[e]? = some p ↔ (m.set i).dense[p]? = some e
  nodup : (m.set i).elements.Nodup
  mem : ∀ e, e ∈ (m.set i).elements ↔ (m.set i).contains e = true
  length : (m.set i).elements.length = (m.set i).size
  insert : ∀ e < capacity, (m.insert i e).set i = ((m.set i).insert e).2 ∧
    (((m.set i).insert e).1 = true ↔
      ∃ e', ((m.insert i e).set i).contains e' ≠ (m.set i).contains e')
  remove : ∀ e < capacity, (m.remove i e).set i = ((m.set i).remove e).2 ∧
    (((m.set i).remove e).1 = true ↔
      ∃ e', ((m.remove i e).set i).contains e' ≠ (m.set i).contains e')
  step : ∀ e, (m.set i).elements.getLast? = some e → m.clear i = (m.remove i e).clear i
  done : (m.set i).elements = [] → m.clear i = m
  cleared : ((m.clear i).set i).elements = []
  logged : (m.clear i).trail.entries.toList =
    m.trail.entries.toList ++ (m.set i).elements.reverse.map (.removed i)

/-- Whatever operations lead to a memory, with checkpoints taken and gone back to in between, its
sets are arranged as expected. -/
theorem Reached.arranged (h : Reached caps m) (hi : caps[i.index]? = some capacity) :
    m.Arranged i capacity := by
  have hfits := h.fits
  have w := hfits.wellFormed
  have ws := w.set i
  have hcap := hfits.capacity i capacity hi
  have hlt := hfits.lt_size hi
  have hempty : ((m.clear i).set i).elements = [] := by
    have wclear : (m.clear i).WellFormed := (h.clear (hfits.size ▸ hlt)).fits.wellFormed
    refine List.eq_nil_iff_forall_not_mem.2 fun e he => ?_
    rw [SparseSet.mem_elements (wclear.set i), contains_clear w] at he
    exact he.1 rfl
  exact {
    dense := hcap ▸ ws.perm_dense
    positions := hcap ▸ ws.perm_positions
    inverse := fun e p => ⟨ws.dense_positions e p, ws.positions_dense p e⟩
    nodup := ws.nodup_elements
    mem := fun e => SparseSet.mem_elements ws
    length := SparseSet.length_elements ws
    insert := fun e he => ⟨set_insert w hlt, insert_fst_iff w (hcap.symm ▸ he)⟩
    remove := fun e _ => ⟨set_remove hlt, remove_fst_iff w⟩
    step := fun e hlast => clear_of_getLast? w hlast
    done := clear_of_elements_eq_nil
    cleared := hempty
    logged := trail_clear w }

/-- Two sets that were filled, changed and emptied behind a checkpoint, and got their members
back. -/
def worn : Memory :=
  (({} : Memory).addSet 3).2.addSet 6 |>.2.insert ⟨1⟩ 1 |>.insert ⟨1⟩ 4 |>.insert ⟨0⟩ 2
    |>.mark |>.remove ⟨1⟩ 1 |>.insert ⟨1⟩ 2 |>.insert ⟨1⟩ 5 |>.remove ⟨1⟩ 5 |>.clear ⟨1⟩
    |>.remove ⟨0⟩ 2 |>.insert ⟨1⟩ 0 |>.restore 0

/-- The members are back, and stand in another order. -/
theorem arranged_worn : Reached [3, 6] worn ∧ (worn.set ⟨1⟩).elements = [4, 1] ∧
    (worn.set ⟨1⟩).dense = #[4, 1, 5, 3, 0, 2] ∧ worn.Arranged ⟨0⟩ 3 ∧ worn.Arranged ⟨1⟩ 6 := by
  have hadded : Reached [3, 6] (({} : Memory).addSet 3 |>.2.addSet 6).2 :=
    (Reached.new.addSet 3).addSet 6
  have hfilled := ((hadded.insert (i := ⟨1⟩) (e := 1) rfl (by decide)).insert (i := ⟨1⟩) (e := 4)
    rfl (by decide)).insert (i := ⟨0⟩) (e := 2) rfl (by decide)
  have hchanged := (((hfilled.mark.remove (i := ⟨1⟩) (e := 1) rfl (by decide)).insert (i := ⟨1⟩)
    (e := 2) rfl (by decide)).insert (i := ⟨1⟩) (e := 5) rfl (by decide)).remove (i := ⟨1⟩) (e := 5)
    rfl (by decide)
  have hemptied := ((hchanged.clear (i := ⟨1⟩) (by decide)).remove (i := ⟨0⟩) (e := 2) rfl
    (by decide)).insert (i := ⟨1⟩) (e := 0) rfl (by decide)
  have hworn : Reached [3, 6] worn := hemptied.restore (Nat.zero_le _)
  exact ⟨hworn, by decide +kernel, by decide +kernel, hworn.arranged rfl, hworn.arranged rfl⟩

end Memory

end FiniteDomain
