import Mathlib.Tactic
import FiniteDomain.Memory
import FiniteDomain.Proofs.SparseSet
import FiniteDomain.Proofs.Trail

/-!
Going back in the memory of propagators.

Taking a change back does not restore the order inside a sparse set, so a memory
that went back is not equal to the one it was.  It answers all questions the same
way, though (`Memory.Same`), and that is kept by taking further changes back.

* `Memory.WellFormed`: all sets are well-formed, and the log is in order;
* `Memory.Same`: two memories with the same activities and members;
* `Memory.Kept`: what the changes leave alone that one propagator makes to its own
  activity and its own sets; going back below forgets them;
* `Memory.Kept.insert`, `Memory.Kept.remove`, `Memory.Kept.clear`,
  `Memory.Kept.setActivity`: these changes;
* `Memory.restore_mark`, `Memory.restore_restore`, `Memory.restore_addSet`,
  `Memory.restore_addActivity`: going back after the other changes.
-/

namespace FiniteDomain

namespace Memory

variable {m m' : Memory} {p q : PropId} {a : Activity} {i j : SetId} {e e' : Nat} {level : Nat}

/-- A logged change is about a propagator and a set that exist. -/
def Change.Known (m : Memory) : Change → Prop
  | .activity p _ => p.index < m.activities.size
  | .inserted i _ | .removed i _ => i.index < m.sets.size

/-- The sets are well-formed and the log is in order. -/
structure WellFormed (m : Memory) : Prop where
  set : ∀ i, (m.set i).WellFormed
  trail : m.trail.WellFormed
  known : ∀ c ∈ m.trail.entries.toList, c.Known m

/-- The memories have the same activities, and their sets have the same members. -/
structure Same (m m' : Memory) : Prop where
  size_activities : m'.activities.size = m.activities.size
  size_sets : m'.sets.size = m.sets.size
  activity : ∀ p, m'.activity p = m.activity p
  capacity : ∀ i, (m'.set i).capacity = (m.set i).capacity
  contains : ∀ i e, (m'.set i).contains e = (m.set i).contains e

lemma Same.refl (m : Memory) : Same m m := ⟨rfl, rfl, fun _ => rfl, fun _ => rfl, fun _ _ => rfl⟩

lemma Same.trans {m'' : Memory} (h : Same m m') (h' : Same m' m'') : Same m m'' :=
  ⟨h'.size_activities.trans h.size_activities, h'.size_sets.trans h.size_sets,
    fun p => (h'.activity p).trans (h.activity p), fun i => (h'.capacity i).trans (h.capacity i),
    fun i e => (h'.contains i e).trans (h.contains i e)⟩

/-! ### One place of an array -/

/-- The memory with another set in the place of one. -/
def withSet (m : Memory) (i : SetId) (s : SparseSet) : Memory :=
  { m with sets := m.sets.setIfInBounds i.index s }

/-- The memory with another activity in the place of one. -/
def withActivity (m : Memory) (p : PropId) (a : Activity) : Memory :=
  { m with activities := m.activities.setIfInBounds p.index a }

/-- The memory with one more change in the log. -/
def log (m : Memory) (c : Change) : Memory := { m with trail := m.trail.push c }

lemma set_of_size_le (h : m.sets.size ≤ i.index) : m.set i = .empty 0 := by
  rw [set, Array.getElem?_eq_none h, Option.getD_none]

lemma activity_of_size_le (h : m.activities.size ≤ p.index) : m.activity p = .inactive := by
  rw [activity, Array.getElem?_eq_none h, Option.getD_none]

lemma set_withSet {s : SparseSet} (hi : i.index < m.sets.size) :
    (m.withSet i s).set j = if j = i then s else m.set j := by
  simp only [withSet, set, Array.getElem?_setIfInBounds]
  by_cases hj : j = i
  · subst hj
    simp [hi]
  · have hne : i.index ≠ j.index := fun h =>
      hj (by cases i; cases j; exact congrArg SetId.mk h.symm)
    rw [if_neg hne, if_neg hj]

lemma withSet_of_size_le {s : SparseSet} (hi : m.sets.size ≤ i.index) : m.withSet i s = m := by
  rw [withSet, Array.setIfInBounds, dif_neg (Nat.not_lt.2 hi)]

lemma activity_withActivity (hp : p.index < m.activities.size) :
    (m.withActivity p a).activity q = if q = p then a else m.activity q := by
  simp only [withActivity, activity, Array.getElem?_setIfInBounds]
  by_cases hq : q = p
  · subst hq
    simp [hp]
  · have hne : p.index ≠ q.index := fun h =>
      hq (by cases p; cases q; exact congrArg PropId.mk h.symm)
    rw [if_neg hne, if_neg hq]

lemma withActivity_of_size_le (hp : m.activities.size ≤ p.index) : m.withActivity p a = m := by
  rw [withActivity, Array.setIfInBounds, dif_neg (Nat.not_lt.2 hp)]

/-- Sets with the same members can take the place of each other. -/
lemma Same.withSet (h : Same m m') {s s' : SparseSet} (hcap : s'.capacity = s.capacity)
    (hmem : ∀ e, s'.contains e = s.contains e) : Same (m.withSet i s) (m'.withSet i s') := by
  rcases Nat.lt_or_ge i.index m.sets.size with hi | hi
  · have hi' : i.index < m'.sets.size := h.size_sets ▸ hi
    refine ⟨h.size_activities, ?_, h.activity, fun j => ?_, fun j e => ?_⟩
    · simp only [Memory.withSet, Array.size_setIfInBounds, h.size_sets]
    · rw [set_withSet hi, set_withSet hi']
      split
      · exact hcap
      · exact h.capacity j
    · rw [set_withSet hi, set_withSet hi']
      split
      · exact hmem e
      · exact h.contains j e
  · rw [withSet_of_size_le hi, withSet_of_size_le (h.size_sets ▸ hi)]
    exact h

lemma Same.withActivity (h : Same m m') : Same (m.withActivity p a) (m'.withActivity p a) := by
  rcases Nat.lt_or_ge p.index m.activities.size with hp | hp
  · have hp' : p.index < m'.activities.size := h.size_activities ▸ hp
    refine ⟨?_, h.size_sets, fun q => ?_, h.capacity, h.contains⟩
    · simp only [Memory.withActivity, Array.size_setIfInBounds, h.size_activities]
    · rw [activity_withActivity hp, activity_withActivity hp', h.activity]
  · rw [withActivity_of_size_le hp, withActivity_of_size_le (h.size_activities ▸ hp)]
    exact h

/-! ### Taking changes back -/

lemma wellFormed_withSet {s : SparseSet} (w : ∀ j, (m.set j).WellFormed) (hs : s.WellFormed)
    (j : SetId) : ((m.withSet i s).set j).WellFormed := by
  rcases Nat.lt_or_ge i.index m.sets.size with hi | hi
  · rw [set_withSet hi]
    split
    · exact hs
    · exact w j
  · rw [withSet_of_size_le hi]
    exact w j

lemma wellFormed_undo (w : ∀ j, (m.set j).WellFormed) (c : Change) (j : SetId) :
    ((m.undo c).set j).WellFormed := by
  cases c with
  | activity p old => exact w j
  | inserted i e => exact wellFormed_withSet w (w i).remove j
  | removed i e => exact wellFormed_withSet w (w i).insert j

/-- Memories that answer the same way still do so after a change was taken back. -/
lemma Same.undo (h : Same m m') (w : ∀ j, (m.set j).WellFormed)
    (w' : ∀ j, (m'.set j).WellFormed) (c : Change) : Same (m.undo c) (m'.undo c) := by
  cases c with
  | activity p old => exact h.withActivity
  | inserted i e =>
    refine h.withSet ?_ fun e' => ?_
    · rw [SparseSet.capacity_remove, SparseSet.capacity_remove, h.capacity]
    · rw [Bool.eq_iff_iff, SparseSet.contains_remove (w i), SparseSet.contains_remove (w' i),
        h.contains]
  | removed i e =>
    refine h.withSet ?_ fun e' => ?_
    · rw [SparseSet.capacity_insert, SparseSet.capacity_insert, h.capacity]
    · rcases Nat.lt_or_ge e (m.set i).capacity with he | he
      · rw [Bool.eq_iff_iff, SparseSet.contains_insert (w i) he,
          SparseSet.contains_insert (w' i) (h.capacity i ▸ he), h.contains]
      · rw [SparseSet.insert_of_capacity_le (w i) he,
          SparseSet.insert_of_capacity_le (w' i) (h.capacity i ▸ he), h.contains]

lemma Same.foldl_undo (h : Same m m') (w : ∀ j, (m.set j).WellFormed)
    (w' : ∀ j, (m'.set j).WellFormed) (cs : List Change) :
    Same (cs.foldl Memory.undo m) (cs.foldl Memory.undo m') := by
  induction cs generalizing m m' with
  | nil => exact h
  | cons c cs ih => exact ih (h.undo w w' c) (wellFormed_undo w c) (wellFormed_undo w' c)

lemma wellFormed_foldl_undo (w : ∀ j, (m.set j).WellFormed) (cs : List Change) (j : SetId) :
    ((cs.foldl undo m).set j).WellFormed := by
  induction cs generalizing m with
  | nil => exact w j
  | cons c cs ih => exact ih (wellFormed_undo w c)

/-- Taking a change back does not look at the log. -/
lemma foldl_undo_withTrail (cs : List Change) (t : Trail Change) :
    cs.foldl undo { m with trail := t } = { cs.foldl undo m with trail := t } := by
  induction cs generalizing m with
  | nil => rfl
  | cons c cs ih =>
    have : undo { m with trail := t } c = { m.undo c with trail := t } := by cases c <;> rfl
    rw [List.foldl_cons, this, ih, List.foldl_cons]

lemma size_activities_undo (c : Change) : (m.undo c).activities.size = m.activities.size := by
  cases c <;> simp [undo]

lemma size_sets_undo (c : Change) : (m.undo c).sets.size = m.sets.size := by
  cases c <;> simp [undo]

lemma size_restore (m : Memory) (level : Nat) :
    (m.restore level).activities.size = m.activities.size ∧
      (m.restore level).sets.size = m.sets.size := by
  suffices h : ∀ (cs : List Change) (m : Memory),
      (cs.foldl undo m).activities.size = m.activities.size ∧
        (cs.foldl undo m).sets.size = m.sets.size from h _ m
  intro cs
  induction cs with
  | nil => exact fun m => ⟨rfl, rfl⟩
  | cons c cs ih =>
    intro m
    rw [List.foldl_cons, (ih _).1, (ih _).2, size_activities_undo, size_sets_undo]
    exact ⟨rfl, rfl⟩

lemma capacity_withSet {s : SparseSet} (hcap : s.capacity = (m.set i).capacity) :
    ((m.withSet i s).set j).capacity = (m.set j).capacity := by
  rcases Nat.lt_or_ge i.index m.sets.size with hi | hi
  · rw [set_withSet hi]
    split
    · rename_i hj
      rw [hj, hcap]
    · rfl
  · rw [withSet_of_size_le hi]

lemma capacity_undo (c : Change) : ((m.undo c).set i).capacity = (m.set i).capacity := by
  cases c with
  | activity p old => rfl
  | inserted j e => exact capacity_withSet SparseSet.capacity_remove
  | removed j e => exact capacity_withSet SparseSet.capacity_insert

lemma capacity_restore : ((m.restore level).set i).capacity = (m.set i).capacity := by
  suffices h : ∀ (cs : List Change) (m : Memory),
      ((cs.foldl undo m).set i).capacity = (m.set i).capacity from h _ m
  intro cs
  induction cs with
  | nil => exact fun m => rfl
  | cons c cs ih =>
    intro m
    rw [List.foldl_cons, ih, capacity_undo]

lemma WellFormed.restore (w : m.WellFormed) : (m.restore level).WellFormed where
  set i := wellFormed_foldl_undo w.set _ i
  trail := w.trail.cut
  known c hc := by
    have hmem : c ∈ m.trail.entries.toList := by
      simp only [Memory.restore, Trail.cut, Array.take_eq_extract, Array.toList_extract,
        List.extract_eq_take_drop, List.drop_zero] at hc
      exact List.mem_of_mem_take hc
    have := w.known c hmem
    have := size_restore m level
    cases c <;> simp only [Change.Known] at * <;> omega

/-! ### Changes by one propagator -/

/-- One logged change, taken back at once, is forgotten on going back below. -/
lemma same_restore_of_undo (w : m.WellFormed) (w' : ∀ j, (m'.set j).WellFormed) {c : Change}
    (htrail : m'.trail = m.trail.push c) (h : Same m (m'.undo c))
    (hlevel : level < m.trail.level) : Same (m.restore level) (m'.restore level) := by
  have hfold := h.foldl_undo w.set (wellFormed_undo w' c) (m.trail.undone level)
  rw [restore, restore, htrail, Trail.undone_push w.trail hlevel, List.foldl_cons]
  exact ⟨hfold.size_activities, hfold.size_sets, hfold.activity, hfold.capacity, hfold.contains⟩

/-- What a change by a propagator leaves alone. -/
structure Kept (p : PropId) (own : List SetId) (m m' : Memory) : Prop where
  wellFormed : m'.WellFormed
  level : m'.trail.level = m.trail.level
  size_activities : m'.activities.size = m.activities.size
  size_sets : m'.sets.size = m.sets.size
  activity : ∀ q, q ≠ p → m'.activity q = m.activity q
  called : m.activity p ≠ .inactive → m'.activity p ≠ .inactive
  capacity : ∀ i, (m'.set i).capacity = (m.set i).capacity
  contains : ∀ i, i ∉ own → ∀ e, (m'.set i).contains e = (m.set i).contains e
  restore : ∀ level, level < m.trail.level → Same (m.restore level) (m'.restore level)

variable {own : List SetId}

lemma Kept.refl (w : m.WellFormed) : Kept p own m m :=
  ⟨w, rfl, rfl, rfl, fun _ _ => rfl, id, fun _ => rfl, fun _ _ _ => rfl, fun _ _ => .refl _⟩

lemma Kept.trans {m'' : Memory} (h : Kept p own m m') (h' : Kept p own m' m'') :
    Kept p own m m'' where
  wellFormed := h'.wellFormed
  level := h'.level.trans h.level
  size_activities := h'.size_activities.trans h.size_activities
  size_sets := h'.size_sets.trans h.size_sets
  activity q hq := (h'.activity q hq).trans (h.activity q hq)
  called hp := h'.called (h.called hp)
  capacity i := (h'.capacity i).trans (h.capacity i)
  contains i hi e := (h'.contains i hi e).trans (h.contains i hi e)
  restore level hl := (h.restore level hl).trans (h'.restore level (h.level ▸ hl))

/-- A set is known if its membership changes. -/
lemma lt_size_of_capacity (h : e < (m.set i).capacity) : i.index < m.sets.size := by
  by_contra hge
  rw [set_of_size_le (Nat.not_lt.1 hge)] at h
  exact absurd h (Nat.not_lt_zero e)

/-- An insertion does nothing, or adds a number that was missing and logs it. -/
lemma insert_cases (w : m.WellFormed) (i : SetId) (e : Nat) :
    m.insert i e = m ∧ ((m.set i).contains e = true ∨ (m.set i).capacity ≤ e) ∨
      (m.set i).contains e = false ∧ e < (m.set i).capacity ∧
        m.insert i e = (m.withSet i ((m.set i).insert e).2).log (.inserted i e) := by
  rcases Nat.lt_or_ge e (m.set i).capacity with he | he
  · have hfst := SparseSet.insert_fst (w.set i) he
    cases hc : (m.set i).contains e with
    | true =>
      rw [hc] at hfst
      left
      refine ⟨?_, .inl rfl⟩
      rw [insert]
      split <;> rename_i hs <;> rw [hs] at hfst
      cases hfst
    | false =>
      rw [hc] at hfst
      right
      refine ⟨rfl, he, ?_⟩
      rw [insert]
      split <;> rename_i hs <;> rw [hs] at hfst
      · rw [hs, withSet, log]
      · cases hfst
  · left
    refine ⟨?_, .inr he⟩
    rw [insert, SparseSet.insert_of_capacity_le (w.set i) he]

/-- A removal does nothing, or takes a member away and logs it. -/
lemma remove_cases (m : Memory) (i : SetId) (e : Nat) :
    m.remove i e = m ∧ (m.set i).contains e = false ∨
      (m.set i).contains e = true ∧
        m.remove i e = (m.withSet i ((m.set i).remove e).2).log (.removed i e) := by
  have hfst := SparseSet.remove_fst (s := m.set i) (e := e)
  cases hc : (m.set i).contains e with
  | false =>
    rw [hc] at hfst
    left
    refine ⟨?_, rfl⟩
    rw [remove]
    split <;> rename_i hs <;> rw [hs] at hfst
    cases hfst
  | true =>
    rw [hc] at hfst
    right
    refine ⟨rfl, ?_⟩
    rw [remove]
    split <;> rename_i hs <;> rw [hs] at hfst
    · rw [hs, withSet, log]
    · cases hfst

lemma activity_insert (w : m.WellFormed) : (m.insert i e).activity q = m.activity q := by
  rcases insert_cases w i e with ⟨h, -⟩ | ⟨-, -, h⟩ <;> rw [h]
  exact rfl

lemma activity_remove : (m.remove i e).activity q = m.activity q := by
  rcases remove_cases m i e with ⟨h, -⟩ | ⟨-, h⟩ <;> rw [h]
  exact rfl

lemma contains_insert (w : m.WellFormed) (he : e < (m.set i).capacity) :
    ((m.insert i e).set j).contains e' = true ↔
      j = i ∧ e' = e ∨ (m.set j).contains e' = true := by
  rcases insert_cases w i e with ⟨h, hc | hge⟩ | ⟨-, -, h⟩
  · rw [h]
    refine ⟨.inr, ?_⟩
    rintro (⟨rfl, rfl⟩ | h)
    · exact hc
    · exact h
  · omega
  · rw [h]
    change ((m.withSet i _).set j).contains e' = true ↔ _
    rw [set_withSet (lt_size_of_capacity he)]
    split
    · rename_i hj
      subst hj
      rw [SparseSet.contains_insert (w.set j) he]
      simp
    · rename_i hj
      simp [hj]

lemma contains_remove (w : m.WellFormed) :
    ((m.remove i e).set j).contains e' = true ↔
      ¬ (j = i ∧ e' = e) ∧ (m.set j).contains e' = true := by
  rcases remove_cases m i e with ⟨h, hc⟩ | ⟨hc, h⟩
  · rw [h]
    refine ⟨fun h' => ⟨?_, h'⟩, And.right⟩
    rintro ⟨rfl, rfl⟩
    rw [hc] at h'
    cases h'
  · rw [h]
    change ((m.withSet i _).set j).contains e' = true ↔ _
    rw [set_withSet (lt_size_of_capacity (SparseSet.lt_capacity_of_contains (w.set i) hc))]
    split
    · rename_i hj
      subst hj
      rw [SparseSet.contains_remove (w.set j)]
      simp
    · rename_i hj
      simp [hj]

lemma activity_setActivity (hp : p.index < m.activities.size) :
    (m.setActivity p a).activity q = if q = p then a else m.activity q := by
  rw [setActivity]
  split
  · rename_i h
    split
    · rename_i hq
      rw [hq, h]
    · rfl
  · exact activity_withActivity hp

/-! ### What such changes leave alone -/

lemma Change.Known.congr {c : Change} (h : c.Known m)
    (hact : m'.activities.size = m.activities.size) (hset : m'.sets.size = m.sets.size) :
    c.Known m' := by
  cases c <;> simp only [Change.Known, hact, hset] at * <;> exact h

/-- A logged change that can be taken back, and that spares what is not owned. -/
lemma Kept.of_logged (w : m.WellFormed) (w' : ∀ j, (m'.set j).WellFormed) {c : Change}
    (hknown : c.Known m) (htrail : m'.trail = m.trail.push c)
    (hact : ∀ q, q ≠ p → m'.activity q = m.activity q)
    (hcalled : m.activity p ≠ .inactive → m'.activity p ≠ .inactive)
    (hset : ∀ j, j ∉ own → m'.set j = m.set j)
    (hcap : ∀ j, (m'.set j).capacity = (m.set j).capacity)
    (hback : Same m (m'.undo c)) : Kept p own m m' := by
  have hsizea : m'.activities.size = m.activities.size := by
    rw [← size_activities_undo c, hback.size_activities]
  have hsizes : m'.sets.size = m.sets.size := by rw [← size_sets_undo c, hback.size_sets]
  refine ⟨⟨w', htrail ▸ w.trail.push, fun c' hc' => ?_⟩, by rw [htrail, Trail.level_push],
    hsizea, hsizes, hact, hcalled, hcap, fun j hj e => by rw [hset j hj],
    fun level hl => same_restore_of_undo w w' htrail hback hl⟩
  rw [htrail, Trail.push, Array.toList_push, List.mem_append, List.mem_singleton] at hc'
  rcases hc' with hc' | rfl
  · exact (w.known c' hc').congr hsizea hsizes
  · exact hknown.congr hsizea hsizes

/-- The memory after one set was changed and changed back. -/
lemma same_withSet_withSet {s s' : SparseSet} {c : Change} (hi : i.index < m.sets.size)
    (hcap : s'.capacity = (m.set i).capacity)
    (hmem : ∀ e, s'.contains e = (m.set i).contains e) :
    Same m (((m.withSet i s).log c).withSet i s') := by
  have hsize : (m.withSet i s).sets.size = m.sets.size := by simp [withSet]
  refine ⟨rfl, by simp [withSet, log], fun _ => rfl, fun j => ?_, fun j e => ?_⟩
  · rw [set_withSet (by rw [← hsize] at hi; exact hi)]
    split
    · rename_i hj
      rw [hj, hcap]
    · rename_i hj
      change ((m.withSet i s).set j).capacity = _
      rw [set_withSet hi, if_neg hj]
  · rw [set_withSet (by rw [← hsize] at hi; exact hi)]
    split
    · rename_i hj
      rw [hj, hmem]
    · rename_i hj
      change ((m.withSet i s).set j).contains e = _
      rw [set_withSet hi, if_neg hj]

lemma Kept.insert (w : m.WellFormed) (hi : i ∈ own) : Kept p own m (m.insert i e) := by
  rcases insert_cases w i e with ⟨h, -⟩ | ⟨hc, he, h⟩ <;> rw [h]
  · exact .refl w
  have hlt := lt_size_of_capacity he
  have hset : ∀ j, ((m.withSet i ((m.set i).insert e).2).log (.inserted i e)).set j
      = if j = i then ((m.set i).insert e).2 else m.set j := fun j => set_withSet hlt
  refine .of_logged (c := .inserted i e) w (fun j => ?_) hlt rfl (fun _ _ => rfl) id
    (fun j hj => ?_)
    (fun j => ?_) ?_
  · rw [hset]
    split
    · exact (w.set i).insert
    · exact w.set j
  · rw [hset, if_neg]
    rintro rfl
    exact hj hi
  · rw [hset]
    split
    · rename_i hj
      rw [hj, SparseSet.capacity_insert]
    · rfl
  · refine same_withSet_withSet hlt ?_ fun e' => ?_
    · rw [hset, if_pos rfl, SparseSet.capacity_remove, SparseSet.capacity_insert]
    · rw [hset, if_pos rfl, Bool.eq_iff_iff, SparseSet.contains_remove (w.set i).insert,
        SparseSet.contains_insert (w.set i) he]
      constructor
      · rintro ⟨hne, h | h⟩
        · exact absurd h hne
        · exact h
      · intro hmem
        refine ⟨?_, .inr hmem⟩
        rintro rfl
        exact absurd (hc.symm.trans hmem) Bool.false_ne_true

lemma Kept.remove (w : m.WellFormed) (hi : i ∈ own) : Kept p own m (m.remove i e) := by
  rcases remove_cases m i e with ⟨h, -⟩ | ⟨hc, h⟩ <;> rw [h]
  · exact .refl w
  have he := SparseSet.lt_capacity_of_contains (w.set i) hc
  have hlt := lt_size_of_capacity he
  have hset : ∀ j, ((m.withSet i ((m.set i).remove e).2).log (.removed i e)).set j
      = if j = i then ((m.set i).remove e).2 else m.set j := fun j => set_withSet hlt
  refine .of_logged (c := .removed i e) w (fun j => ?_) hlt rfl (fun _ _ => rfl) id (fun j hj => ?_)
    (fun j => ?_) ?_
  · rw [hset]
    split
    · exact (w.set i).remove
    · exact w.set j
  · rw [hset, if_neg]
    rintro rfl
    exact hj hi
  · rw [hset]
    split
    · rename_i hj
      rw [hj, SparseSet.capacity_remove]
    · rfl
  · refine same_withSet_withSet hlt ?_ fun e' => ?_
    · rw [hset, if_pos rfl, SparseSet.capacity_insert, SparseSet.capacity_remove]
    · rw [hset, if_pos rfl, Bool.eq_iff_iff,
        SparseSet.contains_insert (w.set i).remove (by rw [SparseSet.capacity_remove]; exact he),
        SparseSet.contains_remove (w.set i)]
      constructor
      · rintro (rfl | ⟨-, h⟩)
        · exact hc
        · exact h
      · intro h
        by_cases heq : e' = e
        · exact .inl heq
        · exact .inr ⟨heq, h⟩

lemma Kept.setActivity (w : m.WellFormed) (hp : p.index < m.activities.size)
    (ha : a ≠ .inactive) : Kept p own m (m.setActivity p a) := by
  rw [Memory.setActivity]
  split
  · exact .refl w
  refine .of_logged (c := .activity p (m.activity p)) w w.set hp rfl (fun q hq => ?_) (fun _ => ?_)
    (fun _ _ => rfl) (fun _ => rfl) ?_
  · change (m.withActivity p a).activity q = _
    rw [activity_withActivity hp, if_neg hq]
  · change (m.withActivity p a).activity p ≠ _
    rwa [activity_withActivity hp, if_pos rfl]
  · refine ⟨by simp [undo], rfl, fun q => ?_, fun _ => rfl, fun _ _ => rfl⟩
    change (Memory.withActivity _ p (m.activity p)).activity q = _
    rw [activity_withActivity (by simpa using hp)]
    split
    · rename_i hq
      rw [hq]
    · rename_i hq
      change (m.withActivity p a).activity q = _
      rw [activity_withActivity hp, if_neg hq]

/-! ### Emptying a set -/

/-- Removing the numbers of a list one by one. -/
lemma foldl_remove (w : m.WellFormed) (hi : i ∈ own) (es : List Nat) :
    Kept p own m (es.foldl (fun m e => m.remove i e) m) ∧
      (∀ q, (es.foldl (fun m e => m.remove i e) m).activity q = m.activity q) ∧
      ∀ j e', ((es.foldl (fun m e => m.remove i e) m).set j).contains e' = true ↔
        ¬ (j = i ∧ e' ∈ es) ∧ (m.set j).contains e' = true := by
  induction es generalizing m with
  | nil => exact ⟨.refl w, fun _ => rfl, fun j e' => by simp⟩
  | cons e es ih =>
    have hkept : Kept p own m (m.remove i e) := .remove w hi
    obtain ⟨ihkept, ihact, ihmem⟩ := ih hkept.wellFormed
    refine ⟨hkept.trans ihkept, fun q => ?_, fun j e' => ?_⟩
    · rw [List.foldl_cons, ihact, activity_remove]
    · rw [List.foldl_cons, ihmem, contains_remove w, List.mem_cons]
      tauto

lemma Kept.clear (w : m.WellFormed) (hi : i ∈ own) : Kept p own m (m.clear i) :=
  (foldl_remove w hi _).1

lemma activity_clear (w : m.WellFormed) : (m.clear i).activity q = m.activity q :=
  (foldl_remove (p := q) w (List.mem_singleton_self i) _).2.1 q

lemma contains_clear (w : m.WellFormed) :
    ((m.clear i).set j).contains e = true ↔ j ≠ i ∧ (m.set j).contains e = true := by
  rw [clear, (foldl_remove (p := ⟨0⟩) w (List.mem_singleton_self i) _).2.2,
    List.mem_reverse, SparseSet.mem_elements (w.set i)]
  constructor
  · rintro ⟨h, hc⟩
    refine ⟨?_, hc⟩
    rintro rfl
    exact h ⟨rfl, hc⟩
  · rintro ⟨hj, hc⟩
    exact ⟨fun h => hj h.1, hc⟩

/-! ### Going back after the other changes -/

/-- The memories answer questions about activities and members the same way. -/
structure Agrees (m m' : Memory) : Prop where
  activity : ∀ p, m'.activity p = m.activity p
  contains : ∀ i e, (m'.set i).contains e = (m.set i).contains e

lemma Agrees.refl (m : Memory) : Agrees m m := ⟨fun _ => rfl, fun _ _ => rfl⟩

lemma Agrees.trans {m'' : Memory} (h : Agrees m m') (h' : Agrees m' m'') : Agrees m m'' :=
  ⟨fun p => (h'.activity p).trans (h.activity p),
    fun i e => (h'.contains i e).trans (h.contains i e)⟩

lemma Same.agrees (h : Same m m') : Agrees m m' := ⟨h.activity, h.contains⟩

lemma WellFormed.mark (w : m.WellFormed) : m.mark.WellFormed :=
  ⟨w.set, w.trail.mark, fun c hc => w.known c hc⟩

/-- A checkpoint does not change what lies below it. -/
lemma restore_mark (h : level ≤ m.trail.level) : m.mark.restore level = m.restore level := by
  have hcut : m.mark.trail.cut level = m.trail.cut level := Trail.cut_mark_of_le h
  have hundone : m.mark.trail.undone level = m.trail.undone level := Trail.undone_mark
  rw [restore, hcut, hundone, mark, foldl_undo_withTrail, restore]

/-- Going back to the current level changes nothing. -/
lemma restore_level : m.restore m.trail.level = m := by
  rw [restore, Trail.undone_level, Trail.cut_level, List.foldl_nil]

/-- Going back in two steps. -/
lemma restore_restore (w : m.WellFormed) {level' : Nat} (h : level ≤ level') :
    (m.restore level').restore level = m.restore level := by
  have hund := Trail.undone_cut w.trail h
  rw [restore, restore, restore, hund, List.foldl_append, foldl_undo_withTrail,
    Trail.cut_cut w.trail h]

lemma setIfInBounds_push {α : Type} {xs : Array α} {k : Nat} (x y : α) (hk : k < xs.size) :
    (xs.push x).setIfInBounds k y = (xs.setIfInBounds k y).push x := by
  rw [Array.setIfInBounds, dif_pos (by rw [Array.size_push]; omega), Array.set_push, dif_pos hk,
    Array.setIfInBounds, dif_pos hk]

/-- Taking a change back commutes with a change of the memory that known changes
do not see. -/
lemma restore_of_undo (w : m.WellFormed) {f : Memory → Memory}
    (htrail : ∀ m, (f m).trail = m.trail)
    (hf : ∀ m' c, m'.activities.size = m.activities.size → m'.sets.size = m.sets.size →
      c.Known m → (f m').undo c = f (m'.undo c))
    (hput : ∀ (m : Memory) t, f { m with trail := t } = { f m with trail := t }) (level : Nat) :
    (f m).restore level = f (m.restore level) := by
  have hknown : ∀ c ∈ m.trail.undone level, c.Known m := by
    intro c hc
    rw [Trail.undone, List.mem_reverse] at hc
    exact w.known c (List.mem_of_mem_drop hc)
  suffices h : ∀ (cs : List Change) (m' : Memory), m'.activities.size = m.activities.size →
      m'.sets.size = m.sets.size → (∀ c ∈ cs, c.Known m) →
        cs.foldl undo (f m') = f (cs.foldl undo m') by
    rw [restore, htrail, h _ _ rfl rfl hknown]
    exact (hput _ _).symm
  intro cs
  induction cs with
  | nil => intros; rfl
  | cons c cs ih =>
    intro m' hact hset hcs
    rw [List.foldl_cons, List.foldl_cons, hf m' c hact hset (hcs c List.mem_cons_self)]
    refine ih _ ?_ ?_ fun c' hc' => hcs c' (List.mem_cons_of_mem _ hc')
    · rw [size_activities_undo, hact]
    · rw [size_sets_undo, hset]

/-- Going back does not see a propagator that came later. -/
lemma restore_addActivity (w : m.WellFormed) (level : Nat) :
    m.addActivity.restore level = (m.restore level).addActivity := by
  refine restore_of_undo (f := addActivity) w (fun _ => rfl) (fun m' c hact hset hc => ?_)
    (fun _ _ => rfl) level
  cases c with
  | activity q old =>
    have hlt : q.index < m'.activities.size := hact ▸ hc
    rw [undo, undo, addActivity, addActivity]
    simp only [setIfInBounds_push _ _ hlt]
  | inserted i e => rfl
  | removed i e => rfl

/-- The set of a known number does not change when another one is added. -/
lemma set_addSet {capacity : Nat} (hi : i.index < m.sets.size) :
    (m.addSet capacity).2.set i = m.set i := by
  rw [set, set, addSet, Array.getElem?_push, if_neg (by omega)]

lemma set_addSet_new {capacity : Nat} :
    (m.addSet capacity).2.set (m.addSet capacity).1 = .empty capacity := by
  rw [set, addSet, Array.getElem?_push, if_pos rfl, Option.getD_some]

/-- Going back does not see a set that came later. -/
lemma restore_addSet (w : m.WellFormed) (capacity level : Nat) :
    (m.addSet capacity).2.restore level = ((m.restore level).addSet capacity).2 := by
  refine restore_of_undo (f := fun m => (m.addSet capacity).2) w (fun _ => rfl)
    (fun m' c hact hset hc => ?_) (fun _ _ => rfl) level
  cases c with
  | activity q old => rfl
  | inserted i e =>
    have hlt : i.index < m'.sets.size := hset ▸ hc
    rw [undo, undo, set_addSet hlt, addSet, addSet]
    simp only [setIfInBounds_push _ _ hlt]
  | removed i e =>
    have hlt : i.index < m'.sets.size := hset ▸ hc
    rw [undo, undo, set_addSet hlt, addSet, addSet]
    simp only [setIfInBounds_push _ _ hlt]

/-- A new propagator is inactive, as one that does not exist. -/
lemma agrees_addActivity (m : Memory) : Agrees m m.addActivity := by
  refine ⟨fun p => ?_, fun _ _ => rfl⟩
  rw [activity, activity, addActivity, Array.getElem?_push]
  split
  · rename_i h
    rw [Array.getElem?_eq_none (Nat.le_of_eq h.symm)]
    rfl
  · rfl

/-- A new set is empty, as one that does not exist. -/
lemma agrees_addSet (m : Memory) (capacity : Nat) : Agrees m (m.addSet capacity).2 := by
  refine ⟨fun _ => rfl, fun i e => ?_⟩
  rcases Nat.lt_or_ge i.index m.sets.size with hi | hi
  · rw [set_addSet hi]
  · rw [set_of_size_le hi, SparseSet.contains_empty, set, addSet, Array.getElem?_push]
    split
    · exact SparseSet.contains_empty _ _
    · rw [Array.getElem?_eq_none hi]
      exact SparseSet.contains_empty _ _

lemma WellFormed.addActivity (w : m.WellFormed) : m.addActivity.WellFormed := by
  refine ⟨w.set, w.trail, fun c hc => ?_⟩
  have := w.known c hc
  cases c <;> simp only [Change.Known, Memory.addActivity, Array.size_push] at * <;> omega

lemma WellFormed.addSet (w : m.WellFormed) (capacity : Nat) :
    (m.addSet capacity).2.WellFormed := by
  refine ⟨fun i => ?_, w.trail, fun c hc => ?_⟩
  · rw [Memory.set, Memory.addSet, Array.getElem?_push]
    split
    · exact SparseSet.wellFormed_empty capacity
    · exact w.set i
  · have := w.known c hc
    cases c <;> simp only [Change.Known, Memory.addSet, Array.size_push] at * <;> omega

/-- The memory has room for more, and answers all questions as before, also after
going back. -/
structure Grows (m m' : Memory) : Prop where
  wellFormed : m'.WellFormed
  level : m'.trail.level = m.trail.level
  size_sets : m.sets.size ≤ m'.sets.size
  set : ∀ i : SetId, i.index < m.sets.size → m'.set i = m.set i
  agrees : Agrees m m'
  restore : ∀ level, Agrees (m.restore level) (m'.restore level)

lemma Grows.refl (w : m.WellFormed) : Grows m m :=
  ⟨w, rfl, Nat.le_refl _, fun _ _ => rfl, .refl m, fun _ => .refl _⟩

lemma Grows.trans {m'' : Memory} (h : Grows m m') (h' : Grows m' m'') : Grows m m'' where
  wellFormed := h'.wellFormed
  level := h'.level.trans h.level
  size_sets := Nat.le_trans h.size_sets h'.size_sets
  set i hi := (h'.set i (Nat.lt_of_lt_of_le hi h.size_sets)).trans (h.set i hi)
  agrees := h.agrees.trans h'.agrees
  restore level := (h.restore level).trans (h'.restore level)

lemma grows_addSet (w : m.WellFormed) (capacity : Nat) : Grows m (m.addSet capacity).2 where
  wellFormed := w.addSet capacity
  level := rfl
  size_sets := by simp [addSet]
  set _ hi := set_addSet hi
  agrees := agrees_addSet m capacity
  restore level := by
    rw [restore_addSet w]
    exact agrees_addSet _ capacity

lemma grows_addActivity (w : m.WellFormed) : Grows m m.addActivity where
  wellFormed := w.addActivity
  level := rfl
  size_sets := Nat.le_refl _
  set _ _ := rfl
  agrees := agrees_addActivity m
  restore level := by
    rw [restore_addActivity w]
    exact agrees_addActivity _

lemma wellFormed_empty : ({} : Memory).WellFormed :=
  ⟨fun _ => SparseSet.wellFormed_empty 0, Trail.wellFormed_empty, fun c hc => by simp at hc⟩

end Memory

end FiniteDomain
