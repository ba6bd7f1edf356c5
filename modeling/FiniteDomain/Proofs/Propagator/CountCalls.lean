import Mathlib.Tactic
import FiniteDomain.Proofs.Propagator.CountFilter

/-!
The calls of a count.

Both calls of the engine bring the sets in line with the domains first, and then filter.  What
they do to the sets is said here, once for all that has to be known of the calls.

* `Count.sorted`, `Count.moved?`: the space in which a call filters, with
  `Count.propagate_eq` and `Count.react_eq`;
* `Count.ran_sorted`, `Count.ran_moved`: the call changes nothing but its sets before it filters;
* `Count.Sorts`: the sets say of each place how its variable stands, with `Count.sorts_sorted`:
  they do when all places were sorted anew;
* `Count.Tracks.of_moved`: one place is brought up to date, and the others stay so;
* `Count.forces_propagate`, `Count.forces_react`: the sets are up to date after both calls.
-/

namespace FiniteDomain

namespace Count

open FiniteDomain.Filter Space

variable {c : Count} {sets : Sets} {m : Memory} {s t : Space} {J : Grounds} {p : PropId}
  {v : VarId} {i index : Nat} {dom : VarId → IntervalSet}

/-! ### Where a call filters -/

/-- The space after all places were sorted anew. -/
def sorted (c : Count) (sets : Sets) (s : Space) : Space :=
  { s with
    memory := c.vars.zipIdx.foldl (fun m v => c.sort s.store sets m v.1 v.2)
      ((s.memory.clear sets.certain).clear sets.possible) }

/-- The space after the variable at an index changed, if this makes the count filter. -/
def moved? (c : Count) (sets : Sets) (index : Nat) (s : Space) : Option Space :=
  match c.vars[index]? with
  | none => some s
  | some v =>
    if (s.memory.set sets.possible).contains index then
      if !s.store.contains v c.value then
        some { s with memory := s.memory.remove sets.possible index }
      else if s.store.isFixed v then
        some { s with memory := (s.memory.remove sets.possible index).insert sets.certain index }
      else none
    else none

lemma propagate_eq : c.propagate p sets s = c.filter p sets (c.sorted sets s) := by
  simp only [propagate, sorted, Filter.clear, Filter.onMemory_bind, Filter.store_bind]

lemma react_eq (index : Nat) : c.react p sets index s =
    match c.moved? sets index s with
    | none => .ok () s
    | some t => c.filter p sets t := by
  rw [react, moved?]
  cases c.vars[index]? with
  | none => rfl
  | some v =>
    simp only [Filter.memory_bind]
    split_ifs with hin hlost hfixed
    · simp only [Filter.store_bind, hlost, if_true, Filter.remove, Filter.onMemory_bind]
    · simp only [Filter.store_bind, hlost, hfixed, Bool.false_eq_true, if_true, if_false,
        Filter.remove, Filter.insert, Filter.onMemory_bind]
    · simp only [Filter.store_bind, hlost, hfixed, Bool.false_eq_true, if_false]
      rfl
    · rfl

lemma react_eq_of_none (ht : c.moved? sets index s = none) :
    c.react p sets index s = (pure () : Filter Unit) s := by
  rw [react_eq, ht]
  rfl

lemma react_eq_of_some (ht : c.moved? sets index s = some t) :
    c.react p sets index s = c.filter p sets t := by
  rw [react_eq, ht]

/-- A call for one place filters at once if it is about the cardinality, and otherwise after the
place left the possible ones, either because the variable lost the value or because it is fixed
to it. -/
lemma moved?_eq_some (ht : c.moved? sets index s = some t) :
    c.vars[index]? = none ∧ t = s ∨
      ∃ v, c.vars[index]? = some v ∧
        (s.store.contains v c.value = false ∧
            t = { s with memory := s.memory.remove sets.possible index } ∨
          s.store.contains v c.value = true ∧ s.store.isFixed v = true ∧
            t = { s with
              memory := (s.memory.remove sets.possible index).insert sets.certain index }) := by
  rw [moved?] at ht
  split at ht
  · rename_i hnone
    exact .inl ⟨hnone, (Option.some.inj ht).symm⟩
  rename_i v hv
  split_ifs at ht with hin hlost hfixed
  · exact .inr ⟨v, hv, .inl ⟨by simpa using hlost, (Option.some.inj ht).symm⟩⟩
  · exact .inr ⟨v, hv, .inr ⟨by simpa using hlost, hfixed, (Option.some.inj ht).symm⟩⟩

/-- A call for one place does nothing if the place is decided, or open still. -/
lemma moved?_eq_none (w : s.store.WellFormed) (ht : c.moved? sets index s = none) :
    ∃ v, c.vars[index]? = some v ∧ ((s.memory.set sets.possible).contains index = true →
      c.value ∈ s.store.domain v ∧ ¬ c.Fixed s.store.domain v) := by
  rw [moved?] at ht
  split at ht
  · cases ht
  rename_i v hv
  refine ⟨v, hv, fun hin => ?_⟩
  rw [if_pos hin] at ht
  split_ifs at ht with hlost hfixed
  have hmem : c.value ∈ s.store.domain v := by
    rw [← w.contains_iff]
    simpa using hlost
  exact ⟨hmem, fun hfix => hfixed ((fixed_iff_isFixed w hmem).1 hfix)⟩

/-! ### What changes until then -/

/-- Sorting an index changes no other sets. -/
lemma kept_sort (w : m.WellFormed) (store : Store) (v : VarId) (i : Nat) :
    Memory.Kept p sets.own m (c.sort store sets m v i) := by
  rw [sort]
  split
  · split
    · exact .insert w certain_mem_own
    · exact .refl w
  split
  · exact .insert w possible_mem_own
  · exact .refl w

lemma kept_cleared (w : m.WellFormed) :
    Memory.Kept p sets.own m ((m.clear sets.certain).clear sets.possible) := by
  have hcertain : Memory.Kept p sets.own m (m.clear sets.certain) := .clear w certain_mem_own
  exact hcertain.trans (.clear hcertain.wellFormed possible_mem_own)

lemma kept_sorted (w : s.memory.WellFormed) :
    Memory.Kept p sets.own s.memory (c.sorted sets s).memory := by
  rw [sorted]
  exact List.foldlRecOn _ _ (kept_cleared w) fun m hm v _ =>
    hm.trans (kept_sort hm.wellFormed _ _ _)

lemma kept_moved (w : s.memory.WellFormed) (ht : c.moved? sets index s = some t) :
    Memory.Kept p sets.own s.memory t.memory := by
  have hremoved : Memory.Kept p sets.own s.memory (s.memory.remove sets.possible index) :=
    .remove w possible_mem_own
  rcases moved?_eq_some ht with ⟨-, rfl⟩ | ⟨v, -, ⟨-, rfl⟩ | ⟨-, -, rfl⟩⟩
  · exact .refl w
  · exact hremoved
  · dsimp only
    exact hremoved.trans (.insert hremoved.wellFormed certain_mem_own)

lemma store_moved (ht : c.moved? sets index s = some t) : t.store = s.store := by
  rcases moved?_eq_some ht with ⟨-, rfl⟩ | ⟨v, -, ⟨-, rfl⟩ | ⟨-, -, rfl⟩⟩ <;> rfl

lemma ran_sorted (w : s.memory.WellFormed) : Ran J p sets.own s (c.sorted sets s) :=
  ⟨.refl, kept_sorted w⟩

lemma ran_moved (w : s.memory.WellFormed) (ht : c.moved? sets index s = some t) :
    Ran J p sets.own s t :=
  ⟨store_moved ht ▸ .refl, kept_moved w ht⟩

/-! What happens to the sets could be done by any other propagator, so that no activity changes. -/

lemma activity_sorted (w : s.memory.WellFormed) (q : PropId) :
    (c.sorted sets s).memory.activity q = s.memory.activity q :=
  (kept_sorted (p := ⟨q.index + 1⟩) w).activity q fun h =>
    Nat.succ_ne_self _ (congrArg PropId.index h).symm

lemma activity_moved (w : s.memory.WellFormed) (ht : c.moved? sets index s = some t)
    (q : PropId) : t.memory.activity q = s.memory.activity q :=
  (kept_moved (p := ⟨q.index + 1⟩) w ht).activity q fun h =>
    Nat.succ_ne_self _ (congrArg PropId.index h).symm

/-! ### Sorting all places -/

/-- The sets say of each place how its variable stands: the place is certain if the variable is
fixed to the value, and possible if it has the value among others. -/
structure Sorts (c : Count) (sets : Sets) (m : Memory) (dom : VarId → IntervalSet) : Prop where
  certain : ∀ i, (m.set sets.certain).contains i = true ↔
    ∃ v, c.vars[i]? = some v ∧ c.Fixed dom v
  possible : ∀ i, (m.set sets.possible).contains i = true ↔
    ∃ v, c.vars[i]? = some v ∧ ¬ c.Fixed dom v ∧ c.value ∈ dom v

lemma Sorts.tracks (h : c.Sorts sets m dom) : c.Tracks sets m dom := by
  refine ⟨fun i hi => ?_, fun i v hi hv => ?_, fun i v hv hx => ?_⟩
  · obtain ⟨v, hv, hfix, -⟩ := (h.possible i).1 hi
    rw [← Bool.not_eq_true, h.certain]
    rintro ⟨v', hv', hfix'⟩
    rw [hv] at hv'
    cases hv'
    exact hfix hfix'
  · obtain ⟨v', hv', hfix⟩ := (h.certain i).1 hi
    rw [hv] at hv'
    cases hv'
    exact hfix
  · by_cases hfix : c.Fixed dom v
    · exact .inr ((h.certain i).2 ⟨v, hv, hfix⟩)
    · exact .inl ((h.possible i).2 ⟨v, hv, hfix, hx⟩)

/-- Both sets are empty after they were cleared. -/
lemma not_contains_cleared (w : m.WellFormed) {j : SetId} (hj : j ∈ sets.own) (e : Nat) :
    ¬ (((m.clear sets.certain).clear sets.possible).set j).contains e = true := by
  have hkept : Memory.Kept ⟨0⟩ sets.own m (m.clear sets.certain) := .clear w certain_mem_own
  rw [Memory.contains_clear hkept.wellFormed, Memory.contains_clear w]
  rintro ⟨hpossible, hcertain, -⟩
  rcases List.mem_pair.1 hj with rfl | rfl
  · exact hpossible rfl
  · exact hcertain rfl

/-- Some place of a list holds a variable with a property. -/
lemma exists_place_cons {P : VarId → Prop} {vs : List (VarId × Nat)} {e : Nat} :
    (∃ u, (u, e) ∈ (v, i) :: vs ∧ P u) ↔ e = i ∧ P v ∨ ∃ u, (u, e) ∈ vs ∧ P u := by
  constructor
  · rintro ⟨u, hu, hp⟩
    rcases List.mem_cons.1 hu with heq | hu
    · cases heq
      exact .inl ⟨rfl, hp⟩
    · exact .inr ⟨u, hu, hp⟩
  · rintro (⟨rfl, hp⟩ | ⟨u, hu, hp⟩)
    · exact ⟨v, List.mem_cons_self, hp⟩
    · exact ⟨u, List.mem_cons_of_mem _ hu, hp⟩

section Sorting

variable {store : Store} (ws : store.WellFormed)

include ws

/-- Where a place is put. -/
lemma sort_cases (sets : Sets) (hv : store.has v = true) (m : Memory) (i : Nat) :
    c.Fixed store.domain v ∧ c.sort store sets m v i = m.insert sets.certain i ∨
      ¬ c.Fixed store.domain v ∧ c.value ∈ store.domain v ∧
        c.sort store sets m v i = m.insert sets.possible i ∨
      c.value ∉ store.domain v ∧ c.sort store sets m v i = m := by
  have hlow := ws.lower_mem hv
  rw [sort]
  split
  · rename_i hfixed
    have hall : ∀ x, x ∈ store.domain v → x = store.lower v := (ws.isFixed_iff hv).1 hfixed
    split
    · rename_i heq
      exact .inl ⟨fun x hx => (hall x hx).trans heq, rfl⟩
    · rename_i hne
      exact .inr (.inr ⟨fun hx => hne (hall _ hx).symm, rfl⟩)
  · rename_i hfixed
    split
    · rename_i hmem
      refine .inr (.inl ⟨fun hfix => hfixed ?_, ws.contains_iff.1 hmem, rfl⟩)
      exact (ws.isFixed_iff hv).2 fun x hx => (hfix x hx).trans (hfix _ hlow).symm
    · rename_i hmem
      exact .inr (.inr ⟨fun hx => hmem (ws.contains_iff.2 hx), rfl⟩)

/-- Sorting one place into the sets. -/
lemma contains_sort (hhas : store.has v = true) (hlt : i < c.vars.length) (w : m.WellFormed)
    (hown : c.Owns sets m) :
    (∀ e, ((c.sort store sets m v i).set sets.certain).contains e = true ↔
        (m.set sets.certain).contains e = true ∨ e = i ∧ c.Fixed store.domain v) ∧
      ∀ e, ((c.sort store sets m v i).set sets.possible).contains e = true ↔
        (m.set sets.possible).contains e = true ∨
          e = i ∧ ¬ c.Fixed store.domain v ∧ c.value ∈ store.domain v := by
  rcases sort_cases (c := c) ws sets hhas m i with
    ⟨hfix, h⟩ | ⟨hfix, hx, h⟩ | ⟨hx, h⟩ <;> rw [h]
  · have hcap : i < (m.set sets.certain).capacity := by rw [hown.certain]; exact hlt
    refine ⟨fun e => ?_, fun e => ?_⟩
    · rw [Memory.contains_insert w hcap]
      simp only [true_and, hfix, and_true]
      exact or_comm
    · rw [Memory.contains_insert w hcap]
      simp [hown.ne, hfix]
  · have hcap : i < (m.set sets.possible).capacity := by rw [hown.possible]; exact hlt
    refine ⟨fun e => ?_, fun e => ?_⟩
    · rw [Memory.contains_insert w hcap]
      simp [hown.ne.symm, hfix]
    · rw [Memory.contains_insert w hcap]
      simp only [true_and, hfix, hx, not_false_eq_true, and_true]
      exact or_comm
  · have hfix : ¬ c.Fixed store.domain v := by
      intro hfix
      obtain ⟨x, hmem⟩ := ws.domain_nonempty hhas
      exact hx (hfix x hmem ▸ hmem)
    exact ⟨by simp [hfix], by simp [hx]⟩

/-- Sorting the places of a list into the sets, one after another. -/
lemma contains_foldl_sort (hd : ∀ v ∈ c.vars, store.has v = true) (vs : List (VarId × Nat))
    (hvs : ∀ a ∈ vs, c.vars[a.2]? = some a.1) (w : m.WellFormed) (hown : c.Owns sets m) :
    (∀ e, ((vs.foldl (fun m a => c.sort store sets m a.1 a.2) m).set sets.certain).contains e
        = true ↔ (m.set sets.certain).contains e = true ∨
          ∃ v, (v, e) ∈ vs ∧ c.Fixed store.domain v) ∧
      ∀ e, ((vs.foldl (fun m a => c.sort store sets m a.1 a.2) m).set sets.possible).contains e
        = true ↔ (m.set sets.possible).contains e = true ∨
          ∃ v, (v, e) ∈ vs ∧ ¬ c.Fixed store.domain v ∧ c.value ∈ store.domain v := by
  induction vs generalizing m with
  | nil => exact ⟨by simp, by simp⟩
  | cons a vs ih =>
    obtain ⟨v, i⟩ := a
    have hv : c.vars[i]? = some v := hvs (v, i) List.mem_cons_self
    have hlt : i < c.vars.length := (List.getElem?_eq_some_iff.1 hv).1
    have hkept : Memory.Kept ⟨0⟩ sets.own m (c.sort store sets m v i) := kept_sort w store v i
    obtain ⟨hcertain, hpossible⟩ :=
      contains_sort ws (hd v (List.mem_of_getElem? hv)) hlt w hown
    obtain ⟨ihcertain, ihpossible⟩ := ih (fun a ha => hvs a (List.mem_cons_of_mem _ ha))
      hkept.wellFormed (hown.kept hkept)
    refine ⟨fun e => ?_, fun e => ?_⟩
    · rw [List.foldl_cons, ihcertain, hcertain, or_assoc, exists_place_cons]
    · rw [List.foldl_cons, ihpossible, hpossible, or_assoc, exists_place_cons]

end Sorting

variable (w : s.WellFormed)

include w

/-- Sorting all places anew. -/
lemma sorts_sorted (hscope : ∀ v ∈ c.scope, s.store.has v = true)
    (hown : c.Owns sets s.memory) :
    c.Sorts sets (c.sorted sets s).memory s.store.domain := by
  have hkept : Memory.Kept ⟨0⟩ sets.own s.memory
      ((s.memory.clear sets.certain).clear sets.possible) := kept_cleared w.memory
  obtain ⟨hcertain, hpossible⟩ := contains_foldl_sort w.store
    (fun v hv => hscope v (mem_scope_of_mem hv)) c.vars.zipIdx
    (fun a ha => List.mk_mem_zipIdx_iff_getElem?.1 ha) hkept.wellFormed (hown.kept hkept)
  refine ⟨fun i => ?_, fun i => ?_⟩
  · rw [sorted, hcertain, or_iff_right (not_contains_cleared w.memory certain_mem_own i)]
    simp only [List.mk_mem_zipIdx_iff_getElem?]
  · rw [sorted, hpossible, or_iff_right (not_contains_cleared w.memory possible_mem_own i)]
    simp only [List.mk_mem_zipIdx_iff_getElem?]

/-! ### One place -/

/-- The place that a call is about is brought up to date. -/
lemma Tracks.of_moved (h : c.Tracks sets s.memory s.store.domain) (hown : c.Owns sets s.memory)
    (ht : c.moved? sets index s = some t) : c.Tracks sets t.memory t.store.domain := by
  rw [store_moved ht]
  rcases moved?_eq_some ht with ⟨-, rfl⟩ | ⟨v, hv, ⟨hlost, rfl⟩ | ⟨hkeep, hfixed, rfl⟩⟩
  · exact h
  · dsimp only
    refine h.removed w.memory hv fun hmem => ?_
    rw [w.store.contains_iff.2 hmem] at hlost
    cases hlost
  · dsimp only
    exact h.moved w.memory hown hv
      ((fixed_iff_isFixed w.store (w.store.contains_iff.1 hkeep)).2 hfixed)

/-- The place that a call is about is not possible any more, and no place becomes so. -/
lemma possible_of_moved (hown : c.Owns sets s.memory) (ht : c.moved? sets index s = some t)
    (hv : c.vars[i]? = some v) (hi : (t.memory.set sets.possible).contains i = true) :
    i ≠ index ∧ (s.memory.set sets.possible).contains i = true := by
  rcases moved?_eq_some ht with ⟨hnone, rfl⟩ | ⟨u, hu, ⟨-, rfl⟩ | ⟨-, -, rfl⟩⟩
  · refine ⟨?_, hi⟩
    rintro rfl
    rw [hnone] at hv
    cases hv
  · rw [Memory.contains_remove w.memory] at hi
    exact ⟨fun e => hi.1 ⟨rfl, e⟩, hi.2⟩
  · rw [contains_moved w.memory hown (List.getElem?_eq_some_iff.1 hu).1] at hi
    rcases hi with ⟨heq, -⟩ | ⟨hne, hi⟩
    · exact absurd heq hown.ne
    · exact ⟨fun e => hne ⟨rfl, e⟩, hi⟩

/-! ### The calls -/

variable (hscope : ∀ v ∈ c.scope, s.store.has v = true) (hown : c.Owns sets s.memory)

include hscope hown

/-- A propagation from scratch brings the sets up to date. -/
lemma forces_propagate :
    Yields c.Forced p sets.own s (c.propagate p sets) fun _ t =>
      c.Tracks sets t.memory t.store.domain := by
  have hran : Ran c.Forced p sets.own s (c.sorted sets s) := ran_sorted w.memory
  exact .of_eq propagate_eq hran (yields_filter (hran.wellFormed w) hscope
    (hown.kept hran.memory) (sorts_sorted w hscope hown).tracks)

/-- A call for one place keeps the sets up to date. -/
lemma forces_react (h : c.Tracks sets s.memory s.store.domain) (index : Nat) :
    Yields c.Forced p sets.own s (c.react p sets index) fun _ t =>
      c.Tracks sets t.memory t.store.domain := by
  cases ht : c.moved? sets index s with
  | none => exact .of_eq (react_eq_of_none ht) (.refl w) (yields_pure w h)
  | some t =>
    have hran : Ran c.Forced p sets.own s t := ran_moved w.memory ht
    obtain ⟨wt, htscope, -⟩ := mem_of_ran w hscope hran
    exact .of_eq (react_eq_of_some ht) hran
      (yields_filter wt htscope (hown.kept hran.memory) (h.of_moved w hown ht))

/-- The grounds of a propagation from scratch are those of the constraint. -/
lemma yields_propagate :
    Yields c.Justified p sets.own s (c.propagate p sets) fun _ t =>
      c.Tracks sets t.memory t.store.domain :=
  (forces_propagate w hscope hown).weaken fun _ _ _ => Forced.justified

lemma yields_react (h : c.Tracks sets s.memory s.store.domain) (index : Nat) :
    Yields c.Justified p sets.own s (c.react p sets index) fun _ t =>
      c.Tracks sets t.memory t.store.domain :=
  (forces_react w hscope hown h index).weaken fun _ _ _ => Forced.justified

end Count

end FiniteDomain
