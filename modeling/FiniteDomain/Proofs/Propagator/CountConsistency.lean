import Mathlib.Tactic
import FiniteDomain.Proofs.Propagator.Rest
import FiniteDomain.Proofs.Store.Kept

/-!
What counting leaves to each variable.

If the variables are on different roots, a call from scratch fails when no choice of values
of the domains has the right count, and otherwise leaves each variable exactly the values that
occur in such a choice.

* `Count.Solution`: a choice of values of the domains with the right count;
* `Count.exists_values`: every count between the number of variables that are fixed to the
  value and the number of those that may take it is reached;
* `Count.spares_solution`: no request with grounds takes a value of a solution away;
* `Count.exists_solution_of_decided`, `Count.exists_solution_taking`,
  `Count.exists_solution_leaving`: solutions in which a variable has a value that is left, with
  `Count.Rests.exists_solution`: at rest, there is one for each;
* `Count.propagate_domain_consistent`: the two together.
-/

namespace FiniteDomain

/-! ### Choices of values -/

section Tally

variable {vs : List VarId} {P : VarId → Prop} {v : VarId}

open Classical in
lemma tally_cons : tally (v :: vs) P = tally vs P + if P v then 1 else 0 := by
  simp only [tally, List.countP_cons, decide_eq_true_eq]

lemma tally_congr {Q : VarId → Prop} (h : ∀ u ∈ vs, P u ↔ Q u) : tally vs P = tally vs Q :=
  (tally_mono fun u hu => (h u hu).1).antisymm (tally_mono fun u hu => (h u hu).2)

/-- The value of a variable that is not counted does not matter. -/
lemma tally_update {values : VarId → Int} {x k : Int} (hv : v ∉ vs) :
    tally vs (fun u => Function.update values v x u = k) = tally vs fun u => values u = k := by
  refine tally_congr fun u hu => ?_
  rw [Function.update_of_ne]
  rintro rfl
  exact hv hu

end Tally

namespace Count

variable {c : Count} {sets : Sets} {m : Memory} {dom : VarId → IntervalSet} {v : VarId} {x : Int}
  {values : VarId → Int}

/-- A choice of values of the domains that has as many occurrences of the counted value as the
cardinality says. -/
structure Solution (c : Count) (dom : VarId → IntervalSet) (values : VarId → Int) : Prop where
  mem : ∀ v ∈ c.scope, values v ∈ dom v
  holds : c.Holds values

/-- One more variable takes a value of its domain. -/
lemma exists_values_cons {vs : List VarId} {n : Nat} (hv : v ∉ vs) (hx : x ∈ dom v)
    (h : ∃ values : VarId → Int, (∀ u ∈ vs, values u ∈ dom u) ∧
      tally vs (fun u => values u = c.value) + (if x = c.value then 1 else 0) = n) :
    ∃ values : VarId → Int, (∀ u ∈ v :: vs, values u ∈ dom u) ∧
      tally (v :: vs) (fun u => values u = c.value) = n := by
  obtain ⟨values, hmem, hcount⟩ := h
  refine ⟨Function.update values v x, fun u hu => ?_, ?_⟩
  · by_cases huv : u = v
    · rwa [huv, Function.update_self]
    · rw [Function.update_of_ne huv]
      exact hmem u ((List.mem_cons.1 hu).resolve_left huv)
  · rw [tally_cons, tally_update hv, Function.update_self, ← hcount]
    congr

/-- Every count between the number of variables that are fixed to the value and the number of
those that may take it is reached by a choice of values. -/
lemma exists_values {vs : List VarId} {n : Nat} (hnodup : vs.Nodup)
    (hne : ∀ v ∈ vs, ∃ x, x ∈ dom v) (hlo : tally vs (c.Fixed dom) ≤ n)
    (hhi : n ≤ tally vs fun u => c.value ∈ dom u) :
    ∃ values : VarId → Int, (∀ v ∈ vs, values v ∈ dom v) ∧
      tally vs (fun u => values u = c.value) = n := by
  induction vs generalizing n with
  | nil => exact ⟨fun _ => 0, nofun, (Nat.le_zero.1 hhi).symm⟩
  | cons v vs ih =>
    obtain ⟨hv, hnodup⟩ := List.nodup_cons.1 hnodup
    obtain ⟨y, hy⟩ := hne v List.mem_cons_self
    have hne := fun u hu => hne u (List.mem_cons_of_mem _ hu)
    have hmay : tally vs (c.Fixed dom) ≤ tally vs fun u => c.value ∈ dom u := by
      refine tally_mono fun u hu hfix => ?_
      obtain ⟨z, hz⟩ := hne u hu
      exact hfix z hz ▸ hz
    rw [tally_cons] at hlo hhi
    -- a value for the first variable, and a choice for the others
    have hcons : ∀ (z : Int) (k : Nat), z ∈ dom v → tally vs (c.Fixed dom) ≤ k →
        (k ≤ tally vs fun u => c.value ∈ dom u) → (k + if z = c.value then 1 else 0) = n →
        ∃ values : VarId → Int, (∀ u ∈ v :: vs, values u ∈ dom u) ∧
          tally (v :: vs) (fun u => values u = c.value) = n := by
      intro z k hz hlo hhi hk
      obtain ⟨values, hmem, hcount⟩ := ih hnodup hne hlo hhi
      exact exists_values_cons hv hz ⟨values, hmem, hcount.symm ▸ hk⟩
    by_cases hin : c.value ∈ dom v
    · rw [if_pos hin] at hhi
      by_cases htake : tally vs (c.Fixed dom) + 1 ≤ n
      · exact hcons c.value (n - 1) hin (by omega) (by omega) (by rw [if_pos rfl]; omega)
      · have hopen : ¬ c.Fixed dom v := by
          intro hfix
          rw [if_pos hfix] at hlo
          exact htake hlo
        rw [if_neg hopen] at hlo
        obtain ⟨z, hz, hne⟩ : ∃ z, z ∈ dom v ∧ z ≠ c.value := by
          by_contra hall
          exact hopen fun z hz => by_contra fun hne => hall ⟨z, hz, hne⟩
        exact hcons z n hz hlo (by omega) (by rw [if_neg hne, Nat.add_zero])
    · have hopen : ¬ c.Fixed dom v := fun hfix => hin (hfix y hy ▸ hy)
      rw [if_neg hopen] at hlo
      rw [if_neg hin] at hhi
      have hne : y ≠ c.value := fun heq => hin (heq ▸ hy)
      exact hcons y n hy hlo hhi (by rw [if_neg hne, Nat.add_zero])

/-! ### Each value that is left -/

section Supported

variable (hnodup : c.scope.Nodup) (hne : ∀ u ∈ c.scope, ∃ y, y ∈ dom u)

include hnodup hne in
/-- A value of the cardinality between the two numbers occurs in a solution. -/
lemma exists_solution_of_card {y : Int} (hy : y ∈ dom c.card)
    (hlo : (tally c.vars (c.Fixed dom) : Int) ≤ y)
    (hhi : y ≤ tally c.vars fun u => c.value ∈ dom u) :
    ∃ values, c.Solution dom values ∧ values c.card = y := by
  have hcard : c.card ∉ c.vars := fun hmem =>
    List.disjoint_of_nodup_append hnodup hmem (List.mem_singleton_self _)
  obtain ⟨values, hmem, hcount⟩ :=
    exists_values (c := c) (n := y.toNat) (List.Nodup.of_append_left hnodup)
      (fun u hu => hne u (mem_scope_of_mem hu)) (by omega) (by omega)
  refine ⟨Function.update values c.card y, ⟨fun u hu => ?_, ?_⟩, Function.update_self ..⟩
  · by_cases hucard : u = c.card
    · rwa [hucard, Function.update_self]
    · rw [Function.update_of_ne hucard]
      rcases List.mem_append.1 hu with hu | hu
      · exact hmem u hu
      · exact absurd (List.mem_singleton.1 hu) hucard
  · rw [holds_iff, tally_update hcard, hcount, Function.update_self]
    omega

include hnodup hne in
/-- A value of a counted variable occurs in a solution if the cardinality has a value between
the two numbers that there are when the variable is fixed. -/
lemma exists_solution_of_var (hv : v ∈ c.vars) (hx : x ∈ dom v) {y : Int} (hy : y ∈ dom c.card)
    (hlo : (tally c.vars (fun u => if u = v then x = c.value else c.Fixed dom u) : Int) ≤ y)
    (hhi : y ≤ tally c.vars fun u => if u = v then x = c.value else c.value ∈ dom u) :
    ∃ values, c.Solution dom values ∧ values v = x := by
  have hcard : c.card ≠ v := by
    rintro rfl
    exact List.disjoint_of_nodup_append hnodup hv (List.mem_singleton_self _)
  -- the domains with the variable fixed
  have hmem : ∀ u z, z ∈ Function.update dom v (.single x) u ↔
      if u = v then z = x else z ∈ dom u := by
    intro u z
    by_cases huv : u = v
    · rw [huv, Function.update_self, IntervalSet.mem_single, if_pos rfl]
    · rw [Function.update_of_ne huv, if_neg huv]
  have hnonempty : ∀ u ∈ c.scope, ∃ z, z ∈ Function.update dom v (.single x) u := by
    intro u hu
    obtain ⟨z, hz⟩ := hne u hu
    by_cases huv : u = v
    · exact ⟨x, (hmem u x).2 (by rw [if_pos huv])⟩
    · exact ⟨z, (hmem u z).2 (by rwa [if_neg huv])⟩
  have hfixed : tally c.vars (c.Fixed (Function.update dom v (.single x)))
      ≤ tally c.vars fun u => if u = v then x = c.value else c.Fixed dom u := by
    refine tally_mono fun u _ hfix => ?_
    split
    · exact hfix x ((hmem u x).2 (by rw [if_pos ‹_›]))
    · exact fun z hz => hfix z ((hmem u z).2 (by rwa [if_neg ‹_›]))
  have hmay : tally c.vars (fun u => if u = v then x = c.value else c.value ∈ dom u)
      ≤ tally c.vars fun u => c.value ∈ Function.update dom v (.single x) u := by
    refine tally_mono fun u _ hmay => (hmem u _).2 ?_
    split at hmay
    · rw [if_pos ‹_›, hmay]
    · rwa [if_neg ‹_›]
  obtain ⟨values, hsol, -⟩ := exists_solution_of_card hnodup hnonempty
    ((hmem c.card y).2 (by rwa [if_neg hcard])) (le_trans (Int.ofNat_le.2 hfixed) hlo)
    (le_trans hhi (Int.ofNat_le.2 hmay))
  have hin := fun u hu => (hmem u _).1 (hsol.mem u hu)
  refine ⟨values, ⟨fun u hu => ?_, hsol.holds⟩, ?_⟩
  · have hu := hin u hu
    split at hu
    · rename_i huv
      rwa [hu, huv]
    · exact hu
  · have hv := hin v (mem_scope_of_mem hv)
    rwa [if_pos rfl] at hv

include hnodup hne in
/-- A variable that is decided leaves both numbers as they are. -/
lemma exists_solution_of_decided (hv : v ∈ c.vars) (hx : x ∈ dom v)
    (hdecided : c.value ∈ dom v → c.Fixed dom v) {y : Int} (hy : y ∈ dom c.card)
    (hlo : (tally c.vars (c.Fixed dom) : Int) ≤ y)
    (hhi : y ≤ tally c.vars fun u => c.value ∈ dom u) :
    ∃ values, c.Solution dom values ∧ values v = x := by
  have hfixed : x = c.value → c.Fixed dom v := by
    rintro rfl
    exact hdecided hx
  refine exists_solution_of_var hnodup hne hv hx hy
    (le_trans (Int.ofNat_le.2 (tally_mono fun u _ hu => ?_)) hlo)
    (le_trans hhi (Int.ofNat_le.2 (tally_mono fun u _ hu => ?_)))
  · split at hu
    · rename_i huv
      exact huv ▸ hfixed hu
    · exact hu
  · split
    · rename_i huv
      exact hdecided (huv ▸ hu) x hx
    · exact hu

include hnodup hne in
/-- A variable may take the counted value if the cardinality can be above the number of those that
are fixed to it. -/
lemma exists_solution_taking (hv : v ∈ c.vars) (hx : c.value ∈ dom v) {y : Int}
    (hy : y ∈ dom c.card) (hlt : (tally c.vars (c.Fixed dom) : Int) < y)
    (hhi : y ≤ tally c.vars fun u => c.value ∈ dom u) :
    ∃ values, c.Solution dom values ∧ values v = c.value := by
  have hfew := tally_or_le (P := c.Fixed dom) (List.Nodup.of_append_left hnodup) v
  refine exists_solution_of_var hnodup hne hv hx hy
    (le_trans (Int.ofNat_le.2 (tally_mono fun u _ hu => ?_)) (le_trans (Int.ofNat_le.2 hfew) hlt))
    (le_trans hhi (Int.ofNat_le.2 (tally_mono fun u _ hu => ?_)))
  · split at hu
    · exact .inr ‹_›
    · exact .inl hu
  · split
    · rfl
    · exact hu

include hnodup hne in
/-- A variable may take another value if the cardinality can be below the number of those that may
take the counted one. -/
lemma exists_solution_leaving (hv : v ∈ c.vars) (hx : x ∈ dom v) (hvalue : x ≠ c.value) {y : Int}
    (hy : y ∈ dom c.card) (hlo : (tally c.vars (c.Fixed dom) : Int) ≤ y)
    (hlt : y < tally c.vars fun u => c.value ∈ dom u) :
    ∃ values, c.Solution dom values ∧ values v = x := by
  have hmany :=
    tally_le_add_one (P := fun u => c.value ∈ dom u) (List.Nodup.of_append_left hnodup) v
  have hle : tally c.vars (fun u => c.value ∈ dom u ∧ u ≠ v)
      ≤ tally c.vars fun u => if u = v then x = c.value else c.value ∈ dom u :=
    tally_mono fun u _ hu => by rw [if_neg hu.2]; exact hu.1
  refine exists_solution_of_var hnodup hne hv hx hy
    (le_trans (Int.ofNat_le.2 (tally_mono fun u _ hu => ?_)) hlo) (by omega)
  split at hu
  · exact absurd hu hvalue
  · exact hu

include hnodup hne in
/-- At rest, each value that is left occurs in a solution: a variable that is open can be
decided either way, since a cardinality that is fixed lies strictly between the two numbers. -/
lemma Rests.exists_solution {waits : Nat → Prop} (h : c.Rests sets m dom waits)
    (hwaits : ∀ i, ¬ waits i) (ht : c.Tracks sets m dom) (w : m.WellFormed)
    (hown : c.Owns sets m) (hv : v ∈ c.scope) (hx : x ∈ dom v) :
    ∃ values, c.Solution dom values ∧ values v = x := by
  obtain ⟨hfixed, hmay⟩ :=
    h.sizes hwaits ht w hown fun u hu => hne u (mem_scope_of_mem hu)
  obtain ⟨hlower, hupper, hundecided⟩ := h.balanced (hwaits _)
  simp only [← Nat.cast_add, hmay] at hupper hundecided
  simp only [hfixed] at hlower hundecided
  rcases List.mem_append.1 hv with hv | hv
  swap
  · rcases List.mem_singleton.1 hv with rfl
    exact exists_solution_of_card hnodup hne hx (hlower x hx) (hupper x hx)
  by_cases hdecided : c.value ∈ dom v → c.Fixed dom v
  · obtain ⟨y, hy⟩ := hne c.card card_mem_scope
    exact exists_solution_of_decided hnodup hne hv hx hdecided hy (hlower y hy) (hupper y hy)
  obtain ⟨hin, hopen⟩ := Classical.not_imp.1 hdecided
  have hpossible : (m.set sets.possible).size ≠ 0 := by
    obtain ⟨i, hi⟩ := List.mem_iff_getElem?.1 hv
    intro hzero
    rcases ht.covers i v hi hin with hp | hc
    · rw [(SparseSet.size_eq_zero_iff (w.set sets.possible)).1 hzero i] at hp
      cases hp
    · exact hopen (ht.certain i v hc hi)
  have hbetween : ∀ n : Int, (∀ z, z ∈ dom c.card → z = n) →
      (tally c.vars (c.Fixed dom) : Int) < n ∧ n < tally c.vars fun u => c.value ∈ dom u :=
    fun n hn => (hundecided n hn).resolve_left hpossible
  by_cases hvalue : x = c.value
  · obtain ⟨z, hz, hlt⟩ : ∃ z, z ∈ dom c.card ∧ (tally c.vars (c.Fixed dom) : Int) < z := by
      by_contra hnone
      have hall : ∀ z, z ∈ dom c.card → z = (tally c.vars (c.Fixed dom) : Int) := fun z hz =>
        (not_lt.1 fun hlt => hnone ⟨z, hz, hlt⟩).antisymm (hlower z hz)
      exact lt_irrefl _ (hbetween _ hall).1
    rw [hvalue]
    exact exists_solution_taking hnodup hne hv hin hz hlt (hupper z hz)
  · obtain ⟨z, hz, hlt⟩ : ∃ z, z ∈ dom c.card ∧ z < tally c.vars fun u => c.value ∈ dom u := by
      by_contra hnone
      have hall : ∀ z, z ∈ dom c.card → z = (tally c.vars fun u => c.value ∈ dom u : Int) :=
        fun z hz => (hupper z hz).antisymm (not_lt.1 fun hlt => hnone ⟨z, hz, hlt⟩)
      exact lt_irrefl _ (hbetween _ hall).2
    exact exists_solution_leaving hnodup hne hv hx hvalue hz (hlower z hz) hlt

end Supported

/-! ### Each value that is taken away -/

/-- No request with grounds takes a value of a solution away. -/
lemma spares_solution : Grounds.Spares c.Justified c.scope c.Solution where
  mem h := h.mem
  moved h hmem := ⟨hmem, h.holds⟩
  holds h hJ := ⟨hJ.mem_scope, hJ.holds h.mem h.holds⟩

/-- Let the variables and the cardinality be on different roots.  A call from scratch fails
exactly if no choice of values of the domains has the right count, and otherwise leaves each
variable exactly the values that it has in such a choice. -/
theorem propagate_domain_consistent {s : Space} {p : PropId} (w : s.WellFormed)
    (hscope : ∀ v ∈ c.scope, s.store.has v = true) (hroots : (c.scope.map s.store.root).Nodup)
    (hown : c.Owns sets s.memory) :
    Ends (c.propagate p sets) s
      (fun _ t => (∃ values, c.Solution s.store.domain values) ∧
        ∀ v ∈ c.scope, ∀ x, x ∈ t.store.domain v ↔
          ∃ values, c.Solution s.store.domain values ∧ values v = x)
      fun stop _ => (∃ i, stop = .inconsistent i) ∧
        ¬ ∃ values, c.Solution s.store.domain values := by
  have hindep : (Propagator.count c sets).Independent s.store := hroots
  have hnodup : c.scope.Nodup := hindep.nodup
  have hsettles : Filter.Settles p sets.own s (c.propagate p sets) fun _ t =>
      t.memory.activity p = s.memory.activity p ∧
        (c.Apart s.store → c.Rests sets t.memory t.store.domain fun _ => False) :=
    settles_propagate w hscope hown
  refine ((yields_propagate (p := p) w hscope hown).and hsettles).mono ?_ ?_
  · rintro _ t ⟨⟨hran, ht⟩, -, -, hrests⟩
    obtain ⟨wt, hscope', -⟩ := Filter.mem_of_ran w hscope hran
    have hne : ∀ v ∈ c.scope, ∃ x, x ∈ t.store.domain v := fun v hv =>
      wt.store.domain_nonempty (hscope' v hv)
    exact hran.store.mem_iff_exists spares_solution w.store hroots card_mem_scope
      (hscope _ card_mem_scope) fun v hv x hx => (hrests hindep.apart).exists_solution hnodup hne
        (fun _ => id) ht wt.memory (hown.kept hran.memory) hv hx
  · rintro stop t ⟨hstopped, i, rfl⟩
    exact ⟨⟨i, rfl⟩, hstopped.1.not_exists spares_solution w.store hroots⟩

/-- A variable, another one with a view on it, a constant, and a variable with holes. -/
def mixedSpace : Space where
  store :=
    let s := (Store.addRoot {} (.ofRange 0 1)).2
    let s := (s.addRoot (.ofRange 0 3)).2
    let s := (s.addView ⟨.atMost 1, ⟨1⟩⟩).2
    let s := (s.addRoot (.single 1)).2
    (s.addRoot (.ofList [1, 3, 7])).2
  memory := ((({} : Memory).addSet 3).2.addSet 3).2

/-- The ones among the first variable, the view and the constant are as many as the variable
with holes says. -/
theorem propagate_domain_consistent_mixed :
    Ends (propagate ⟨[⟨0⟩, ⟨2⟩, ⟨3⟩], 1, ⟨4⟩⟩ ⟨0⟩ ⟨⟨0⟩, ⟨1⟩⟩) mixedSpace
      (fun _ t =>
        (∃ values, Solution ⟨[⟨0⟩, ⟨2⟩, ⟨3⟩], 1, ⟨4⟩⟩ mixedSpace.store.domain values) ∧
        ∀ v ∈ scope ⟨[⟨0⟩, ⟨2⟩, ⟨3⟩], 1, ⟨4⟩⟩, ∀ x, x ∈ t.store.domain v ↔
          ∃ values, Solution ⟨[⟨0⟩, ⟨2⟩, ⟨3⟩], 1, ⟨4⟩⟩ mixedSpace.store.domain values ∧
            values v = x)
      fun stop _ => (∃ i, stop = .inconsistent i) ∧
        ¬ ∃ values, Solution ⟨[⟨0⟩, ⟨2⟩, ⟨3⟩], 1, ⟨4⟩⟩ mixedSpace.store.domain values := by
  have hrange : ∀ {d : IntervalSet}, (∀ x ∈ d.toList, Value.InRange x) → d.InRange :=
    fun h x hx => h x (IntervalSet.mem_toList.2 hx)
  have hroots := (Store.wellFormed_empty.addRoot (d := .ofRange 0 1) ⟨0, by decide⟩
    (hrange (by decide))).addRoot (d := .ofRange 0 3) ⟨0, by decide⟩ (hrange (by decide))
  have hview := @Store.WellFormed.addView _ hroots ⟨.atMost 1, ⟨1⟩⟩ (by decide) nofun
  have hstore := (hview.addRoot (d := .single 1) ⟨1, by decide⟩ (hrange (by decide))).addRoot
    (d := .ofList [1, 3, 7]) ⟨1, by decide⟩ (hrange (by decide))
  have hmemory := (Memory.wellFormed_empty.addSet 3).addSet 3
  exact propagate_domain_consistent (s := mixedSpace) ⟨hstore, hmemory⟩ (by decide) (by decide)
    ⟨by decide, by decide, by decide⟩

end Count

end FiniteDomain
