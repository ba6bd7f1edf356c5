import Mathlib.Tactic
import FiniteDomain.Proofs.Filter
import FiniteDomain.Proofs.Propagator.Count

/-!
The bookkeeping of counting.

The propagator remembers which places of its list are fixed to the value and which
are open.  The remembered sets may lag behind the domains, but never so far that a
variable with the value is forgotten.

* `Count.Tracks`: what the sets say about the domains, with
  `Count.Tracks.size_certain_le` and `Count.Tracks.tally_le`, which compare their
  sizes with the numbers that justify requests;
* `Count.Forced`: the grounds on which the propagator acts, with `Count.Forced.mono` and
  `Count.Forced.justified`: they are not lost, and are grounds of the constraint;
* `Count.yields_takeAll`, `Count.yields_takeNone`: the decisions on open variables;
* `Count.yields_filter`: the bounds of the cardinality and these decisions.
-/

namespace FiniteDomain

namespace Count

/-- The sets of the propagator. -/
def Sets.own (sets : Sets) : List SetId := [sets.possible, sets.certain]

/-- The sets are different and have room for all places of the list. -/
structure Owns (c : Count) (sets : Sets) (m : Memory) : Prop where
  ne : sets.possible ≠ sets.certain
  possible : (m.set sets.possible).capacity = c.vars.length
  certain : (m.set sets.certain).capacity = c.vars.length

/-- No place is in both sets, the certain places are fixed to the value, and the other
ones that have it are possible. -/
structure Tracks (c : Count) (sets : Sets) (m : Memory) (dom : VarId → IntervalSet) : Prop where
  disjoint : ∀ i, (m.set sets.possible).contains i = true →
    (m.set sets.certain).contains i = false
  certain : ∀ i v, (m.set sets.certain).contains i = true → c.vars[i]? = some v → c.Fixed dom v
  covers : ∀ i v, c.vars[i]? = some v → c.value ∈ dom v →
    (m.set sets.possible).contains i = true ∨ (m.set sets.certain).contains i = true

variable {c : Count} {sets : Sets} {m m' : Memory} {dom dom' : VarId → IntervalSet}
  {v : VarId} {i : Nat}

lemma certain_mem_own : sets.certain ∈ sets.own :=
  List.mem_cons_of_mem _ (List.mem_singleton_self _)

lemma possible_mem_own : sets.possible ∈ sets.own := List.mem_cons_self

/-- The sets stay up to date when domains shrink. -/
lemma Tracks.mono (h : c.Tracks sets m dom)
    (hsub : ∀ u ∈ c.scope, ∀ x, x ∈ dom' u → x ∈ dom u) : c.Tracks sets m dom' := by
  have hvars : ∀ i v, c.vars[i]? = some v → ∀ x, x ∈ dom' v → x ∈ dom v :=
    fun i v hv => hsub v (mem_scope_of_mem (List.mem_of_getElem? hv))
  refine ⟨h.disjoint, fun i v hi hv => (h.certain i v hi hv).mono (hvars i v hv), ?_⟩
  exact fun i v hv hx => h.covers i v hv (hvars i v hv _ hx)

lemma Tracks.congr (h : c.Tracks sets m dom)
    (hmem : ∀ j ∈ sets.own, ∀ e, (m'.set j).contains e = (m.set j).contains e) :
    c.Tracks sets m' dom := by
  have hp := hmem sets.possible possible_mem_own
  have hc := hmem sets.certain certain_mem_own
  refine ⟨fun i hi => ?_, fun i v hi hv => ?_, fun i v hv hx => ?_⟩
  · rw [hc]
    exact h.disjoint i (hp i ▸ hi)
  · exact h.certain i v (hc i ▸ hi) hv
  · rw [hp, hc]
    exact h.covers i v hv hx

lemma Owns.kept {p : PropId} {own : List SetId} (h : c.Owns sets m)
    (hk : Memory.Kept p own m m') : c.Owns sets m' :=
  ⟨h.ne, by rw [hk.capacity]; exact h.possible, by rw [hk.capacity]; exact h.certain⟩

/-! ### The sizes of the sets -/

section Sizes

variable (h : c.Tracks sets m dom) (w : m.WellFormed) (hown : c.Owns sets m)

include w in
lemma exists_getElem? {j : SetId} (hcap : (m.set j).capacity = c.vars.length)
    (hi : (m.set j).contains i = true) : ∃ v, c.vars[i]? = some v := by
  have hlt := SparseSet.lt_capacity_of_contains (w.set j) hi
  rw [hcap] at hlt
  exact ⟨_, List.getElem?_eq_getElem hlt⟩

include h w hown in
/-- At least as many variables are fixed as there are certain places. -/
lemma Tracks.size_certain_le : (m.set sets.certain).size ≤ tally c.vars (c.Fixed dom) := by
  rw [← SparseSet.length_elements (w.set _)]
  refine length_le_tally (w.set _).nodup_elements fun i hi => ?_
  rw [SparseSet.mem_elements (w.set _)] at hi
  obtain ⟨v, hv⟩ := exists_getElem? w hown.certain hi
  exact ⟨v, hv, h.certain i v hi hv⟩

include h w in
/-- At most as many variables have the value as there are places in both sets. -/
lemma Tracks.tally_le : tally c.vars (fun u => c.value ∈ dom u)
    ≤ (m.set sets.certain).size + (m.set sets.possible).size := by
  rw [← SparseSet.length_elements (w.set sets.certain),
    ← SparseSet.length_elements (w.set sets.possible), ← List.length_append]
  refine tally_le_length fun i v hv hx => ?_
  rw [List.mem_append, SparseSet.mem_elements (w.set _), SparseSet.mem_elements (w.set _)]
  exact (h.covers i v hv hx).symm

include h w in
/-- Without a possible place there is one less. -/
lemma Tracks.tally_lt (hi : (m.set sets.possible).contains i = true)
    (hv : c.vars[i]? = some v) : tally c.vars (fun u => c.value ∈ dom u ∧ u ≠ v)
      < (m.set sets.certain).size + (m.set sets.possible).size := by
  have hmem := (SparseSet.mem_elements (w.set sets.possible)).2 hi
  have hlen : (((m.set sets.possible).elements.erase i).length + 1)
      = (m.set sets.possible).elements.length := by
    rw [List.length_erase_of_mem hmem]
    have := List.length_pos_of_mem hmem
    omega
  rw [← SparseSet.length_elements (w.set sets.certain),
    ← SparseSet.length_elements (w.set sets.possible), ← hlen, ← Nat.add_assoc,
    ← List.length_append]
  refine Nat.lt_succ_of_le (tally_le_length fun j u hu hx => ?_)
  have hne : j ≠ i := by
    rintro rfl
    rw [hv] at hu
    cases hu
    exact hx.2 rfl
  rw [List.mem_append, SparseSet.mem_elements (w.set _), List.mem_erase_of_ne hne,
    SparseSet.mem_elements (w.set _)]
  exact (h.covers j u hu hx.1).symm

include h w hown in
/-- With the variable of a possible place there is one more that is fixed. -/
lemma Tracks.size_certain_lt (hi : (m.set sets.possible).contains i = true)
    (hv : c.vars[i]? = some v) :
    (m.set sets.certain).size < tally c.vars fun u => c.Fixed dom u ∨ u = v := by
  rw [← SparseSet.length_elements (w.set _)]
  have hnot : i ∉ (m.set sets.certain).elements := by
    rw [SparseSet.mem_elements (w.set _), h.disjoint i hi]
    exact Bool.false_ne_true
  have hle : (i :: (m.set sets.certain).elements).length
      ≤ tally c.vars fun u => c.Fixed dom u ∨ u = v := by
    refine length_le_tally (List.nodup_cons.2 ⟨hnot, (w.set _).nodup_elements⟩) fun j hj => ?_
    rcases List.mem_cons.1 hj with rfl | hj
    · exact ⟨v, hv, .inr rfl⟩
    · rw [SparseSet.mem_elements (w.set _)] at hj
      obtain ⟨u, hu⟩ := exists_getElem? w hown.certain hj
      exact ⟨u, hu, .inl (h.certain j u hj hu)⟩
  exact hle

end Sizes

/-- When every variable with the value is at a certain place, no place is open. -/
lemma Tracks.of_certain (w : m.WellFormed) (ne : sets.possible ≠ sets.certain)
    (hcertain : ∀ i v, (m.set sets.certain).contains i = true → c.vars[i]? = some v →
      c.Fixed dom v)
    (hcovers : ∀ i v, c.vars[i]? = some v → c.value ∈ dom v →
      (m.set sets.certain).contains i = true) :
    c.Tracks sets (m.clear sets.possible) dom := by
  have hpossible : ∀ i, ((m.clear sets.possible).set sets.possible).contains i ≠ true :=
    fun i hi => ((Memory.contains_clear w).1 hi).1 rfl
  refine ⟨fun i hi => absurd hi (hpossible i), fun i v hi hv => ?_, fun i v hv hx => .inr ?_⟩
  · exact hcertain i v ((Memory.contains_clear w).1 hi).2 hv
  · exact (Memory.contains_clear w).2 ⟨ne.symm, hcovers i v hv hx⟩

/-- A place moves from the possible set to the certain one. -/
lemma contains_moved (w : m.WellFormed) (hown : c.Owns sets m) (hi : i < c.vars.length) {j : SetId}
    {e : Nat} : (((m.remove sets.possible i).insert sets.certain i).set j).contains e = true ↔
      j = sets.certain ∧ e = i ∨
        ¬ (j = sets.possible ∧ e = i) ∧ (m.set j).contains e = true := by
  have hkept : Memory.Kept ⟨0⟩ sets.own m (m.remove sets.possible i) := .remove w possible_mem_own
  have hcap : i < ((m.remove sets.possible i).set sets.certain).capacity := by
    rwa [hkept.capacity, hown.certain]
  rw [Memory.contains_insert hkept.wellFormed hcap, Memory.contains_remove w]

/-- A place whose variable lost the value is not possible any more. -/
lemma Tracks.removed (h : c.Tracks sets m dom) (w : m.WellFormed) (hv : c.vars[i]? = some v)
    (hlost : c.value ∉ dom v) : c.Tracks sets (m.remove sets.possible i) dom := by
  refine ⟨fun j hj => ?_, fun j u hj hu => ?_, fun j u hu hx => ?_⟩
  · have hcertain := h.disjoint j ((Memory.contains_remove w).1 hj).2
    rw [← Bool.not_eq_true, Memory.contains_remove w, hcertain]
    exact fun h => Bool.false_ne_true h.2
  · exact h.certain j u ((Memory.contains_remove w).1 hj).2 hu
  · rw [Memory.contains_remove w, Memory.contains_remove w]
    have hne : j ≠ i := by
      rintro rfl
      rw [hv] at hu
      cases hu
      exact hlost hx
    exact (h.covers j u hu hx).imp (fun hj => ⟨fun h => hne h.2, hj⟩)
      fun hj => ⟨fun h => hne h.2, hj⟩

/-- A place whose variable is fixed to the value becomes certain. -/
lemma Tracks.moved (h : c.Tracks sets m dom) (w : m.WellFormed) (hown : c.Owns sets m)
    (hv : c.vars[i]? = some v) (hfix : c.Fixed dom v) :
    c.Tracks sets ((m.remove sets.possible i).insert sets.certain i) dom := by
  have hi : i < c.vars.length := (List.getElem?_eq_some_iff.1 hv).1
  have hset := fun j e => contains_moved (j := j) (e := e) w hown hi
  refine ⟨fun j hj => ?_, fun j u hj hu => ?_, fun j u hu hx => ?_⟩
  · rcases (hset _ _).1 hj with ⟨heq, -⟩ | ⟨hne, hj⟩
    · exact absurd heq hown.ne
    · rw [← Bool.not_eq_true, hset, h.disjoint j hj]
      rintro (⟨-, rfl⟩ | ⟨-, hfalse⟩)
      · exact hne ⟨rfl, rfl⟩
      · exact Bool.false_ne_true hfalse
  · rcases (hset _ _).1 hj with ⟨-, rfl⟩ | ⟨-, hj⟩
    · rw [hv] at hu
      cases hu
      exact hfix
    · exact h.certain j u hj hu
  · rw [hset, hset]
    by_cases hidx : j = i
    · exact .inr (.inl ⟨rfl, hidx⟩)
    · exact (h.covers j u hu hx).imp (fun hj => .inr ⟨fun h => hidx h.2, hj⟩)
        fun hj => .inr ⟨fun h => hidx h.2, hj⟩

/-- A variable that has the value is fixed to it if it is fixed at all. -/
lemma fixed_iff_isFixed {store : Store} (w : store.WellFormed)
    (hmem : c.value ∈ store.domain v) :
    c.Fixed store.domain v ↔ store.isFixed v = true := by
  have hne : ∃ x, x ∈ store.domain v := ⟨_, hmem⟩
  rw [w.isFixed_eq]
  refine ⟨fun hfix => (IntervalSet.isFixed_iff hne).2 fun x hx => ?_, fun hfixed x hx => ?_⟩
  · exact (hfix x hx).trans (hfix _ (IntervalSet.lower_mem hne)).symm
  · have hall := (IntervalSet.isFixed_iff hne).1 hfixed
    exact (hall x hx).trans (hall _ hmem).symm

/-! ### The grounds of the decisions -/

/-- The grounds on which the propagator acts.  The bounds of the cardinality are the two numbers.
If it is fixed to one of them, the variables are decided that are not, and all of them if it is
beyond.  Nothing is said of the other variables, so that the list may have repetitions. -/
def Forced (c : Count) : Grounds := fun dom v op =>
  match op with
  | .atLeast k => v = c.card ∧ k ≤ tally c.vars (c.Fixed dom)
  | .atMost k => v = c.card ∧ (tally c.vars fun u => c.value ∈ dom u : Int) ≤ k
  | .equals k => k = c.value ∧ v ∈ c.vars ∧ ∃ n, (∀ x, x ∈ dom c.card → x = n) ∧
      ((tally c.vars fun u => c.value ∈ dom u : Int) < n ∨
        c.value ∈ dom v ∧ (tally c.vars fun u => c.value ∈ dom u : Int) ≤ n)
  | .differs k => k = c.value ∧ v ∈ c.vars ∧ ∃ n, (∀ x, x ∈ dom c.card → x = n) ∧
      (n < (tally c.vars (c.Fixed dom) : Int) ∨
        ¬ c.Fixed dom v ∧ n ≤ (tally c.vars (c.Fixed dom) : Int))

/-- These grounds are not lost when domains shrink: a variable that is decided meanwhile makes
the number cross the cardinality. -/
lemma Forced.mono {op : Operation} (hsub : ∀ u ∈ c.scope, ∀ x, x ∈ dom' u → x ∈ dom u)
    (h : c.Forced dom v op) : c.Forced dom' v op := by
  have hmay : ∀ u ∈ c.vars, c.value ∈ dom' u → c.value ∈ dom u :=
    fun u hu => hsub u (mem_scope_of_mem hu) _
  have hmust : ∀ u ∈ c.vars, c.Fixed dom u → c.Fixed dom' u :=
    fun u hu => Fixed.mono (hsub u (mem_scope_of_mem hu))
  have hfewer := tally_mono hmay
  have hmore := tally_mono hmust
  cases op with
  | atLeast k => exact ⟨h.1, h.2.trans (by exact_mod_cast hmore)⟩
  | atMost k => exact ⟨h.1, le_trans (by exact_mod_cast hfewer) h.2⟩
  | equals k =>
    obtain ⟨hk, hv, n, hn, hfew⟩ := h
    refine ⟨hk, hv, n, fun x hx => hn x (hsub _ card_mem_scope x hx), ?_⟩
    rcases hfew with hlt | ⟨hin, hle⟩
    · exact .inl (by omega)
    · by_cases hin' : c.value ∈ dom' v
      · exact .inr ⟨hin', by omega⟩
      · have hlt := tally_lt hmay hv hin' hin
        exact .inl (by omega)
  | differs k =>
    obtain ⟨hk, hv, n, hn, hmany⟩ := h
    refine ⟨hk, hv, n, fun x hx => hn x (hsub _ card_mem_scope x hx), ?_⟩
    rcases hmany with hlt | ⟨hopen, hle⟩
    · exact .inl (by omega)
    · by_cases hfix : c.Fixed dom' v
      · have hlt := tally_lt hmust hv hopen hfix
        exact .inl (by omega)
      · exact .inr ⟨hfix, by omega⟩

/-- They are grounds for the constraint to ask for the same. -/
lemma Forced.justified {op : Operation} (h : c.Forced dom v op) : c.Justified dom v op := by
  cases op with
  | atLeast k => exact h
  | atMost k => exact h
  | equals k =>
    obtain ⟨hk, hv, n, hn, hfew⟩ := h
    refine ⟨hk, hv, n, hn, ?_⟩
    rcases hfew with hlt | ⟨hin, hle⟩
    · have hothers : tally c.vars (fun u => c.value ∈ dom u ∧ u ≠ v)
          ≤ tally c.vars fun u => c.value ∈ dom u := tally_mono fun _ _ h => h.1
      omega
    · have hothers : tally c.vars (fun u => c.value ∈ dom u ∧ u ≠ v)
          < tally c.vars fun u => c.value ∈ dom u :=
        tally_lt (fun _ _ h => h.1) hv (fun h => h.2 rfl) hin
      omega
  | differs k =>
    obtain ⟨hk, hv, n, hn, hmany⟩ := h
    refine ⟨hk, hv, n, hn, ?_⟩
    rcases hmany with hlt | ⟨hopen, hle⟩
    · have hwith : tally c.vars (c.Fixed dom) ≤ tally c.vars fun u => c.Fixed dom u ∨ u = v :=
        tally_mono fun _ _ => .inl
      omega
    · have hwith : tally c.vars (c.Fixed dom) < tally c.vars fun u => c.Fixed dom u ∨ u = v :=
        tally_lt (fun _ _ => .inl) hv hopen (.inr rfl)
      omega

section Decisions

variable (h : c.Tracks sets m dom) (w : m.WellFormed) {n : Int}
  (hn : ∀ x, x ∈ dom c.card → x = n) (hi : (m.set sets.possible).contains i = true)
  (hv : c.vars[i]? = some v)

include h w hn hi hv

/-- A possible place has to take the value if all of them are needed. -/
lemma Tracks.forced_equals
    (hall : ((m.set sets.certain).size : Int) + (m.set sets.possible).size = n) :
    c.Forced dom v (.equals c.value) := by
  refine ⟨rfl, List.mem_of_getElem? hv, n, hn, ?_⟩
  by_cases hin : c.value ∈ dom v
  · have hle := h.tally_le w
    exact .inr ⟨hin, by omega⟩
  · have hlt := h.tally_lt w hi hv
    have hsame := tally_le_ne (P := fun u => c.value ∈ dom u) c.vars hin
    exact .inl (by omega)

/-- It must not take the value if there are enough without it. -/
lemma Tracks.forced_differs (hown : c.Owns sets m)
    (hnone : ((m.set sets.certain).size : Int) = n) : c.Forced dom v (.differs c.value) := by
  refine ⟨rfl, List.mem_of_getElem? hv, n, hn, ?_⟩
  by_cases hfix : c.Fixed dom v
  · have hlt := h.size_certain_lt w hown hi hv
    have hsame := tally_or_eq_le c.vars hfix
    exact .inl (by omega)
  · have hle := h.size_certain_le w hown
    exact .inr ⟨hfix, by omega⟩

end Decisions

/-! ### Decisions on the open variables -/

section Runs

open FiniteDomain.Filter

variable {p : PropId} {s : Space} (w : s.WellFormed) (hscope : ∀ v ∈ c.scope, s.store.has v = true)

include w hscope in
/-- Open variables that all have to take the value: their places become certain. -/
lemma yields_takeAll (hown : c.Owns sets s.memory) (is : List Nat)
    (his : ∀ i ∈ is, i < c.vars.length)
    (hJ : ∀ i ∈ is, ∀ v, c.vars[i]? = some v → c.Forced s.store.domain v (.equals c.value)) :
    Yields c.Forced p sets.own s (c.takeAll p sets is) fun _ t =>
      (∀ i ∈ is, ∀ v, c.vars[i]? = some v → c.Fixed t.store.domain v) ∧
      ∀ j e, (t.memory.set j).contains e = true ↔
        j = sets.certain ∧ e ∈ is ∨ (s.memory.set j).contains e = true := by
  induction is generalizing s with
  | nil =>
    refine yields_pure w ⟨fun i hi => absurd hi List.not_mem_nil, fun j e => ?_⟩
    simp
  | cons i is ih =>
    have hi : i < c.vars.length := his i List.mem_cons_self
    have hv : c.vars[i]? = some c.vars[i] := List.getElem?_eq_getElem hi
    have hin : c.vars[i] ∈ c.scope := mem_scope_of_mem (List.getElem_mem hi)
    rw [takeAll, hv]
    refine (yields_onMemory (f := fun m => m.insert sets.certain i)
      (Memory.Kept.insert w.memory certain_mem_own)).bind fun _ t ht htmem => ?_
    obtain ⟨wt, htscope, -⟩ := mem_of_ran w hscope ht
    refine (yields_discard (yields_apply wt (htscope _ hin) fun _ => ?_)).bind
      fun _ u hu humem => ?_
    · rw [htmem.1]
      exact hJ i List.mem_cons_self _ hv
    obtain ⟨wu, huscope, husub⟩ := mem_of_ran wt htscope hu
    have hrest := ih wu huscope (hown.kept (ht.memory.trans hu.memory))
      (fun j hj => his j (List.mem_cons_of_mem _ hj)) fun j hj v hv => by
        refine (hJ j (List.mem_cons_of_mem _ hj) v hv).mono fun u' _ x hx => ?_
        rw [← htmem.1]
        exact husub u' x hx
    refine hrest.mono fun _ t' ht' hdone => ⟨fun j hj v' hv' => ?_, fun j e => ?_⟩
    · rcases List.mem_cons.1 hj with rfl | hj
      · rw [hv] at hv'
        cases hv'
        have hfixed : c.Fixed u.store.domain c.vars[j] := humem.2
        exact hfixed.mono ((ht'.shrinks wu).domain _)
      · exact hdone.1 j hj v' hv'
    · rw [hdone.2, humem.1, htmem.2,
        Memory.contains_insert w.memory (by rw [hown.certain]; exact hi), List.mem_cons]
      tauto

include w hscope in
/-- Open variables that all must not take the value. -/
lemma yields_takeNone {own : List SetId} (is : List Nat)
    (hJ : ∀ i ∈ is, ∀ v, c.vars[i]? = some v → c.Forced s.store.domain v (.differs c.value)) :
    Yields c.Forced p own s (c.takeNone p is) fun _ t =>
      t.memory = s.memory ∧
      ∀ i ∈ is, ∀ v, c.vars[i]? = some v → c.value ∉ t.store.domain v := by
  induction is generalizing s with
  | nil => exact yields_pure w ⟨rfl, fun i hi => absurd hi List.not_mem_nil⟩
  | cons i is ih =>
    have hrest : ∀ t, Space.Ran c.Forced p own s t → t.memory = s.memory →
        (∀ v, c.vars[i]? = some v → c.value ∉ t.store.domain v) →
        Yields c.Forced p own t (c.takeNone p is) fun _ u => u.memory = s.memory ∧
          ∀ j ∈ i :: is, ∀ v, c.vars[j]? = some v → c.value ∉ u.store.domain v := by
      intro t ht htmem hthead
      obtain ⟨wt, htscope, htsub⟩ := mem_of_ran w hscope ht
      have htail := ih wt htscope fun j hj v hv =>
        (hJ j (List.mem_cons_of_mem _ hj) v hv).mono fun u _ => htsub u
      refine htail.mono fun _ u hu hdone => ⟨hdone.1.trans htmem, fun j hj v hv hx => ?_⟩
      rcases List.mem_cons.1 hj with rfl | hj
      · exact hthead v hv ((hu.shrinks wt).domain v _ hx)
      · exact hdone.2 j hj v hv hx
    rw [takeNone]
    cases hv : c.vars[i]? with
    | none => exact hrest s (.refl w) rfl fun v hv' => absurd (hv.symm.trans hv') nofun
    | some v =>
      have hin : v ∈ c.scope := mem_scope_of_mem (List.mem_of_getElem? hv)
      have happly : Yields c.Forced p own s (apply p v (.differs c.value)) _ :=
        yields_apply w (hscope v hin) fun _ => hJ i List.mem_cons_self v hv
      refine (yields_discard happly).bind fun _ t ht htmem => ?_
      refine hrest t ht htmem.1 fun v' hv' hx => ?_
      rw [hv] at hv'
      cases hv'
      exact htmem.2 _ hx rfl

/-- When the open variables are decided, the possible set is emptied. -/
lemma yields_clear {t : Space} (wt : t.WellFormed) (ne : sets.possible ≠ sets.certain)
    (hcertain : ∀ i v, (t.memory.set sets.certain).contains i = true → c.vars[i]? = some v →
      c.Fixed t.store.domain v)
    (hcovers : ∀ i v, c.vars[i]? = some v → c.value ∈ t.store.domain v →
      (t.memory.set sets.certain).contains i = true) :
    Yields c.Forced p sets.own t (Filter.clear sets.possible) fun _ u =>
      c.Tracks sets u.memory u.store.domain := by
  refine (yields_onMemory (.clear wt.memory possible_mem_own)).mono fun _ u _ hu => ?_
  rw [hu.1, hu.2]
  exact .of_certain wt.memory ne hcertain hcovers

section Decided

variable (hown : c.Owns sets s.memory) (h : c.Tracks sets s.memory s.store.domain) {n : Int}
  (hn : ∀ x, x ∈ s.store.domain c.card → x = n)

include w hscope hown h hn

/-- When the cardinality is as great as it can be, all open variables take the value. -/
lemma yields_decideAll
    (hall : ((s.memory.set sets.certain).size : Int) + (s.memory.set sets.possible).size = n) :
    Yields c.Forced p sets.own s (do
        c.takeAll p sets (s.memory.set sets.possible).elements
        Filter.clear sets.possible) fun _ t => c.Tracks sets t.memory t.store.domain := by
  have helements : ∀ i, i ∈ (s.memory.set sets.possible).elements ↔
      (s.memory.set sets.possible).contains i = true :=
    fun i => SparseSet.mem_elements (w.memory.set _)
  have htake := yields_takeAll (p := p) w hscope hown
    (s.memory.set sets.possible).elements (fun i hi => ?_) fun i hi v hv => ?_
  · refine htake.bind fun _ t ht hdone => ?_
    obtain ⟨wt, -, htsub⟩ := mem_of_ran w hscope ht
    have hfinal := h.mono fun u _ => htsub u
    refine yields_clear wt hown.ne (fun i v hi hv => ?_) fun i v hv hx => ?_
    · rcases (hdone.2 _ _).1 hi with ⟨-, hi⟩ | hi
      · exact hdone.1 i hi v hv
      · exact hfinal.certain i v hi hv
    · refine (hdone.2 _ _).2 ?_
      rcases hfinal.covers i v hv hx with hi | hi
      · exact .inl ⟨rfl, (helements i).2 hi⟩
      · exact .inr hi
  · have hlt := SparseSet.lt_capacity_of_contains (w.memory.set _) ((helements i).1 hi)
    rwa [hown.possible] at hlt
  · exact h.forced_equals w.memory hn ((helements i).1 hi) hv hall

/-- When the cardinality is as small as it can be, no open variable takes the value. -/
lemma yields_decideNone (hnone : ((s.memory.set sets.certain).size : Int) = n) :
    Yields c.Forced p sets.own s (do
        c.takeNone p (s.memory.set sets.possible).elements
        Filter.clear sets.possible) fun _ t => c.Tracks sets t.memory t.store.domain := by
  have helements : ∀ i, i ∈ (s.memory.set sets.possible).elements ↔
      (s.memory.set sets.possible).contains i = true :=
    fun i => SparseSet.mem_elements (w.memory.set _)
  have htake : Yields c.Forced p sets.own s
      (c.takeNone p (s.memory.set sets.possible).elements) _ :=
    yields_takeNone w hscope _ fun i hi v hv => ?_
  · refine htake.bind fun _ t ht hdone => ?_
    obtain ⟨wt, -, htsub⟩ := mem_of_ran w hscope ht
    have hfinal := h.mono fun u _ => htsub u
    refine yields_clear wt hown.ne (fun i v hi hv => ?_) fun i v hv hx => ?_
    · rw [hdone.1] at hi
      exact hfinal.certain i v hi hv
    · rw [hdone.1]
      refine (hfinal.covers i v hv hx).resolve_left fun hi => ?_
      exact hdone.2 i ((helements i).2 hi) v hv hx
  · exact h.forced_differs w.memory hn ((helements i).1 hi) hv hown hnone

end Decided

include w hscope in
/-- The bounds of the cardinality, and the decisions when it is fixed to one of them.
The sets are up to date before and after. -/
lemma yields_filter (hown : c.Owns sets s.memory)
    (h : c.Tracks sets s.memory s.store.domain) :
    Yields c.Forced p sets.own s (c.filter p sets) fun _ t =>
      c.Tracks sets t.memory t.store.domain := by
  have hcard : c.card ∈ c.scope := card_mem_scope
  rw [filter]
  refine yields_memory ?_
  dsimp only
  refine (yields_discard (yields_apply w (hscope _ hcard) fun _ => ?_)).bind
    fun _ t ht htmem => ?_
  · exact ⟨rfl, Int.ofNat_le.2 (h.size_certain_le w.memory hown)⟩
  obtain ⟨wt, htscope, htsub⟩ := mem_of_ran w hscope ht
  have htracks := h.mono fun u _ => htsub u
  refine (yields_discard (yields_apply wt (htscope _ hcard) fun _ => ?_)).bind
    fun _ u hu humem => ?_
  · exact ⟨rfl, by exact_mod_cast htracks.tally_le w.memory⟩
  obtain ⟨wu, huscope, husub⟩ := mem_of_ran wt htscope hu
  have hmem : u.memory = s.memory := humem.1.trans htmem.1
  have hutracks := htracks.mono fun u _ => husub u
  rw [← hmem] at hown hutracks ⊢
  refine yields_store ?_
  split
  case isFalse => exact yields_pure wu hutracks
  rename_i hfixed
  have hn : ∀ x, x ∈ u.store.domain c.card → x = u.store.lower c.card :=
    (wu.store.isFixed_iff (huscope _ hcard)).1 hfixed
  split
  · rename_i hall
    exact yields_decideAll wu huscope hown hutracks hn hall
  · split
    · rename_i hnone
      exact yields_decideNone wu huscope hown hutracks hn hnone
    · exact yields_pure wu hutracks

end Runs

end Count

end FiniteDomain
