import Mathlib.Tactic
import FiniteDomain.Proofs.Propagator.CountCalls
import FiniteDomain.Proofs.Settling

/-!
What counting reaches.

After a call of the propagator the possible places are open, the cardinality lies between
the sizes of the sets, and if it is fixed, then the open variables are not decided yet.
This may go wrong only at a place whose variable changes later, of which the propagator is
told.

* `Count.Open`, `Count.Balanced`: the two parts of `Count.Rests`, what holds after a call as
  long as no place waits for an event;
* `Count.Apart`: the cardinality is on another root than the variables that are counted;
* `Count.settles_filter`, `Count.settles_propagate`: calls reach this, and
  `Count.settles_react`, with `Count.Served`: so does a call for one place;
* `Count.Rests.shrink`: it stays while the variables of the other places do not change;
* `Count.Rests.closed_forced`: at rest, the propagator has no grounds to narrow anything, and
  `Count.Rests.closed`: nor has the constraint, if the variables are different;
* `Count.Rests.holds`: at rest, fixed variables satisfy the constraint.
-/

namespace FiniteDomain

/-! ### Counting all but one -/

section Tally

variable {vs : List VarId} {P : VarId → Prop}

/-- Of different variables, one has to be left out at most. -/
lemma tally_le_add_one (hnodup : vs.Nodup) (v : VarId) :
    tally vs P ≤ tally vs (fun u => P u ∧ u ≠ v) + 1 := by
  induction vs with
  | nil => simp [tally]
  | cons w vs ih =>
    obtain ⟨hnot, hnodup⟩ := List.nodup_cons.1 hnodup
    by_cases hw : w = v
    · subst hw
      have hrest : tally vs P ≤ tally vs fun u => P u ∧ u ≠ w :=
        tally_mono fun u hu hP => ⟨hP, fun e => hnot (e ▸ hu)⟩
      simp only [tally, List.countP_cons] at *
      split <;> split <;> omega
    · have hrest := ih hnodup
      simp only [tally, List.countP_cons] at *
      by_cases hP : P w
      · rw [if_pos (by simpa using hP), if_pos (by simpa using ⟨hP, hw⟩)]
        omega
      · rw [if_neg (by simpa using hP)]
        omega

/-- Of different variables, one is added at most. -/
lemma tally_or_le (hnodup : vs.Nodup) (v : VarId) :
    tally vs (fun u => P u ∨ u = v) ≤ tally vs P + 1 := by
  refine (tally_le_add_one hnodup v).trans (Nat.add_le_add_right (tally_mono ?_) 1)
  intro u _ h
  exact h.1.resolve_right h.2

end Tally

namespace Count

variable {c : Count} {sets : Sets} {m m' : Memory} {dom dom' : VarId → IntervalSet}
  {waits waits' : Nat → Prop} {v : VarId} {i : Nat}

/-- The possible places are open, but for those that wait for an event. -/
def Open (c : Count) (sets : Sets) (m : Memory) (dom : VarId → IntervalSet)
    (waits : Nat → Prop) : Prop :=
  ∀ i v, c.vars[i]? = some v → ¬ waits i → (m.set sets.possible).contains i = true →
    c.value ∈ dom v ∧ ¬ c.Fixed dom v

/-- A change of the cardinality opens and closes no place. -/
lemma Open.congr (h : c.Open sets m dom waits) (hsame : ∀ v ∈ c.vars, dom' v = dom v) :
    c.Open sets m dom' waits := by
  intro i v hv hi hp
  have hdom := hsame v (List.mem_of_getElem? hv)
  obtain ⟨hin, hfix⟩ := h i v hv hi hp
  exact ⟨hdom ▸ hin, fun h => hfix fun x hx => h x (hdom ▸ hx)⟩

/-- The sizes of the sets bound the cardinality.  If it is fixed, it lies strictly between
them, or no place is possible. -/
structure Balanced (c : Count) (sets : Sets) (m : Memory) (dom : VarId → IntervalSet) :
    Prop where
  lower : ∀ x, x ∈ dom c.card → ((m.set sets.certain).size : Int) ≤ x
  upper : ∀ x, x ∈ dom c.card →
    x ≤ ((m.set sets.certain).size : Int) + (m.set sets.possible).size
  undecided : ∀ n, (∀ x, x ∈ dom c.card → x = n) → (m.set sets.possible).size = 0 ∨
    ((m.set sets.certain).size : Int) < n ∧
      n < ((m.set sets.certain).size : Int) + (m.set sets.possible).size

/-- What holds after a call, but for what waits for an event. -/
structure Rests (c : Count) (sets : Sets) (m : Memory) (dom : VarId → IntervalSet)
    (waits : Nat → Prop) : Prop where
  places : c.Open sets m dom waits
  balanced : ¬ waits c.vars.length → c.Balanced sets m dom

/-- The cardinality is on another root than the variables that are counted. -/
def Apart (c : Count) (s : Store) : Prop := ∀ v ∈ c.vars, s.root v ≠ s.root c.card

/-- A change of variables whose places wait then does no harm. -/
lemma Rests.shrink (h : c.Rests sets m dom waits)
    (hsub : ∀ u ∈ c.scope, ∀ x, x ∈ dom' u → x ∈ dom u)
    (hsame : ∀ i v, c.scope[i]? = some v → ¬ waits' i →
      ¬ waits i ∧ ∀ x, x ∈ dom v → x ∈ dom' v) : c.Rests sets m dom' waits' := by
  refine ⟨fun i v hv hi hp => ?_, fun hi => ?_⟩
  · have hlt : i < c.vars.length := (List.getElem?_eq_some_iff.1 hv).1
    obtain ⟨hwait, hkept⟩ := hsame i v (by rw [scope, List.getElem?_append_left hlt, hv]) hi
    obtain ⟨hmem, hopen⟩ := h.places i v hv hwait hp
    exact ⟨hkept _ hmem, fun hfix => hopen fun x hx => hfix x (hkept x hx)⟩
  · obtain ⟨hwait, hkept⟩ := hsame c.vars.length c.card (by simp [scope]) hi
    have hin : ∀ x, x ∈ dom' c.card → x ∈ dom c.card :=
      hsub _ card_mem_scope
    have hb := h.balanced hwait
    exact ⟨fun x hx => hb.lower x (hin x hx), fun x hx => hb.upper x (hin x hx),
      fun n hn => hb.undecided n fun x hx => hn x (hkept x hx)⟩

/-- Only the members of the sets matter. -/
lemma Rests.congr (h : c.Rests sets m dom waits) (w : m.WellFormed) (w' : m'.WellFormed)
    (hmem : ∀ j ∈ sets.own, ∀ e, (m'.set j).contains e = (m.set j).contains e) :
    c.Rests sets m' dom waits := by
  have hsize : ∀ j ∈ sets.own, (m'.set j).size = (m.set j).size := fun j hj =>
    SparseSet.size_eq_of_contains (w.set j) (w'.set j) (hmem j hj)
  have hpossible := hmem sets.possible possible_mem_own
  have hps := hsize sets.possible possible_mem_own
  have hcs := hsize sets.certain certain_mem_own
  refine ⟨fun i v hv hi hp => h.places i v hv hi (by rwa [← hpossible]), fun hi => ?_⟩
  have hb := h.balanced hi
  exact ⟨by rw [hcs]; exact hb.lower, by rw [hcs, hps]; exact hb.upper,
    by rw [hcs, hps]; exact hb.undecided⟩

/-- If the variables are different, the grounds of the constraint are those of the propagator. -/
lemma Justified.forced {op : Operation} (hnodup : c.vars.Nodup) (h : c.Justified dom v op) :
    c.Forced dom v op := by
  cases op with
  | atLeast k => exact h
  | atMost k => exact h
  | equals k =>
    obtain ⟨hk, hv, n, hn, hlt⟩ := h
    refine ⟨hk, hv, n, hn, ?_⟩
    by_cases hin : c.value ∈ dom v
    · have hle := tally_le_add_one (P := fun u => c.value ∈ dom u) hnodup v
      exact .inr ⟨hin, by omega⟩
    · have hle := tally_le_ne (P := fun u => c.value ∈ dom u) c.vars hin
      exact .inl (by omega)
  | differs k =>
    obtain ⟨hk, hv, n, hn, hlt⟩ := h
    refine ⟨hk, hv, n, hn, ?_⟩
    by_cases hfix : c.Fixed dom v
    · have hle := tally_or_eq_le c.vars hfix
      exact .inl (by omega)
    · have hle := tally_or_le (P := c.Fixed dom) hnodup v
      exact .inr ⟨hfix, by omega⟩

/-! ### Domains at rest -/

section Closed

variable (h : c.Rests sets m dom waits) (hwaits : ∀ i, ¬ waits i) (ht : c.Tracks sets m dom)
  (w : m.WellFormed) (hown : c.Owns sets m)

include h hwaits ht in
/-- The certain places are those whose variables are fixed to the value. -/
lemma Rests.certain_iff (hv : c.vars[i]? = some v) (hne : ∃ x, x ∈ dom v) :
    (m.set sets.certain).contains i = true ↔ c.Fixed dom v := by
  refine ⟨fun hi => ht.certain i v hi hv, fun hfix => ?_⟩
  obtain ⟨x, hx⟩ := hne
  refine (ht.covers i v hv (hfix x hx ▸ hx)).resolve_left fun hp => ?_
  exact (h.places i v hv (hwaits i) hp).2 hfix

include h hwaits ht in
/-- The possible places are those whose variables have the value and are not fixed. -/
lemma Rests.possible_iff (hv : c.vars[i]? = some v) :
    (m.set sets.possible).contains i = true ↔ c.value ∈ dom v ∧ ¬ c.Fixed dom v := by
  refine ⟨fun hi => h.places i v hv (hwaits i) hi, fun ⟨hin, hopen⟩ => ?_⟩
  exact (ht.covers i v hv hin).resolve_right fun hc => hopen (ht.certain i v hc hv)

include h hwaits ht w hown in
/-- The sizes of the sets are the numbers that justify requests. -/
lemma Rests.sizes (hne : ∀ v ∈ c.vars, ∃ x, x ∈ dom v) :
    (m.set sets.certain).size = tally c.vars (c.Fixed dom) ∧
      (m.set sets.certain).size + (m.set sets.possible).size
        = tally c.vars fun u => c.value ∈ dom u := by
  have hget : ∀ i, (m.set sets.possible).contains i = true → ∃ v, c.vars[i]? = some v :=
    fun i hi => exists_getElem? w hown.possible hi
  constructor
  · refine Nat.le_antisymm (ht.size_certain_le w hown) ?_
    rw [← SparseSet.length_elements (w.set _)]
    refine tally_le_length fun i v hv hfix => ?_
    rw [SparseSet.mem_elements (w.set _)]
    exact (h.certain_iff hwaits ht hv (hne v (List.mem_of_getElem? hv))).2 hfix
  · refine Nat.le_antisymm ?_ (ht.tally_le w)
    rw [← SparseSet.length_elements (w.set sets.certain),
      ← SparseSet.length_elements (w.set sets.possible), ← List.length_append]
    refine length_le_tally (List.Nodup.append (w.set _).nodup_elements
      (w.set _).nodup_elements fun i hc hp => ?_) fun i hi => ?_
    · rw [SparseSet.mem_elements (w.set _)] at hc hp
      rw [ht.disjoint i hp] at hc
      cases hc
    · rw [List.mem_append, SparseSet.mem_elements (w.set _), SparseSet.mem_elements (w.set _)]
        at hi
      rcases hi with hi | hi
      · obtain ⟨v, hv⟩ := exists_getElem? w hown.certain hi
        obtain ⟨x, hx⟩ := hne v (List.mem_of_getElem? hv)
        exact ⟨v, hv, ht.certain i v hi hv x hx ▸ hx⟩
      · obtain ⟨v, hv⟩ := hget i hi
        exact ⟨v, hv, (h.places i v hv (hwaits i) hi).1⟩

include h hwaits ht w hown in
/-- At rest the propagator has no grounds to narrow anything. -/
lemma Rests.closed_forced (hne : ∀ v ∈ c.scope, ∃ x, x ∈ dom v) : Grounds.Closed c.Forced dom := by
  have hvars : ∀ v ∈ c.vars, ∃ x, x ∈ dom v := fun v hv => hne v (mem_scope_of_mem hv)
  obtain ⟨n₀, hn₀⟩ := hne c.card card_mem_scope
  obtain ⟨hcertain, hboth⟩ := h.sizes hwaits ht w hown hvars
  have hb := h.balanced (hwaits _)
  have hlower := hb.lower
  have hupper := hb.upper
  -- without possible places, a variable that has the value is fixed to it
  have hdecided : (m.set sets.possible).size = 0 → ∀ v ∈ c.vars, c.value ∈ dom v →
      c.Fixed dom v := by
    intro hzero v hv hin
    obtain ⟨i, hi⟩ := List.mem_iff_getElem?.1 hv
    rcases ht.covers i v hi hin with hp | hc
    · rw [(SparseSet.size_eq_zero_iff (w.set sets.possible)).1 hzero i] at hp
      cases hp
    · exact ht.certain i v hc hi
  intro v op hJ x hx
  cases op with
  | atLeast k =>
    obtain ⟨rfl, hk⟩ := hJ
    have := hlower x hx
    exact hk.trans (by omega)
  | atMost k =>
    obtain ⟨rfl, hk⟩ := hJ
    have := hupper x hx
    exact le_trans (by omega) hk
  | equals k =>
    obtain ⟨rfl, hv, n, hn, hfew⟩ := hJ
    obtain rfl := hn n₀ hn₀
    have := hupper n₀ hn₀
    rcases hfew with hlt | ⟨hin, hle⟩
    · omega
    · rcases hb.undecided n₀ hn with hzero | ⟨-, hstrict⟩
      · exact hdecided hzero v hv hin x hx
      · omega
  | differs k =>
    obtain ⟨rfl, hv, n, hn, hmany⟩ := hJ
    obtain rfl := hn n₀ hn₀
    have := hlower n₀ hn₀
    rintro rfl
    rcases hmany with hlt | ⟨hopen, hle⟩
    · omega
    · rcases hb.undecided n₀ hn with hzero | ⟨hstrict, -⟩
      · exact hopen (hdecided hzero v hv hx)
      · omega

include h hwaits ht w hown in
/-- At rest nothing can be narrowed.  Each request looks at the other variables, so these
have to be different from the one it is for. -/
lemma Rests.closed (hne : ∀ v ∈ c.scope, ∃ x, x ∈ dom v) (hnodup : c.vars.Nodup) :
    Grounds.Closed c.Justified dom :=
  fun v op hJ => h.closed_forced hwaits ht w hown hne v op (hJ.forced hnodup)

include h hwaits ht w hown in
/-- When all variables are fixed, they satisfy the constraint. -/
lemma Rests.holds {values : VarId → Int}
    (hfixed : ∀ v ∈ c.scope, ∀ x, x ∈ dom v ↔ x = values v) : c.Holds values := by
  have hvars : ∀ v ∈ c.vars, ∀ x, x ∈ dom v ↔ x = values v :=
    fun v hv => hfixed v (mem_scope_of_mem hv)
  have hcard : values c.card ∈ dom c.card :=
    (hfixed c.card card_mem_scope _).2 rfl
  obtain ⟨hcertain, hboth⟩ := h.sizes hwaits ht w hown fun v hv => ⟨_, (hvars v hv _).2 rfl⟩
  have hb := h.balanced (hwaits _)
  have hlower := hb.lower _ hcard
  have hupper := hb.upper _ hcard
  have hle : tally c.vars (c.Fixed dom) ≤ tally c.vars fun u => values u = c.value :=
    tally_mono fun v hv hfix => hfix _ ((hvars v hv _).2 rfl)
  have hge : tally c.vars (fun u => values u = c.value) ≤ tally c.vars (c.Fixed dom) :=
    tally_mono fun v hv hvalue x hx => ((hvars v hv x).1 hx).trans hvalue
  have hmem : tally c.vars (fun u => c.value ∈ dom u) ≤
      tally c.vars fun u => values u = c.value :=
    tally_mono fun v hv hx => ((hvars v hv _).1 hx).symm
  rw [holds_iff]
  omega

end Closed

/-! ### Calls -/

section Runs

open FiniteDomain.Filter

variable {p : PropId} {s t : Space} (w : s.WellFormed)
  (hscope : ∀ v ∈ c.scope, s.store.has v = true)

include w hscope in
lemma settles_takeAll (hown : c.Owns sets s.memory) (is : List Nat)
    (his : ∀ i ∈ is, i < c.vars.length) :
    Settles p sets.own s (c.takeAll p sets is) fun _ t =>
      t.memory.activity p = s.memory.activity p ∧
      ∀ j e, (t.memory.set j).contains e = true ↔
        j = sets.certain ∧ e ∈ is ∨ (s.memory.set j).contains e = true := by
  induction is generalizing s with
  | nil => exact settles_pure w ⟨rfl, fun j e => by simp⟩
  | cons i is ih =>
    have hi : i < c.vars.length := his i List.mem_cons_self
    have hv : c.vars[i]? = some c.vars[i] := List.getElem?_eq_getElem hi
    have hin : c.vars[i] ∈ c.scope := mem_scope_of_mem (List.getElem_mem hi)
    rw [takeAll, hv]
    refine (settles_onMemory (f := fun m => m.insert sets.certain i)
      (Memory.Kept.insert w.memory certain_mem_own)).bind fun _ t ht htmem => ?_
    obtain ⟨wt, htscope, -⟩ := mem_of_ran w hscope ht
    refine (settles_discard_apply wt (htscope _ hin)).bind fun _ u hu humem => ?_
    obtain ⟨wu, huscope, -⟩ := mem_of_ran wt htscope hu
    have hrest := ih wu huscope (hown.kept (ht.memory.trans hu.memory))
      fun j hj => his j (List.mem_cons_of_mem _ hj)
    refine hrest.mono fun _ t' _ hdone => ⟨?_, fun j e => ?_⟩
    · rw [hdone.1, humem.1, htmem.2]
      exact Memory.activity_insert w.memory
    · rw [hdone.2, humem.1, htmem.2,
        Memory.contains_insert w.memory (by rw [hown.certain]; exact hi), List.mem_cons]
      tauto

include w hscope in
lemma settles_takeNone {own : List SetId} (is : List Nat) :
    Settles p own s (c.takeNone p is) fun _ t => t.memory = s.memory := by
  induction is generalizing s with
  | nil => exact settles_pure w rfl
  | cons i is ih =>
    rw [takeNone]
    cases hv : c.vars[i]? with
    | none => exact ih w hscope
    | some v =>
      have hin : v ∈ c.scope := mem_scope_of_mem (List.mem_of_getElem? hv)
      refine (settles_discard_apply w (hscope _ hin)).bind fun _ t ht htmem => ?_
      obtain ⟨wt, htscope, -⟩ := mem_of_ran w hscope ht
      exact (ih wt htscope).mono fun _ _ _ h => h.trans htmem.1

/-- When the open variables are decided, the possible set is emptied.  Then the cardinality
is the size of the certain set. -/
lemma settles_clear (ne : sets.possible ≠ sets.certain) {n : Int} (wt : t.WellFormed)
    (hn : ∀ x, x ∈ t.store.domain c.card → x = n)
    (hsize : ((t.memory.set sets.certain).size : Int) = n) :
    Settles p sets.own t (Filter.clear sets.possible) fun _ u =>
      u.memory.activity p = t.memory.activity p ∧
        c.Rests sets u.memory u.store.domain waits := by
  refine (settles_onMemory (.clear wt.memory possible_mem_own)).mono fun _ u hu humem => ?_
  have wu : (t.memory.clear sets.possible).WellFormed := humem.2 ▸ hu.memory.wellFormed
  have hnone : ∀ e, ((t.memory.clear sets.possible).set sets.possible).contains e = false := by
    intro e
    rw [← Bool.not_eq_true, Memory.contains_clear wt.memory]
    exact fun h => h.1 rfl
  have hzero := (SparseSet.size_eq_zero_iff (wu.set sets.possible)).2 hnone
  have hcertain : ((t.memory.clear sets.possible).set sets.certain).size
      = (t.memory.set sets.certain).size := by
    refine SparseSet.size_eq_of_contains (wt.memory.set _) (wu.set _) fun e => ?_
    rw [Bool.eq_iff_iff, Memory.contains_clear wt.memory]
    simp [ne.symm]
  rw [humem.1, humem.2]
  refine ⟨Memory.activity_clear wt.memory, fun i v hv _ hp => ?_, fun _ => ⟨fun x hx => ?_,
    fun x hx => ?_, fun _ _ => .inl hzero⟩⟩
  · rw [hnone i] at hp
    cases hp
  · rw [hn x hx, hcertain, hsize]
  · rw [hn x hx, hcertain, hsize, hzero]
    omega

section Decided

variable (hown : c.Owns sets s.memory) {n : Int} (hn : ∀ x, x ∈ s.store.domain c.card → x = n)

include w hscope hown hn

/-- When the cardinality is as great as it can be, all open variables take the value. -/
lemma settles_decideAll
    (hdisjoint : ∀ i, (s.memory.set sets.possible).contains i = true →
      (s.memory.set sets.certain).contains i = false)
    (hall : ((s.memory.set sets.certain).size : Int) + (s.memory.set sets.possible).size = n) :
    Settles p sets.own s (do
        c.takeAll p sets (s.memory.set sets.possible).elements
        Filter.clear sets.possible) fun _ t =>
      t.memory.activity p = s.memory.activity p ∧
        c.Rests sets t.memory t.store.domain waits := by
  have helements : ∀ i, i ∈ (s.memory.set sets.possible).elements ↔
      (s.memory.set sets.possible).contains i = true :=
    fun i => SparseSet.mem_elements (w.memory.set _)
  have htake : Settles p sets.own s (c.takeAll p sets (s.memory.set sets.possible).elements) _ :=
    settles_takeAll w hscope hown _ fun i hi => by
      have := SparseSet.lt_capacity_of_contains (w.memory.set _) ((helements i).1 hi)
      rwa [hown.possible] at this
  refine htake.bind fun _ t ht hdone => ?_
  obtain ⟨wt, -, htsub⟩ := mem_of_ran w hscope ht
  have hcertain : (t.memory.set sets.certain).size
      = (s.memory.set sets.certain).size + (s.memory.set sets.possible).size := by
    rw [Nat.add_comm]
    refine SparseSet.size_eq_add (wt.memory.set _) (w.memory.set _) (w.memory.set _)
      hdisjoint fun e => ?_
    rw [hdone.2, helements]
    simp
  refine (settles_clear hown.ne wt (fun x hx => hn x (htsub _ x hx)) ?_).mono
    fun _ _ _ h => ⟨h.1.trans hdone.1, h.2⟩
  rw [hcertain, ← hall]
  push_cast
  rfl

/-- When the cardinality is as small as it can be, no open variable takes the value. -/
lemma settles_decideNone (hnone : ((s.memory.set sets.certain).size : Int) = n) :
    Settles p sets.own s (do
        c.takeNone p (s.memory.set sets.possible).elements
        Filter.clear sets.possible) fun _ t =>
      t.memory.activity p = s.memory.activity p ∧
        c.Rests sets t.memory t.store.domain waits := by
  refine (settles_takeNone w hscope _).bind fun _ t ht hdone => ?_
  obtain ⟨wt, -, htsub⟩ := mem_of_ran w hscope ht
  refine (settles_clear hown.ne wt (fun x hx => hn x (htsub _ x hx)) ?_).mono
    fun _ _ _ h => ⟨h.1.trans (by rw [hdone]), h.2⟩
  rw [hdone, ← hnone]

end Decided

include w hscope in
/-- The bounds of the cardinality, and the decisions when it is fixed to one of them, leave
the sets and the cardinality in balance. -/
lemma settles_filter (hown : c.Owns sets s.memory)
    (hdisjoint : ∀ i, (s.memory.set sets.possible).contains i = true →
      (s.memory.set sets.certain).contains i = false)
    (hopen : c.Apart s.store → c.Open sets s.memory s.store.domain waits) :
    Settles p sets.own s (c.filter p sets) fun _ t =>
      t.memory.activity p = s.memory.activity p ∧
        (c.Apart s.store → c.Rests sets t.memory t.store.domain waits) := by
  have hcard : c.card ∈ c.scope := card_mem_scope
  rw [filter]
  refine settles_memory ?_
  dsimp only
  refine (settles_discard_apply w (hscope _ hcard)).bind fun _ t ht htmem => ?_
  obtain ⟨wt, htscope, -⟩ := mem_of_ran w hscope ht
  refine (settles_discard_apply wt (htscope _ hcard)).bind fun _ u hu humem => ?_
  obtain ⟨wu, huscope, -⟩ := mem_of_ran wt htscope hu
  have hlower : ∀ x, x ∈ u.store.domain c.card → ((s.memory.set sets.certain).size : Int) ≤ x :=
    fun x hx => ((htmem.2.2 x).1 ((humem.2.2 x).1 hx).1).2
  have hupper : ∀ x, x ∈ u.store.domain c.card →
      x ≤ ((s.memory.set sets.certain).size : Int) + (s.memory.set sets.possible).size :=
    fun x hx => ((humem.2.2 x).1 hx).2
  -- the variables that are counted are on other roots
  have hsame : c.Apart s.store → ∀ v ∈ c.vars, u.store.domain v = s.store.domain v := by
    intro hapart v hv
    have hroot := (ht.shrinks w).root
    rw [humem.2.1 v (by rw [hroot, hroot]; exact hapart v hv), htmem.2.1 v (hapart v hv)]
  have huopen : c.Apart s.store → c.Open sets s.memory u.store.domain waits :=
    fun hapart => (hopen hapart).congr (hsame hapart)
  have hmem : u.memory = s.memory := humem.1.trans htmem.1
  rw [← hmem] at hown hdisjoint hlower hupper huopen ⊢
  have hhas := huscope _ hcard
  refine settles_store ?_
  split
  case isFalse =>
    rename_i hfree
    have hfree : ∀ n, ¬ ∀ x, x ∈ u.store.domain c.card → x = n := fun n hn =>
      hfree ((wu.store.isFixed_iff hhas).2 fun x hx =>
        (hn x hx).trans (hn _ (wu.store.lower_mem hhas)).symm)
    exact settles_pure wu ⟨rfl, fun hapart => ⟨huopen hapart, fun _ =>
      ⟨hlower, hupper, fun n hn => absurd hn (hfree n)⟩⟩⟩
  rename_i hfixed
  have hn : ∀ x, x ∈ u.store.domain c.card → x = u.store.lower c.card :=
    (wu.store.isFixed_iff hhas).1 hfixed
  split
  · rename_i hall
    exact (settles_decideAll wu huscope hown hn hdisjoint hall).mono
      fun _ _ _ h => ⟨h.1, fun _ => h.2⟩
  · split
    · rename_i hnone
      exact (settles_decideNone wu huscope hown hn hnone).mono
        fun _ _ _ h => ⟨h.1, fun _ => h.2⟩
    · rename_i hnotall hnotnone
      refine settles_pure wu ⟨rfl, fun hapart => ⟨huopen hapart, fun _ =>
        ⟨hlower, hupper, fun n hn' => .inr ?_⟩⟩⟩
      have hlow : u.store.lower c.card ∈ u.store.domain c.card := wu.store.lower_mem hhas
      have hle := hlower _ hlow
      have hle' := hupper _ hlow
      rw [hn' _ hlow] at hnotall hnotnone hle hle'
      omega

/-- No place waits after all were sorted anew. -/
lemma Sorts.isOpen (h : c.Sorts sets m dom) : c.Open sets m dom waits := by
  intro i v hv _ hi
  obtain ⟨v', hv', hfix, hmem⟩ := (h.possible i).1 hi
  rw [hv] at hv'
  cases hv'
  exact ⟨hmem, hfix⟩

include w hscope in
/-- A propagation from scratch. -/
lemma settles_propagate (hown : c.Owns sets s.memory) :
    Settles p sets.own s (c.propagate p sets) fun _ t =>
      t.memory.activity p = s.memory.activity p ∧
        (c.Apart s.store → c.Rests sets t.memory t.store.domain waits) := by
  have hran : Space.Ran .any p sets.own s (c.sorted sets s) := ran_sorted w.memory
  have hsorts := sorts_sorted w hscope hown
  have hopen : c.Open sets (c.sorted sets s).memory s.store.domain waits := hsorts.isOpen
  have hfilter := settles_filter (p := p) (hran.wellFormed w) hscope (hown.kept hran.memory)
    hsorts.tracks.disjoint fun _ => hopen
  exact (Settles.of_eq propagate_eq hran hfilter).mono fun _ _ _ h =>
    ⟨h.1.trans (activity_sorted w.memory p), h.2⟩

section React

/-- What a call for one place reaches, after which the place does not wait any more. -/
def Served (c : Count) (p : PropId) (sets : Sets) (waits : Nat → Prop) (index : Nat) (s t : Space) :
    Prop :=
  t.memory.activity p = s.memory.activity p ∧
    (c.Apart s.store → c.Rests sets t.memory t.store.domain fun i => waits i ∧ i ≠ index)

variable (h : c.Apart s.store → c.Rests sets s.memory s.store.domain waits) {index : Nat}

/-- A place that is decided, or open still, does not wait any more. -/
lemma Rests.served (h : c.Rests sets m dom waits) (hv : c.vars[index]? = some v)
    (hopen : (m.set sets.possible).contains index = true → c.value ∈ dom v ∧ ¬ c.Fixed dom v) :
    c.Rests sets m dom fun i => waits i ∧ i ≠ index := by
  have hlt : index < c.vars.length := (List.getElem?_eq_some_iff.1 hv).1
  refine ⟨fun i u hu hi hp => ?_, fun hw => h.balanced fun hwait => hw ⟨hwait, hlt.ne'⟩⟩
  by_cases hidx : i = index
  · subst hidx
    rw [hv] at hu
    cases hu
    exact hopen hp
  · exact h.places i u hu (fun hw => hi ⟨hw, hidx⟩) hp

include w hscope h in
/-- A call for one place, which does not wait any more. -/
lemma settles_react (hown : c.Owns sets s.memory) (ht : c.Tracks sets s.memory s.store.domain) :
    Settles p sets.own s (c.react p sets index) fun _ t => c.Served p sets waits index s t := by
  cases hm : c.moved? sets index s with
  | none =>
    obtain ⟨v, hv, hopen⟩ := moved?_eq_none w.store hm
    exact .of_eq (react_eq_of_none hm) (.refl w)
      (settles_pure w ⟨rfl, fun hapart => (h hapart).served hv hopen⟩)
  | some t =>
    have hran : Space.Ran .any p sets.own s t := ran_moved w.memory hm
    obtain ⟨wt, htscope, -⟩ := mem_of_ran w hscope hran
    have hstore : t.store = s.store := store_moved hm
    have hopen : c.Apart t.store →
        c.Open sets t.memory t.store.domain fun i => waits i ∧ i ≠ index := by
      intro hapart i v hv hi hp
      obtain ⟨hne, hp⟩ := possible_of_moved w hown hm hv hp
      rw [hstore] at hapart ⊢
      exact (h hapart).places i v hv (fun hw => hi ⟨hw, hne⟩) hp
    have hfilter := settles_filter (p := p) wt htscope (hown.kept hran.memory)
      (ht.of_moved w hown hm).disjoint hopen
    refine (Settles.of_eq (react_eq_of_some hm) hran hfilter).mono fun _ _ _ h => ?_
    exact ⟨h.1.trans (activity_moved w.memory hm p), fun hapart => h.2 (by rwa [hstore])⟩

end React

end Runs

end Count

end FiniteDomain
