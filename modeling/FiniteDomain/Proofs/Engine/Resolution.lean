import Mathlib.Tactic
import FiniteDomain.Proofs.Clause
import FiniteDomain.Proofs.Engine.Explanation
import FiniteDomain.Proofs.Store.Falsification

/-!
Resolution of conflicts.

One round replaces the literal that the latest propagated update made false by the
reasons for that update.

* `Resolution.round`, `Resolution.positions`: one round, and the positions that are
  resolved one after another;
* `Resolution.allows_reason`, `Resolution.allows_resolve`: the values that reasons and
  resolvents allow;
* `Resolution.Caused`: a propagator asked for an update, with `Resolution.caused?_eq_some`
  and `Resolution.latest?_eq_some` for the update that a round resolves;
* `Resolution.Round`: what a round works on, with `Resolution.round_eq_some` and
  `Resolution.round_eq_none`, and `Resolution.loop_keeps`: an invariant of one round holds of the
  clause in the end.
-/

namespace FiniteDomain

namespace Resolution

variable {e : Engine} {s : Store} {c c' : Clause} {l : Literal} {v root : VarId} {k : Int}
  {p n : Nat} {x : Explanation}

/-! ### Rounds -/

/-- One round: the position that is resolved, and the clause that is left. -/
def round (e : Engine) (c : Clause) : Option (Nat × Clause) :=
  match latest? e.store (standing e.store c) with
  | none => none
  | some (p, root, r) =>
    (e.explanationOf p r).map fun x => (p, resolve e.store x root (standing e.store c))

/-- The positions that are resolved, one for each round. -/
def positions (e : Engine) : Nat → Clause → List Nat
  | 0, _ => []
  | n + 1, c =>
    match round e c with
    | none => []
    | some (p, c') => p :: positions e n c'

lemma loop_of_latest_none (h : latest? e.store (standing e.store c) = none) :
    loop e (n + 1) c = .ok (some (standing e.store c)) := by
  rw [loop, h]

lemma loop_of_round_some (h : round e c = some (p, c')) : loop e (n + 1) c = loop e n c' := by
  rw [loop]
  rw [round] at h
  split
  · rename_i hlatest
    rw [hlatest] at h
    cases h
  · rename_i p' root r hlatest
    rw [hlatest] at h
    obtain ⟨x, hx, heq⟩ := Option.map_eq_some_iff.1 h
    cases heq
    rw [hx]

/-! ### Values that are allowed -/

/-- All variables of the clause are roots. -/
def OnRoots (s : Store) (c : Clause) : Prop := ∀ v ∈ c.map Literal.var, s.IsRoot v

lemma OnRoots.isRoot (h : OnRoots s c) (hl : l ∈ c) : s.IsRoot l.var :=
  h l.var (List.mem_map_of_mem hl)

lemma OnRoots.filter (h : OnRoots s c) (f : Literal → Bool) : OnRoots s (c.filter f) :=
  fun v hv => h v ((List.filter_sublist.map Literal.var).subset hv)

lemma OnRoots.addAll {d : Clause} (h : OnRoots s c) (hd : OnRoots s d) :
    OnRoots s (Clause.addAll d c) :=
  fun v hv => (Clause.mem_map_var_addAll.1 hv).elim (hd v) (h v)

lemma distinct_reason : (reason s x).Distinct := Clause.distinct_nil.addAll _

lemma allows_reason : (reason s x).Allows v k ↔
    ∃ l ∈ x.clause, s.root l.var = v ∧ k ∈ (s.onRoot l).allowed := by
  rw [reason, Clause.allows_addAll, or_iff_left Clause.not_allows_nil]
  constructor
  · rintro ⟨l', hl', hv, hk⟩
    obtain ⟨l, hl, rfl⟩ := List.mem_map.1 hl'
    exact ⟨l, hl, hv, hk⟩
  · rintro ⟨l, hl, hv, hk⟩
    exact ⟨s.onRoot l, List.mem_map_of_mem hl, hv, hk⟩

lemma onRoots_reason (w : s.WellFormed) (hx : ∀ l ∈ x.clause, s.has l.var = true) :
    OnRoots s (reason s x) := by
  refine OnRoots.addAll (fun v hv => absurd hv List.not_mem_nil) fun v hv => ?_
  obtain ⟨l', hl', rfl⟩ := List.mem_map.1 hv
  obtain ⟨l, hl, rfl⟩ := List.mem_map.1 hl'
  exact w.isRoot_root l.var (hx l hl)

/-- On the root that is resolved both clauses have to allow a value, on all others one. -/
lemma allows_resolve : (resolve s x root c).Allows v k ↔
    if v = root then c.Allows v k ∧ (reason s x).Allows v k
    else (reason s x).Allows v k ∨ c.Allows v k := by
  have hcut : Clause.Allows ((c.map fun l =>
        if l.var = root then ⟨l.var, l.allowed ∩ ((reason s x).allowed? root).getD ∅⟩ else l).filter
          fun l => decide (l.var ≠ root) || !l.allowed.isEmpty) v k ↔
      c.Allows v k ∧ (v = root → (reason s x).Allows v k) := by
    constructor
    · rintro ⟨l', hl', rfl, hk⟩
      obtain ⟨l, hl, rfl⟩ := List.mem_map.1 (List.mem_filter.1 hl').1
      by_cases hroot : l.var = root
      · rw [if_pos hroot] at hk ⊢
        obtain ⟨hk, hpivot⟩ := IntervalSet.mem_inter.1 hk
        refine ⟨⟨l, hl, rfl, hk⟩, fun _ => ?_⟩
        rwa [Clause.mem_allowed? distinct_reason, ← hroot] at hpivot
      · rw [if_neg hroot] at hk ⊢
        exact ⟨⟨l, hl, rfl, hk⟩, fun h => absurd h hroot⟩
    · rintro ⟨⟨l, hl, rfl, hk⟩, hreason⟩
      refine ⟨_, List.mem_filter.2 ⟨List.mem_map_of_mem hl, ?_⟩, ?_⟩
      · by_cases hroot : l.var = root
        · have hpivot := (Clause.mem_allowed? distinct_reason).2 (hreason hroot)
          rw [hroot] at hpivot
          rw [if_pos hroot]
          simp [IntervalSet.isEmpty_eq_false_iff.2 ⟨k, IntervalSet.mem_inter.2 ⟨hk, hpivot⟩⟩]
        · rw [if_neg hroot]
          simp [hroot]
      · by_cases hroot : l.var = root
        · have hpivot := (Clause.mem_allowed? distinct_reason).2 (hreason hroot)
          rw [hroot] at hpivot
          rw [if_pos hroot]
          exact ⟨rfl, IntervalSet.mem_inter.2 ⟨hk, hpivot⟩⟩
        · rw [if_neg hroot]
          exact ⟨rfl, hk⟩
  dsimp only [resolve]
  rw [Clause.allows_addAll, Clause.allows_nonempty, Clause.allows_without, hcut]
  split <;> tauto

lemma distinct_resolve (h : c.Distinct) : (resolve s x root c).Distinct := by
  refine Clause.Distinct.addAll (Clause.Distinct.filter (h.map fun l => ?_) _) _
  split <;> rfl

lemma onRoots_resolve (w : s.WellFormed) (h : OnRoots s c)
    (hx : ∀ l ∈ x.clause, s.has l.var = true) : OnRoots s (resolve s x root c) := by
  refine OnRoots.addAll (OnRoots.filter (fun v hv => ?_) _)
    (((onRoots_reason w hx).filter _).filter _)
  rw [List.map_map] at hv
  obtain ⟨l, hl, rfl⟩ := List.mem_map.1 hv
  have hvar : (Literal.var ∘ fun l => if l.var = root
      then (⟨l.var, l.allowed ∩ ((reason s x).allowed? root).getD ∅⟩ : Literal) else l) l
        = l.var := by
    rw [Function.comp_apply]
    split <;> rfl
  rw [hvar]
  exact h.isRoot hl

/-! ### The update to resolve -/

/-- A propagator asked for the update at the position. -/
def Caused (s : Store) (p : Nat) : Prop := ∃ r, s.request? p = some r ∧ r.cause.isSome = true

lemma position?_eq_some : position? s l = some p ↔
    s.falsified? l.var l.allowed = some p ∧ s.isRootLevel p = false := by
  rw [position?, Option.filter_eq_some_iff, Bool.not_eq_true']

lemma caused?_eq_some {u : Nat × VarId × Request} : caused? s l = some u ↔
    position? s l = some u.1 ∧ l.var = u.2.1 ∧ s.request? u.1 = some u.2.2 ∧
      u.2.2.cause.isSome = true := by
  obtain ⟨p, v, r⟩ := u
  simp only [caused?, Option.bind_eq_bind, Option.bind_eq_some_iff, Option.ite_none_right_eq_some,
    Option.some.injEq, Prod.mk.injEq]
  constructor
  · rintro ⟨p', hp, r', hr, hcause, rfl, rfl, rfl⟩
    exact ⟨hp, rfl, hr, hcause⟩
  · rintro ⟨hp, rfl, hr, hcause⟩
    exact ⟨p, hp, r, hr, hcause, rfl, rfl, rfl⟩

lemma caused?_eq_none_iff : caused? s l = none ↔
    ∀ p, position? s l = some p → ¬ Caused s p := by
  rw [Option.eq_none_iff_forall_ne_some]
  constructor
  · rintro h p hp ⟨r, hr, hcause⟩
    exact h (p, l.var, r) (caused?_eq_some.2 ⟨hp, rfl, hr, hcause⟩)
  · intro h u hu
    obtain ⟨hp, -, hr, hcause⟩ := caused?_eq_some.1 hu
    exact h u.1 hp ⟨u.2.2, hr, hcause⟩

lemma later_foldl (us : List (Nat × VarId × Request)) (u : Nat × VarId × Request) :
    us.foldl later u ∈ u :: us ∧ ∀ u' ∈ u :: us, u'.1 ≤ (us.foldl later u).1 := by
  induction us generalizing u with
  | nil => simp
  | cons a us ih =>
    obtain ⟨hmem, hmax⟩ := ih (later u a)
    have hstep : later u a = u ∨ later u a = a := by
      rw [later]
      split <;> simp
    have hle : u.1 ≤ (later u a).1 ∧ a.1 ≤ (later u a).1 := by
      rw [later]
      split <;> omega
    have hfirst := hmax _ List.mem_cons_self
    refine ⟨?_, fun u' hu' => ?_⟩
    · rw [List.foldl_cons]
      rcases List.mem_cons.1 hmem with h | h
      · rw [h]
        rcases hstep with h | h <;> simp [h]
      · exact List.mem_cons_of_mem _ (List.mem_cons_of_mem _ h)
    · rw [List.foldl_cons]
      rcases List.mem_cons.1 hu' with rfl | hu'
      · omega
      · rcases List.mem_cons.1 hu' with rfl | hu'
        · omega
        · exact hmax u' (List.mem_cons_of_mem _ hu')

lemma latest?_eq_none_iff : latest? s c = none ↔ ∀ l ∈ c, caused? s l = none := by
  rw [← List.filterMap_eq_nil_iff, latest?]
  split <;> simp_all

lemma latest?_eq_some {u : Nat × VarId × Request} (h : latest? s c = some u) :
    (∃ l ∈ c, caused? s l = some u) ∧
      ∀ l ∈ c, ∀ p, position? s l = some p → Caused s p → p ≤ u.1 := by
  rw [latest?] at h
  split at h
  · cases h
  · rename_i a us hus
    cases h
    obtain ⟨hmem, hmax⟩ := later_foldl us a
    rw [← hus] at hmem hmax
    refine ⟨List.mem_filterMap.1 hmem, fun l hl p hp hcaused => ?_⟩
    obtain ⟨r, hr, hcause⟩ := hcaused
    exact hmax (p, l.var, r)
      (List.mem_filterMap.2 ⟨l, hl, caused?_eq_some.2 ⟨hp, rfl, hr, hcause⟩⟩)

/-- A round works on a literal of the clause `c` on the variable `root`, which the update
`u` at position `p` made false for the propagator `q`; `x` explains the update. -/
structure Round (e : Engine) (c : Clause) (root : VarId) (p : Nat) (u : Update) (q : Propagator)
    (x : Explanation) : Prop where
  literal : ∃ l ∈ c, l.var = root ∧ position? e.store l = some p
  entry : e.store.trail.entries[p]? = some u
  caused : Caused e.store p
  root : u.root = root
  mem : q ∈ e.propagators
  explained : e.explanationOf p u.request = some x
  explains : e.store.Explains q.constraint p u.request x
  latest : ∀ l ∈ c, ∀ p', position? e.store l = some p' → Caused e.store p' → p' ≤ p

/-- A literal on a root became false with an update of that root. -/
lemma entry_of_position? (w : s.WellFormed) (hl : s.IsRoot l.var)
    (hp : position? s l = some p) :
    ∃ u, s.trail.entries[p]? = some u ∧ u.root = l.var ∧ s.request? p = some u.request := by
  have hpos := List.mem_of_find?_eq_some (position?_eq_some.1 hp).1
  obtain ⟨u, hu, hroot⟩ := w.position l.var hl.has p hpos
  refine ⟨u, hu, hroot.trans hl.root_eq, ?_⟩
  have hlt : p < s.length := (Array.getElem?_eq_some_iff.1 hu).1
  rw [Store.request?, if_neg (Nat.ne_of_lt hlt), hu]
  rfl

/-- The update that a round resolves has an explanation. -/
lemma exists_round (inv : e.Invariant) (hc : OnRoots e.store c) {r : Request}
    (h : latest? e.store c = some (p, root, r)) :
    ∃ u q x, e.explanationOf p r = some x ∧ Round e c root p u q x := by
  obtain ⟨⟨l, hl, hcaused⟩, hmax⟩ := latest?_eq_some h
  obtain ⟨hp, hvar, hr, hcause⟩ := caused?_eq_some.1 hcaused
  obtain ⟨u, hu, hroot, hreq⟩ := entry_of_position? inv.consistent.store (hc.isRoot hl) hp
  obtain ⟨i, hi⟩ := Option.isSome_iff_exists.1 hcause
  obtain ⟨q, hq, -, hx, hexplains⟩ := inv.explains hr hi
  obtain rfl : u.request = r := Option.some.inj (hreq.symm.trans hr)
  rw [Engine.propagator?_eq] at hq
  exact ⟨u, q, _, hx, ⟨l, hl, hvar, hp⟩, hu, ⟨_, hreq, hcause⟩, hroot.trans hvar,
    List.mem_of_getElem? hq, hx, hexplains, hmax⟩

lemma round_eq_some (inv : e.Invariant) (hc : OnRoots e.store c)
    (h : round e c = some (p, c')) :
    ∃ root u q x, Round e (standing e.store c) root p u q x ∧
      c' = resolve e.store x root (standing e.store c) := by
  rw [round] at h
  split at h
  · cases h
  · rename_i p' root r hlatest
    obtain ⟨u, q, x, hx, hround⟩ := exists_round inv (hc.filter _) hlatest
    rw [hx] at h
    cases h
    exact ⟨root, u, q, x, hround, rfl⟩

/-- Every update that a propagator asked for has an explanation, so that there is a round as long
as there is such an update. -/
lemma latest?_of_round_none (inv : e.Invariant) (hc : OnRoots e.store c) (h : round e c = none) :
    latest? e.store (standing e.store c) = none := by
  rw [round] at h
  split at h
  · assumption
  · rename_i p root r hlatest
    obtain ⟨u, q, x, hx, -⟩ := exists_round inv (hc.filter _) hlatest
    rw [hx] at h
    cases h

/-- No round is possible when no propagator made a literal false. -/
lemma round_eq_none (inv : e.Invariant) (hc : OnRoots e.store c) (h : round e c = none) :
    ∀ l ∈ standing e.store c, ∀ p, position? e.store l = some p → ¬ Caused e.store p :=
  fun l hl =>
    caused?_eq_none_iff.1 (latest?_eq_none_iff.1 (latest?_of_round_none inv hc h) l hl)

/-- The variables of the resolvent are roots. -/
lemma Round.onRoots {u : Update} {q : Propagator} (hround : Round e c root p u q x)
    (w : e.store.WellFormed) (hc : OnRoots e.store c) :
    OnRoots e.store (resolve e.store x root c) :=
  onRoots_resolve w hc hround.explains.has

lemma Round.root_request {u : Update} {q : Propagator} (hround : Round e c root p u q x)
    (w : e.store.WellFormed) : e.store.root u.request.var = root :=
  (w.update p u hround.entry).root.symm.trans hround.root

/-- What is kept by leaving literals out and by resolving holds of the clause in the end. -/
lemma loop_keeps {P : Clause → Prop} (inv : e.Invariant)
    (hstanding : ∀ c, OnRoots e.store c → P c → P (standing e.store c))
    (hresolve : ∀ c root p u q x, OnRoots e.store c → Round e c root p u q x → P c →
      P (resolve e.store x root c))
    (hroots : OnRoots e.store c) (hc : P c) (h : loop e n c = .ok (some c')) :
    OnRoots e.store c' ∧ P c' := by
  induction n generalizing c with
  | zero => cases h
  | succ n ih =>
    have hroots' : OnRoots e.store (standing e.store c) := hroots.filter _
    have hc' := hstanding c hroots hc
    cases hround : round e c with
    | none =>
      rw [loop_of_latest_none (latest?_of_round_none inv hroots hround)] at h
      cases h
      exact ⟨hroots', hc'⟩
    | some next =>
      rw [loop_of_round_some hround] at h
      obtain ⟨root, u, q, x, hspec, heq⟩ := round_eq_some inv hroots hround
      rw [heq] at h
      exact ih (hspec.onRoots inv.consistent.store hroots')
        (hresolve _ _ _ _ _ _ hroots' hspec hc') h

end Resolution

end FiniteDomain
