import Mathlib.Tactic
import FiniteDomain.Proofs.Store.Assignment
import FiniteDomain.Propagator.Basic

/-!
Valid explanations.

An explanation of a request is judged by the domains just before and just after it,
and by the constraint in whose name the request was made.

* `Store.Site`: a request at a position, granted or refused;
* `Store.Explains`: the explanation is valid, which means that its literals are
  false before the request, that its pivot keeps no more than the request did, and
  that it follows from the constraint;
* `Explanation.foldl_literals`, `Explanation.parted_partition`: the two ways in which
  explanations are collected from lists;
* `Store.explains_of_literals`: explanations whose pivot says what was requested;
* `Store.explains_explainByScope`: the explanation that is open to any propagator.
-/

namespace FiniteDomain

namespace Explanation

variable {e : Explanation} {values : VarId → Int}

/-- A walk that adds literals and leaves the pivot. -/
lemma foldl_literals {α : Type} (step : Explanation → α → Explanation) (lits : α → List Literal)
    (h : ∀ e a, step e a = ⟨e.literals ++ lits a, e.pivot⟩) (as : List α) (e : Explanation) :
    as.foldl step e = ⟨e.literals ++ as.flatMap lits, e.pivot⟩ := by
  induction as generalizing e with
  | nil => simp
  | cons a as ih => rw [List.foldl_cons, ih, h, List.flatMap_cons, List.append_assoc]

lemma addNonempty_eq (e : Explanation) (v : VarId) (d : IntervalSet) :
    e.addNonempty v d = ⟨e.literals ++ if d.isEmpty then [] else [⟨v, d⟩], e.pivot⟩ := by
  rw [addNonempty]
  split
  · rw [List.append_nil]
  · rfl

/-- The first pivot. -/
lemma addPivot_of_none {v : VarId} {d : IntervalSet} (h : e.pivot = none) :
    e.addPivot v d = ⟨e.literals, some ⟨v, d⟩⟩ := by
  rw [addPivot, h]

/-- What an explanation says, split into the literals and the pivot. -/
lemma holds_iff : e.Holds values ↔
    (∃ l ∈ e.literals, l.Holds values) ∨ ∃ l, e.pivot = some l ∧ l.Holds values := by
  rw [Holds, clause, Clause.holds_append]
  refine or_congr Iff.rfl ?_
  cases e.pivot with
  | none => simp [Clause.not_holds_nil]
  | some p => simp [Clause.holds_cons, Clause.not_holds_nil]

lemma mem_clause {l : Literal} : l ∈ e.clause ↔ l ∈ e.literals ∨ e.pivot = some l := by
  rw [clause, List.mem_append, Option.mem_toList]

/-- A walk that makes the literals on one variable the pivot, and adds the others. -/
def partition (x : VarId) (ls : List Literal) : Explanation :=
  ls.foldl (fun e l =>
    if l.var = x then e.addPivot l.var l.allowed else e.add l.var l.allowed) {}

/-- Of some literals, those on a variable make up the pivot, and the others are kept. -/
structure Parted (x : VarId) (ls : List Literal) (e : Explanation) : Prop where
  literals : ∀ l, l ∈ e.literals ↔ l ∈ ls ∧ l.var ≠ x
  absent : e.pivot = none → ∀ l ∈ ls, l.var ≠ x
  pivot : ∀ p, e.pivot = some p →
    p.var = x ∧ ∀ k, k ∈ p.allowed ↔ ∃ l ∈ ls, l.var = x ∧ k ∈ l.allowed

namespace Parted

variable {x : VarId} {ls : List Literal} {l : Literal}

/-- A literal on another variable. -/
lemma add (h : Parted x ls e) (hvar : l.var ≠ x) :
    Parted x (ls ++ [l]) (e.add l.var l.allowed) := by
  have hmem : ∀ k, (∃ l' ∈ ls ++ [l], l'.var = x ∧ k ∈ l'.allowed) ↔
      ∃ l' ∈ ls, l'.var = x ∧ k ∈ l'.allowed := by
    intro k
    simp [or_and_right, exists_or, hvar]
  refine ⟨fun k => ?_, fun hnone k hk => ?_, fun p hp => ?_⟩
  · simp only [Explanation.add, List.mem_append, List.mem_singleton, h.literals]
    refine ⟨?_, ?_⟩
    · rintro (h | rfl)
      · exact ⟨.inl h.1, h.2⟩
      · exact ⟨.inr rfl, hvar⟩
    · rintro ⟨h | rfl, hne⟩
      · exact .inl ⟨h, hne⟩
      · exact .inr rfl
  · rcases List.mem_append.1 hk with hk | hk
    · exact h.absent hnone k hk
    · rwa [List.mem_singleton.1 hk]
  · simp only [hmem]
    exact h.pivot p hp

/-- Another literal on the variable. -/
lemma addPivot (h : Parted x ls e) (hvar : l.var = x) :
    Parted x (ls ++ [l]) (e.addPivot l.var l.allowed) := by
  subst hvar
  have hmem : ∀ k, (∃ l' ∈ ls ++ [l], l'.var = l.var ∧ k ∈ l'.allowed) ↔
      (∃ l' ∈ ls, l'.var = l.var ∧ k ∈ l'.allowed) ∨ k ∈ l.allowed := by
    intro k
    simp [or_and_right, exists_or]
  have hlits : ∀ k, k ∈ e.literals ↔ k ∈ ls ++ [l] ∧ k.var ≠ l.var := by
    intro k
    rw [h.literals, List.mem_append, List.mem_singleton]
    refine ⟨fun h => ⟨.inl h.1, h.2⟩, ?_⟩
    rintro ⟨h | rfl, hne⟩
    · exact ⟨h, hne⟩
    · exact absurd rfl hne
  cases hold : e.pivot with
  | none =>
    rw [addPivot_of_none hold]
    refine ⟨hlits, fun hnone => ?_, fun p hp => ?_⟩
    · cases hnone
    · cases hp
      refine ⟨rfl, fun k => ?_⟩
      rw [hmem, or_iff_right]
      rintro ⟨l', hl', hvar, -⟩
      exact h.absent hold l' hl' hvar
  | some q =>
    obtain ⟨hq, hqmem⟩ := h.pivot q hold
    have hunion : e.addPivot l.var l.allowed =
        ⟨e.literals, some ⟨l.var, q.allowed ∪ l.allowed⟩⟩ := by
      rw [Explanation.addPivot, hold]
      exact if_pos hq
    rw [hunion]
    refine ⟨hlits, fun hnone => ?_, fun p hp => ?_⟩
    · cases hnone
    · cases hp
      refine ⟨rfl, fun k => ?_⟩
      rw [hmem, IntervalSet.mem_union, hqmem]

/-- There is a pivot if there is a literal on the variable. -/
lemma exists_pivot (h : Parted x ls e) (hl : l ∈ ls) (hvar : l.var = x) :
    ∃ d, e.pivot = some ⟨x, d⟩ ∧ ∀ k, k ∈ d ↔ ∃ l ∈ ls, l.var = x ∧ k ∈ l.allowed := by
  cases hp : e.pivot with
  | none => exact absurd hvar (h.absent hp l hl)
  | some q =>
    obtain ⟨y, d⟩ := q
    obtain ⟨rfl, hmem⟩ := h.pivot _ hp
    exact ⟨d, rfl, hmem⟩

end Parted

lemma parted_partition (x : VarId) (ls : List Literal) : Parted x ls (partition x ls) := by
  induction ls using List.reverseRecOn with
  | nil =>
    refine ⟨fun l => ?_, fun _ l hl => absurd hl List.not_mem_nil, fun p hp => by cases hp⟩
    simp [partition]
  | append_singleton ls l ih =>
    rw [partition, List.foldl_append, List.foldl_cons, List.foldl_nil, ← partition]
    split
    · rename_i hvar
      exact ih.addPivot hvar
    · rename_i hvar
      exact ih.add hvar

end Explanation

namespace Store

variable {s : Store} {p : Nat} {r : Request} {c : Constraint} {x : Explanation}

/-- A request stands at a position: what satisfied it was kept, and some value did
not satisfy it. -/
structure Site (s : Store) (p : Nat) (r : Request) : Prop where
  has : s.has r.var = true
  kept : ∀ k, k ∈ s.domainAt r.var p → r.operation.Holds k → k ∈ s.domainAfter r.var p
  lost : ∃ k, k ∈ s.domainAt r.var p ∧ ¬ r.operation.Holds k

/-- The explanation of a request at a position is valid for a constraint. -/
structure Explains (s : Store) (c : Constraint) (p : Nat) (r : Request) (x : Explanation) :
    Prop where
  has : ∀ l ∈ x.clause, s.has l.var = true
  falsified : ∀ l ∈ x.literals, ∀ k, k ∈ l.allowed → k ∉ s.domainAt l.var p
  pivot : ∃ l, x.pivot = some l ∧ l.var = r.var ∧
    ∀ k, k ∈ l.allowed → k ∈ s.domainAt r.var p → k ∈ s.domainAfter r.var p
  implied : ∀ ρ, s.Initial ρ → c.Holds (s.value ρ) → x.Holds (s.value ρ)

/-- An update on the trail is a site. -/
lemma WellFormed.site (w : s.WellFormed) {u : Update} (hu : s.trail.entries[p]? = some u) :
    s.Site p u.request := by
  have hn := w.update p u hu
  have hlt : p < s.length := (Array.getElem?_eq_some_iff.1 hu).1
  refine ⟨hn.has, fun k hk hop => ?_, hn.exists_not_holds w⟩
  rw [domainAfter, if_neg (Nat.ne_of_lt hlt)]
  exact (hn.mem_iff w).2 ⟨hk, hop⟩

/-- A request that no value satisfies is a site behind the trail. -/
lemma WellFormed.site_length (w : s.WellFormed) (hv : s.has r.var = true)
    (hno : ∀ k, k ∈ s.domain r.var → ¬ r.operation.Holds k) : s.Site s.length r := by
  rw [w.domain_eq] at hno
  obtain ⟨k, hk⟩ := w.domainAt_nonempty (q := s.length) hv
  exact ⟨hv, fun k hk hop => absurd hop (hno k hk), k, hk, hno k hk⟩

/-- A lower bound that some value does not satisfy is not the least value. -/
lemma Site.below_eq {v : VarId} {k : Int} {cause : Option PropId}
    (h : s.Site p ⟨v, .atLeast k, cause⟩) (w : s.WellFormed) : Value.below k = k - 1 := by
  obtain ⟨x, hx, hno⟩ := h.lost
  have hle := (w.domainAt_inRange h.has x hx).1
  have hlt : x < k := Int.not_le.1 hno
  exact Value.below_of_gt (hle.trans_lt hlt)

/-- An upper bound that some value does not satisfy is not the greatest value. -/
lemma Site.above_eq {v : VarId} {k : Int} {cause : Option PropId}
    (h : s.Site p ⟨v, .atMost k, cause⟩) (w : s.WellFormed) : Value.above k = k + 1 := by
  obtain ⟨x, hx, hno⟩ := h.lost
  have hle := (w.domainAt_inRange h.has x hx).2
  have hlt : k < x := Int.not_le.1 hno
  exact Value.above_of_lt (hlt.trans_le hle)

/-- An explanation whose pivot allows the initial values that satisfy the request. -/
lemma explains_of_literals (w : s.WellFormed) (site : s.Site p r) {d : IntervalSet}
    (hpivot : x.pivot = some ⟨r.var, d⟩)
    (hd : ∀ k, k ∈ d ↔ k ∈ s.initial r.var ∧ r.operation.Holds k)
    (hlits : ∀ l ∈ x.literals, s.has l.var = true ∧ ∀ k, k ∈ l.allowed → k ∉ s.domainAt l.var p)
    (himplied : ∀ ρ, s.Initial ρ → c.Holds (s.value ρ) →
      (∀ l ∈ x.literals, ¬ l.Holds (s.value ρ)) → r.operation.Holds (s.value ρ r.var)) :
    s.Explains c p r x := by
  refine ⟨fun l hl => ?_, fun l hl => (hlits l hl).2, ⟨_, hpivot, rfl, fun k hk hin => ?_⟩,
    fun ρ hρ hc => ?_⟩
  · rcases Explanation.mem_clause.1 hl with hl | hl
    · exact (hlits l hl).1
    · rw [hpivot] at hl
      cases hl
      exact site.has
  · exact site.kept k hin ((hd k).1 hk).2
  · rw [Explanation.holds_iff]
    by_cases hlit : ∃ l ∈ x.literals, l.Holds (s.value ρ)
    · exact .inl hlit
    · have hop := himplied ρ hρ hc fun l hl hholds => hlit ⟨l, hl, hholds⟩
      exact .inr ⟨_, hpivot, (hd _).2 ⟨w.value_mem_initial hρ site.has, hop⟩⟩

lemma mem_removedBefore {v : VarId} {k : Int} :
    k ∈ s.removedBefore v p ↔ k ∈ s.initial v ∧ k ∉ s.domainAt v p := by
  rw [removedBefore, IntervalSet.mem_diff]

/-- The explanation by a scope: what the other variables lost, and what the variable of the
request lost or keeps. -/
lemma explainByScope_spec {scope : List VarId} (hmem : r.var ∈ scope) :
    (∀ l, l ∈ (s.explainByScope p r scope).literals ↔
      ∃ v ∈ scope, v ≠ r.var ∧ l = ⟨v, s.removedBefore v p⟩) ∧
    ∃ d, (s.explainByScope p r scope).pivot = some ⟨r.var, d⟩ ∧
      ∀ k, k ∈ d ↔ k ∈ s.removedBefore r.var p ∨ k ∈ s.domainAfter r.var p := by
  let part : VarId → Literal := fun v =>
    ⟨v, if v = r.var then s.removedBefore v p ∪ s.domainAfter v p else s.removedBefore v p⟩
  have heq : s.explainByScope p r scope = Explanation.partition r.var (scope.map part) := by
    rw [explainByScope, Explanation.partition, List.foldl_map]
    congr 1
    funext e v
    simp only [part]
    split <;> rfl
  have hparted := Explanation.parted_partition r.var (scope.map part)
  rw [← heq] at hparted
  obtain ⟨d, hd, hdmem⟩ := hparted.exists_pivot (l := part r.var) (List.mem_map_of_mem hmem) rfl
  refine ⟨fun l => ?_, d, hd, fun k => ?_⟩
  · rw [hparted.literals, List.mem_map]
    constructor
    · rintro ⟨⟨v, hv, rfl⟩, hne⟩
      have hne : v ≠ r.var := hne
      exact ⟨v, hv, hne, by simp only [part, if_neg hne]⟩
    · rintro ⟨v, hv, hne, rfl⟩
      exact ⟨⟨v, hv, by simp only [part, if_neg hne]⟩, hne⟩
  · rw [hdmem, ← IntervalSet.mem_union]
    constructor
    · rintro ⟨l', hl', hvar, hk⟩
      obtain ⟨v, hv, rfl⟩ := List.mem_map.1 hl'
      have hvar : v = r.var := hvar
      simpa only [part, hvar, if_true] using hk
    · intro hk
      refine ⟨part r.var, List.mem_map_of_mem hmem, rfl, ?_⟩
      simpa only [part, if_true] using hk

/-- What a scope lost explains every request that the domains of the scope force. -/
lemma explains_explainByScope (w : s.WellFormed) (site : s.Site p r) {scope : List VarId}
    (hscope : ∀ v ∈ scope, s.has v = true) (hmem : r.var ∈ scope)
    (hforced : ∀ ρ, s.Initial ρ → c.Holds (s.value ρ) →
      (∀ v ∈ scope, s.value ρ v ∈ s.domainAt v p) → r.operation.Holds (s.value ρ r.var)) :
    s.Explains c p r (s.explainByScope p r scope) := by
  obtain ⟨hlits, d, hd, hdmem⟩ := explainByScope_spec (s := s) (p := p) hmem
  refine ⟨fun l hl => ?_, fun l hl k hk => ?_, ⟨_, hd, rfl, fun k hk hin => ?_⟩,
    fun ρ hρ hc => ?_⟩
  · rcases Explanation.mem_clause.1 hl with hl | hl
    · obtain ⟨v, hv, -, rfl⟩ := (hlits l).1 hl
      exact hscope v hv
    · rw [hd] at hl
      cases hl
      exact site.has
  · obtain ⟨v, -, -, rfl⟩ := (hlits l).1 hl
    exact (mem_removedBefore.1 hk).2
  · exact ((hdmem k).1 hk).resolve_left fun hlost => (mem_removedBefore.1 hlost).2 hin
  · -- unless some literal holds, the assignment lies in the domains of the scope
    by_contra hno
    rw [Explanation.holds_iff, not_or] at hno
    obtain ⟨hnolit, hnopivot⟩ := hno
    have hin : ∀ v ∈ scope, s.value ρ v ∈ s.domainAt v p := by
      intro v hv
      by_contra hout
      have hlost : s.value ρ v ∈ s.removedBefore v p :=
        mem_removedBefore.2 ⟨w.value_mem_initial hρ (hscope v hv), hout⟩
      by_cases hvr : v = r.var
      · subst hvr
        exact hnopivot ⟨_, hd, (hdmem _).2 (.inl hlost)⟩
      · exact hnolit ⟨_, (hlits _).2 ⟨v, hv, hvr, rfl⟩, hlost⟩
    have hop := hforced ρ hρ hc hin
    exact hnopivot ⟨_, hd, (hdmem _).2 (.inr (site.kept _ (hin r.var hmem) hop))⟩

end Store

end FiniteDomain
