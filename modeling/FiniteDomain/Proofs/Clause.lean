import Mathlib.Tactic
import FiniteDomain.Literal

/-!
The values that clauses allow.

Resolution works on clauses root by root.  What it does is described by the values that
a clause allows each variable, whichever literals they come from.

* `Clause.Allows`: a clause allows a variable a value, with `Clause.allows_add`,
  `Clause.allows_addAll` and others for the operations on clauses;
* `Clause.Distinct`: each variable has one literal at most, so that
  `Clause.allowed?` finds all values that are allowed.
-/

namespace FiniteDomain

namespace Clause

variable {v w : VarId} {k : Int} {l : Literal} {c d : Clause}

/-- Some literal of the clause allows the variable the value. -/
def Allows (c : Clause) (v : VarId) (k : Int) : Prop := ∃ l ∈ c, l.var = v ∧ k ∈ l.allowed

/-- The literals are on different variables. -/
def Distinct (c : Clause) : Prop := (c.map Literal.var).Nodup

lemma holds_iff_allows {values : VarId → Int} :
    c.Holds values ↔ ∃ v, c.Allows v (values v) := by
  constructor
  · rintro ⟨l, hl, hk⟩
    exact ⟨l.var, l, hl, rfl, hk⟩
  · rintro ⟨v, l, hl, rfl, hk⟩
    exact ⟨l, hl, hk⟩

/-- A clause is about the variables of its literals. -/
lemma holds_congr {values values' : VarId → Int} (h : ∀ l ∈ c, values l.var = values' l.var) :
    c.Holds values ↔ c.Holds values' := by
  refine exists_congr fun l => and_congr_right fun hl => ?_
  rw [Literal.Holds, Literal.Holds, h l hl]

lemma holds_reverse {values : VarId → Int} : Holds values c.reverse ↔ c.Holds values := by
  simp only [Holds, List.mem_reverse]

lemma not_allows_nil : ¬ Allows [] v k := by
  rintro ⟨l, hl, -⟩
  cases hl

lemma allows_cons : Allows (l :: c) v k ↔ (l.var = v ∧ k ∈ l.allowed) ∨ Allows c v k := by
  simp [Allows]

lemma allows_add : Allows (add l c) v k ↔ (l.var = v ∧ k ∈ l.allowed) ∨ Allows c v k := by
  induction c with
  | nil => rw [add, allows_cons]
  | cons k' c ih =>
    rw [add]
    split
    · rename_i h
      rw [allows_cons, allows_cons, IntervalSet.mem_union, h]
      tauto
    · rw [allows_cons, allows_cons, ih, or_left_comm]

lemma allows_addAll : Allows (addAll d c) v k ↔ Allows d v k ∨ Allows c v k := by
  induction d generalizing c with
  | nil => simp [addAll, not_allows_nil]
  | cons l d ih =>
    rw [addAll, List.foldl_cons, ← addAll, ih, allows_add, allows_cons, or_left_comm, or_assoc]

lemma allows_nonempty : Allows c.nonempty v k ↔ Allows c v k := by
  constructor
  · rintro ⟨l, hl, h⟩
    exact ⟨l, (List.mem_filter.1 hl).1, h⟩
  · rintro ⟨l, hl, hv, hk⟩
    refine ⟨l, List.mem_filter.2 ⟨hl, ?_⟩, hv, hk⟩
    rw [IntervalSet.isEmpty_eq_false_iff.2 ⟨k, hk⟩, Bool.not_false]

lemma allows_sorted : Allows c.sorted v k ↔ Allows c v k := by
  simp only [Allows, mem_sorted]

lemma allows_without : Allows (c.without w) v k ↔ v ≠ w ∧ Allows c v k := by
  constructor
  · rintro ⟨l, hl, rfl, hk⟩
    obtain ⟨hl, hne⟩ := List.mem_filter.1 hl
    exact ⟨by simpa using hne, l, hl, rfl, hk⟩
  · rintro ⟨hne, l, hl, rfl, hk⟩
    exact ⟨l, List.mem_filter.2 ⟨hl, by simpa using hne⟩, rfl, hk⟩

/-! ### One literal for each variable -/

/-- A literal of the clause allows all that the clause allows its variable. -/
lemma Distinct.allows_iff (h : c.Distinct) (hl : l ∈ c) :
    Allows c l.var k ↔ k ∈ l.allowed := by
  refine ⟨?_, fun hk => ⟨l, hl, rfl, hk⟩⟩
  rintro ⟨l', hl', hvar, hk⟩
  rwa [← List.inj_on_of_nodup_map h hl' hl hvar]

lemma mem_allowed? (h : c.Distinct) : k ∈ (c.allowed? v).getD ∅ ↔ Allows c v k := by
  cases hfind : c.find? fun l => decide (l.var = v) with
  | none =>
    rw [allowed?, hfind]
    refine iff_of_false IntervalSet.not_mem_empty ?_
    rintro ⟨l, hl, hvar, -⟩
    exact List.find?_eq_none.1 hfind l hl (decide_eq_true hvar)
  | some l =>
    have hvar : l.var = v := by simpa using List.find?_some hfind
    rw [allowed?, hfind, ← hvar, h.allows_iff (List.mem_of_find?_eq_some hfind)]
    rfl

lemma map_var_add : (add l c).map Literal.var =
    if l.var ∈ c.map Literal.var then c.map Literal.var else c.map Literal.var ++ [l.var] := by
  induction c with
  | nil => rfl
  | cons k c ih =>
    rw [add]
    split
    · rename_i h
      simp [h]
    · rename_i h
      rw [List.map_cons, ih, List.map_cons]
      have hmem : l.var ∈ k.var :: c.map Literal.var ↔ l.var ∈ c.map Literal.var := by
        rw [List.mem_cons, or_iff_right (Ne.symm h)]
      by_cases hin : l.var ∈ c.map Literal.var
      · rw [if_pos hin, if_pos (hmem.2 hin)]
      · rw [if_neg hin, if_neg (mt hmem.1 hin), List.cons_append]

lemma add_of_not_mem (h : l.var ∉ c.map Literal.var) : add l c = c ++ [l] := by
  induction c with
  | nil => rfl
  | cons k c ih =>
    rw [List.map_cons, List.mem_cons, not_or] at h
    rw [add, if_neg (Ne.symm h.1), ih h.2, List.cons_append]

/-- Literals on different variables are not merged. -/
lemma addAll_of_distinct (h : (c ++ d).Distinct) : addAll d c = c ++ d := by
  induction d generalizing c with
  | nil => simp [addAll]
  | cons l d ih =>
    rw [List.append_cons] at h ⊢
    rw [addAll, List.foldl_cons, ← addAll, add_of_not_mem, ih h]
    intro hmem
    rw [Distinct, List.map_append, List.map_append] at h
    have hdisjoint := List.disjoint_of_nodup_append (List.nodup_append.1 h).1
    exact hdisjoint hmem (List.mem_singleton_self _)

lemma mem_map_var_addAll :
    v ∈ (addAll d c).map Literal.var ↔ v ∈ d.map Literal.var ∨ v ∈ c.map Literal.var := by
  induction d generalizing c with
  | nil => simp [addAll]
  | cons l d ih =>
    rw [addAll, List.foldl_cons, ← addAll, ih, map_var_add, List.map_cons, List.mem_cons]
    split
    · rename_i h
      refine ⟨?_, ?_⟩
      · exact fun hv => hv.imp_left .inr
      · rintro ((rfl | hv) | hv)
        · exact .inr h
        · exact .inl hv
        · exact .inr hv
    · rw [List.mem_append, List.mem_singleton]
      tauto

lemma Distinct.add (h : c.Distinct) (l : Literal) : (Clause.add l c).Distinct := by
  rw [Distinct, map_var_add]
  split
  · exact h
  · rename_i hnot
    refine List.nodup_append'.2 ⟨h, List.nodup_singleton _, ?_⟩
    rwa [List.disjoint_singleton]

lemma Distinct.addAll (h : c.Distinct) (d : Clause) : (Clause.addAll d c).Distinct := by
  induction d generalizing c with
  | nil => exact h
  | cons l d ih => exact ih (h.add l)

lemma distinct_nil : Distinct [] := List.nodup_nil

lemma Distinct.filter (h : c.Distinct) (p : Literal → Bool) : Distinct (c.filter p) :=
  h.sublist (List.filter_sublist.map Literal.var)

lemma Distinct.sorted (h : c.Distinct) : c.sorted.Distinct :=
  ((List.mergeSort_perm c _).map Literal.var).nodup_iff.2 h

/-- Changed values stay with their variables. -/
lemma Distinct.map (h : c.Distinct) {f : Literal → Literal} (hf : ∀ l, (f l).var = l.var) :
    Distinct (c.map f) := by
  rwa [Distinct, List.map_map, show Literal.var ∘ f = Literal.var from funext hf]

end Clause

end FiniteDomain
