import Mathlib.Tactic
import FiniteDomain.Assoc
import FiniteDomain.Event

/-!
Entries of association lists.

Pairs come in one after another, and those for one key are merged.  No key is listed twice, so an
entry is what is found for its key; and where the values are sets of events, an event is found
for a key if it was there or came in for it.

* `Assoc.nodup_keys_joinAll`: keys are listed once;
* `Assoc.mem_iff_find?`: entries are what is found;
* `Assoc.exists_joinAll`: what comes in for a key is part of what is kept;
* `Assoc.forall_joinAll`: a property of all that comes in is one of all that is kept;
* `Assoc.heard`: the events that are kept for a key, with `Assoc.mem_heard_joinAll`.
-/

namespace FiniteDomain

namespace Assoc

variable {κ α : Type} [DecidableEq κ] {f : α → α → α} {P : α → Prop} {k k' : κ} {a : α}
  {l new : Assoc κ α}

/-! ### Keys -/

lemma nodup_keys_join (h : (keys l).Nodup) : (keys (join f k a l)).Nodup := by
  rw [keys_join]
  split
  · exact h
  · rename_i hk
    exact List.concat_eq_append ▸ h.concat hk

lemma nodup_keys_joinAll (h : (keys l).Nodup) (new : Assoc κ α) :
    (keys (joinAll f new l)).Nodup := by
  induction new generalizing l with
  | nil => exact h
  | cons e new ih => exact ih (nodup_keys_join h)

omit [DecidableEq κ] in
lemma mem_keys : k ∈ keys l ↔ ∃ a, (k, a) ∈ l := by
  rw [keys, List.mem_map]
  constructor
  · rintro ⟨⟨k, a⟩, h, rfl⟩
    exact ⟨a, h⟩
  · rintro ⟨a, h⟩
    exact ⟨_, h, rfl⟩

lemma find?_of_not_mem_keys (h : k ∉ keys l) : find? k l = none := by
  induction l with
  | nil => rfl
  | cons e l ih =>
    obtain ⟨hne, hl⟩ := not_or.1 fun hk => h (List.mem_cons.2 hk)
    rw [find?, if_neg (Ne.symm hne), ih hl]

/-- An entry is what is found for its key. -/
lemma mem_iff_find? (h : (keys l).Nodup) : (k, a) ∈ l ↔ find? k l = some a := by
  induction l with
  | nil => exact iff_of_false List.not_mem_nil nofun
  | cons e l ih =>
    obtain ⟨hfresh, hnodup⟩ := List.nodup_cons.1 h
    rw [List.mem_cons, find?, ih hnodup]
    split
    · rename_i hk
      subst hk
      rw [find?_of_not_mem_keys hfresh]
      simp [Prod.ext_iff, eq_comm]
    · rename_i hk
      have hne : (k, a) ≠ e := fun he => hk (he ▸ rfl)
      rw [or_iff_right hne]

/-! ### Merged entries -/

/-- What is kept for a key keeps a property that survives merging. -/
lemma exists_join_of_exists (hP : ∀ a b, P b → P (f b a)) (h : ∃ b, (k', b) ∈ l ∧ P b) :
    ∃ b, (k', b) ∈ join f k a l ∧ P b := by
  obtain ⟨b, hb, hPb⟩ := h
  induction l with
  | nil => cases hb
  | cons e l ih =>
    by_cases he : e.1 = k
    · rcases List.mem_cons.1 hb with hb | hb
      · subst hb
        exact ⟨f b a, by simp_all [join], hP a b hPb⟩
      · exact ⟨b, by simp [join, he, hb], hPb⟩
    · rcases List.mem_cons.1 hb with hb | hb
      · subst hb
        exact ⟨b, by simp_all [join], hPb⟩
      · obtain ⟨b', hb', hPb'⟩ := ih hb
        exact ⟨b', by simp [join, he, hb'], hPb'⟩

/-- What comes in for a key is part of what is kept. -/
lemma exists_join_self (hP : ∀ a b, P a → P (f b a)) (ha : P a) (l : Assoc κ α) :
    ∃ b, (k, b) ∈ join f k a l ∧ P b := by
  induction l with
  | nil => exact ⟨a, by simp [join], ha⟩
  | cons e l ih =>
    by_cases he : e.1 = k
    · exact ⟨f e.2 a, by simp [join, he], hP a e.2 ha⟩
    · obtain ⟨b, hb, hPb⟩ := ih
      exact ⟨b, by simp [join, he, hb], hPb⟩

lemma exists_joinAll_of_exists (hP : ∀ a b, P b → P (f b a)) (new : Assoc κ α)
    (h : ∃ b, (k, b) ∈ l ∧ P b) : ∃ b, (k, b) ∈ joinAll f new l ∧ P b := by
  induction new generalizing l with
  | nil => exact h
  | cons e new ih => exact ih (exists_join_of_exists hP h)

lemma exists_joinAll (hl : ∀ a b, P b → P (f b a)) (hr : ∀ a b, P a → P (f b a))
    (h : (k, a) ∈ new) (ha : P a) : ∃ b, (k, b) ∈ joinAll f new l ∧ P b := by
  induction new generalizing l with
  | nil => cases h
  | cons e new ih =>
    rcases List.mem_cons.1 h with he | h
    · subst he
      have hself := exists_join_self (k := k) hr ha l
      exact exists_joinAll_of_exists hl new hself
    · exact ih h

lemma forall_join (hP : ∀ a b, P b → P (f b a)) (h : ∀ e ∈ l, P e.2) (ha : P a) :
    ∀ e ∈ join f k a l, P e.2 := by
  induction l with
  | nil =>
    intro e he
    rw [join, List.mem_singleton] at he
    exact he ▸ ha
  | cons x l ih =>
    obtain ⟨hx, hl⟩ := List.forall_mem_cons.1 h
    rw [join]
    split
    · exact List.forall_mem_cons.2 ⟨hP a _ hx, hl⟩
    · exact List.forall_mem_cons.2 ⟨hx, ih hl⟩

/-- What is kept has a property that all values had and that survives merging. -/
lemma forall_joinAll (hP : ∀ a b, P b → P (f b a)) (h : ∀ e ∈ l, P e.2)
    (hnew : ∀ e ∈ new, P e.2) : ∀ e ∈ joinAll f new l, P e.2 := by
  induction new generalizing l with
  | nil => exact h
  | cons x new ih =>
    obtain ⟨hx, hnew⟩ := List.forall_mem_cons.1 hnew
    exact ih (forall_join hP h hx) hnew

/-! ### Sets of events -/

section Events

variable {l new : Assoc κ EventSet} {set : EventSet} {e : Event}

/-- The events that are kept for a key. -/
def heard (l : Assoc κ EventSet) (k : κ) : EventSet := (find? k l).getD ∅

lemma heard_cons_self : heard ((k, set) :: l) k = set := by
  rw [heard, find?, if_pos rfl]
  rfl

lemma heard_of_mem (h : (keys l).Nodup) (hmem : (k, set) ∈ l) : heard l k = set := by
  rw [heard, (mem_iff_find? h).1 hmem]
  rfl

/-- No events are kept for a key that is not listed. -/
lemma heard_of_not_mem_keys (h : k ∉ keys l) : heard l k = ∅ := by
  rw [heard, find?_of_not_mem_keys h]
  rfl

/-- Two sets of events are heard as one. -/
lemma heard_join : heard (join EventSet.union k set l) k' =
    if k' = k then heard l k' ∪ set else heard l k' := by
  rw [heard, heard, find?_join]
  split
  · rename_i hk
    subst hk
    cases find? k' l <;> rfl
  · rfl

/-- An event was heard of before, or is among those that come in. -/
lemma mem_heard_joinAll : e ∈ heard (joinAll EventSet.union new l) k ↔
    e ∈ heard l k ∨ ∃ set, (k, set) ∈ new ∧ e ∈ set := by
  induction new generalizing l with
  | nil => simp [joinAll]
  | cons x new ih =>
    obtain ⟨k', set⟩ := x
    refine ih.trans ?_
    rw [heard_join]
    by_cases hk : k = k'
    · subst hk
      simp [EventSet.mem_union, or_and_right, exists_or, or_assoc]
    · simp [hk]

end Events

end Assoc

end FiniteDomain
