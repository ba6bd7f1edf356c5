import Mathlib.Tactic
import FiniteDomain.Proofs.Agenda

/-!
The agenda as one line.

As long as each propagator keeps its priority, lanes, levels and the set of those who wait are one
line, in which all stand in the order in which they came.  A newcomer goes to its end, and the
next propagator is the foremost of those whose priority is the highest.

* `Agenda.Use`, `Agenda.use`: what is done with an agenda, and `Agenda.lineUp`: with the line;
* `Agenda.foremost?`: the next one in a line;
* `Agenda.Sorts`: the lanes of the agenda are those of the line, with `Agenda.Sorts.use`: every
  use keeps this, and `Agenda.Sorts.pop_eq`: the agenda takes the next one from the line;
* `Agenda.pops_foremost`: so it is after any uses.
-/

namespace FiniteDomain

namespace Agenda

/-- What is done with an agenda. -/
inductive Use
  | enqueue (p : PropId)
  | pop
  | clear

variable (rank : PropId → Priority)

/-- The agenda after a use, if each propagator has a priority of its own. -/
def use (a : Agenda) : Use → Agenda
  | .enqueue p => a.enqueue p (rank p)
  | .pop =>
    match a.pop with
    | some (_, a') => a'
    | none => a
  | .clear => a.clear

/-- The foremost in a line among those of the highest priority. -/
def foremost? (line : List PropId) : Option PropId :=
  line.find? fun p => line.all fun p' => (rank p).level ≤ (rank p').level

/-- The line after a use.  Who stands there already keeps the place. -/
def lineUp (line : List PropId) : Use → List PropId
  | .enqueue p => if p ∈ line then line else line ++ [p]
  | .pop =>
    match foremost? rank line with
    | some p => line.erase p
    | none => line
  | .clear => []

/-- The lanes of the agenda are those of a line. -/
structure Sorts (a : Agenda) (line : List PropId) : Prop where
  wellFormed : a.WellFormed
  lane : ∀ q, a.lane q = line.filter fun p => rank p = q
  nodup : line.Nodup

variable {rank} {a : Agenda} {line : List PropId} {p : PropId} {q : Priority}

lemma sorts_empty : Sorts rank {} [] :=
  ⟨wellFormed_empty, fun q => by cases q <;> rfl, .nil⟩

namespace Sorts

variable (h : Sorts rank a line)

include h

lemma contains_iff : a.contains p = true ↔ p ∈ line := by
  simp [h.wellFormed.contains_iff, mem_waiting, h.lane]

lemma isEmpty_iff : a.isEmpty = true ↔ line = [] := by
  simp only [Agenda.isEmpty_iff, ← Bool.not_eq_true, h.contains_iff,
    List.eq_nil_iff_forall_not_mem]

/-- The agenda takes the next propagator from the line. -/
lemma pop_eq : a.pop.map Prod.fst = foremost? rank line := by
  cases hpop : a.pop with
  | none =>
    rw [h.isEmpty_iff.1 ((pop_eq_none_iff h.wellFormed).1 hpop)]
    rfl
  | some next =>
    obtain ⟨p, a'⟩ := next
    obtain ⟨q, qs, ps, hlevels, hlane, -⟩ := pop_eq_some hpop
    have hrank : rank p = q := by
      have hp : p ∈ a.lane q := hlane ▸ List.mem_cons_self
      rw [h.lane, List.mem_filter] at hp
      exact of_decide_eq_true hp.2
    have hp : p ∈ line := h.contains_iff.1 (h.wellFormed.contains_of_pop hpop)
    -- no lane of a higher priority is listed, so none in the line has one
    have hhighest : ∀ p' ∈ line, q.level ≤ (rank p').level := by
      intro p' hp'
      have hlisted : rank p' ∈ q :: qs := by
        rw [← hlevels, h.wellFormed.mem_levels, h.lane]
        exact List.ne_nil_of_mem (List.mem_filter.2 ⟨hp', decide_eq_true rfl⟩)
      have hascending := hlevels ▸ h.wellFormed.ascending
      rcases List.mem_cons.1 hlisted with heq | hmem
      · rw [heq]
      · exact ((List.pairwise_cons.1 hascending).1 _ hmem).le
    have hfirst : ∀ p' ∈ line,
        (line.all fun p'' => (rank p').level ≤ (rank p'').level) = decide (rank p' = q) := by
      intro p' hp'
      rw [Bool.eq_iff_iff, List.all_eq_true, decide_eq_true_eq]
      constructor
      · intro hall
        have hle := of_decide_eq_true (hall p hp)
        rw [hrank] at hle
        exact Priority.level_injective (le_antisymm hle (hhighest p' hp'))
      · rintro rfl p'' hp''
        exact decide_eq_true (hhighest p'' hp'')
    rw [foremost?, List.find?_congr hfirst, ← List.head?_filter, ← h.lane, hlane]
    rfl

lemma enqueue (p : PropId) :
    Sorts rank (a.enqueue p (rank p)) (if p ∈ line then line else line ++ [p]) := by
  split
  · rename_i hp
    rw [enqueue_of_contains (h.contains_iff.2 hp)]
    exact h
  · rename_i hp
    have hcontains : a.contains p = false := Bool.eq_false_iff.2 fun hc => hp (h.contains_iff.1 hc)
    refine ⟨h.wellFormed.enqueue p _, fun q => ?_, ?_⟩
    · rw [lane_enqueue hcontains, List.filter_append, h.lane, h.lane]
      by_cases hq : rank p = q
      · subst hq
        simp
      · simp [hq, Ne.symm hq]
    · refine List.nodup_append.2 ⟨h.nodup, List.nodup_singleton p, ?_⟩
      rintro p' hp' _ hmem rfl
      exact hp (List.mem_singleton.1 hmem ▸ hp')

lemma pop {a' : Agenda} (hpop : a.pop = some (p, a')) : Sorts rank a' (line.erase p) := by
  obtain ⟨q, qs, ps, -, hlane, hlane', -⟩ := pop_eq_some hpop
  have herase := h.nodup.erase_eq_filter p
  refine ⟨(h.wellFormed.pop hpop).1, fun r => ?_, h.nodup.erase p⟩
  have hnodup : (a.lane r).Nodup := by
    rw [h.lane]
    exact h.nodup.filter _
  have hfilter : (line.erase p).filter (fun p' => rank p' = r) = (a.lane r).filter (· != p) := by
    rw [herase, h.lane, List.filter_filter, List.filter_filter]
    exact List.filter_congr fun _ _ => Bool.and_comm _ _
  rw [hfilter, ← hnodup.erase_eq_filter, hlane']
  split
  · rename_i hr
    rw [hr, hlane, List.erase_cons_head]
  · rename_i hr
    refine (List.erase_of_not_mem fun hp => hr ?_).symm
    have hq : p ∈ a.lane q := hlane ▸ List.mem_cons_self
    rw [h.lane, List.mem_filter, decide_eq_true_eq] at hp hq
    exact hp.2.symm.trans hq.2

/-- Every use keeps the agenda and the line together. -/
lemma use (u : Use) : Sorts rank (a.use rank u) (lineUp rank line u) := by
  cases u with
  | enqueue p => exact h.enqueue p
  | pop =>
    have hnext := h.pop_eq
    rw [Agenda.use, lineUp, ← hnext]
    cases hpop : a.pop with
    | none => exact h
    | some next => exact h.pop hpop
  | clear =>
    rw [Agenda.use, h.wellFormed.clear_eq]
    exact sorts_empty

end Sorts

lemma sorts_foldl (uses : List Use) (h : Sorts rank a line) :
    Sorts rank (uses.foldl (use rank) a) (uses.foldl (lineUp rank) line) := by
  induction uses generalizing a line with
  | nil => exact h
  | cons u uses ih => exact ih (h.use u)

/-- After any uses of a new agenda by propagators that keep their priorities, the next propagator
is the foremost of the highest priority in the line.  There is none just if nobody waits, and then
the agenda is empty.  Those wait who stand in the line, and when they ask again, nothing changes.
Each lane is that of the line, and its priority is listed once, or not at all if it is empty. -/
theorem pops_foremost (rank : PropId → Priority) (uses : List Use) :
    let a := uses.foldl (use rank) {}
    let line := uses.foldl (lineUp rank) []
    a.pop.map Prod.fst = foremost? rank line ∧ (a.pop = none ↔ line = []) ∧
      (a.isEmpty = true ↔ line = []) ∧ (∀ p, a.contains p = true ↔ p ∈ line) ∧
      (∀ p ∈ line, a.enqueue p (rank p) = a) ∧
      (∀ q, a.lane q = line.filter fun p => rank p = q) ∧
      ∀ q, a.levels.count q = if a.lane q = [] then 0 else 1 := by
  intro a line
  have h : Sorts rank a line := sorts_foldl uses sorts_empty
  refine ⟨h.pop_eq, (pop_eq_none_iff h.wellFormed).trans h.isEmpty_iff, h.isEmpty_iff,
    fun p => h.contains_iff, fun p hp => enqueue_of_contains (h.contains_iff.2 hp), h.lane,
    fun q => ?_⟩
  have hnodup : a.levels.Nodup :=
    h.wellFormed.ascending.imp fun hlt heq => absurd (congrArg Priority.level heq) hlt.ne
  split
  · rename_i hempty
    exact List.count_eq_zero.2 fun hq => (h.wellFormed.mem_levels q).1 hq hempty
  · rename_i hne
    exact List.count_eq_one_of_mem hnodup ((h.wellFormed.mem_levels q).2 hne)

/-- A higher priority goes first, and at the same one who came first. -/
example : foremost? (fun p => if p.index = 1 then .high else .low) [⟨0⟩, ⟨1⟩, ⟨2⟩] = some ⟨1⟩ ∧
    foremost? (fun p => if p.index = 1 then .high else .low) [⟨0⟩, ⟨2⟩] = some ⟨0⟩ := by
  decide

end Agenda

end FiniteDomain
