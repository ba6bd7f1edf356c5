import Mathlib.Tactic
import FiniteDomain.Proofs.Outcome
import FiniteDomain.Proofs.Store.WellFormed

/-!
Runs of updates.

A propagator, or a decision, narrows domains one request after another.  What such
a run did is described by the requests alone: each had its grounds in the domains
at which it was made.

* `Grounds`: which operations may be asked of a variable at given domains;
* `Store.Narrowing`, `Store.Refused`: runs of granted requests, and runs that end
  with a request that no value satisfies;
* `Store.Narrowing.shrinks`: what such a run changes and what it leaves alone, with
  `Store.Shrinks` for the summary;
* `Store.Narrowing.entry`: each new entry of the trail had its grounds;
* `Store.yields_apply`, `Store.yields_updateBounds`, `Store.yields_restrictTo`: the
  updates of the store as such runs.
-/

namespace FiniteDomain

/-- The operations that may be asked of a variable when the domains are as given. -/
abbrev Grounds := (VarId → IntervalSet) → VarId → Operation → Prop

namespace Store

variable {J : Grounds} {cause : Option PropId} {s t u : Store} {v : VarId} {op : Operation}
  {p q : Nat}

/-- One store comes from another by granted requests of one cause, each with its
grounds. -/
inductive Narrowing (J : Grounds) (cause : Option PropId) (s : Store) : Store → Prop
  | refl : Narrowing J cause s s
  | step {t : Store} {v : VarId} {op rop : Operation} {d : IntervalSet}
      (h : Narrowing J cause s t) (hv : t.has v = true) (hJ : J t.domain v op)
      (he : (t.chain v).effect (t.history v).current op = .narrowed rop d) :
      Narrowing J cause s (t.narrow ⟨v, op, cause⟩ rop d)

/-- After some granted requests, one with grounds was refused.  A propagator is
refused only what no value satisfies. -/
inductive Refused (J : Grounds) (cause : Option PropId) (s : Store) : Store → Prop
  | mk {t : Store} {v : VarId} {op : Operation} (h : Narrowing J cause s t)
      (hv : t.has v = true) (hJ : J t.domain v op)
      (hno : cause.isSome = true → ∀ x, x ∈ t.domain v → ¬ op.Holds x) :
      Refused J cause s { t with failure := some ⟨v, op, cause⟩ }

lemma Narrowing.trans (h : Narrowing J cause s t) (h' : Narrowing J cause t u) :
    Narrowing J cause s u := by
  induction h' with
  | refl => exact h
  | step _ hv hJ he ih => exact ih.step hv hJ he

lemma Narrowing.refused (h : Narrowing J cause s t) (h' : Refused J cause t u) :
    Refused J cause s u := by
  obtain ⟨h', hv, hJ, hno⟩ := h'
  exact ⟨h.trans h', hv, hJ, hno⟩

/-- Weaker grounds are grounds for the same requests. -/
lemma Narrowing.mono {J' : Grounds} (h : Narrowing J cause s t)
    (hJ : ∀ dom v op, J dom v op → J' dom v op) : Narrowing J' cause s t := by
  induction h with
  | refl => exact .refl
  | step _ hv hg he ih => exact ih.step hv (hJ _ _ _ hg) he

lemma Refused.mono {J' : Grounds} (h : Refused J cause s t)
    (hJ : ∀ dom v op, J dom v op → J' dom v op) : Refused J' cause s t := by
  obtain ⟨hrun, hv, hg, hno⟩ := h
  exact ⟨hrun.mono hJ, hv, hJ _ _ _ hg, hno⟩

/-! ### What is left alone -/

/-- Domains shrink at the end of the trail, above the last checkpoint. -/
structure Shrinks (s t : Store) : Prop where
  wellFormed : t.WellFormed
  has : ∀ v, t.has v = s.has v
  root : ∀ v, t.root v = s.root v
  chain : ∀ v, t.chain v = s.chain v
  level : t.trail.level = s.trail.level
  failure : t.failure = s.failure
  length : s.length ≤ t.length
  domainAt : ∀ v q, q ≤ s.length → t.domainAt v q = s.domainAt v q
  domain : ∀ v x, x ∈ t.domain v → x ∈ s.domain v
  entry : ∀ p, p < s.length → t.trail.entries[p]? = s.trail.entries[p]?
  extent : ∀ level, level < s.trail.level → t.trail.extent level = s.trail.extent level
  restore : ∀ level, level < s.trail.level → t.restore level = s.restore level

/-- The domains now are those behind the last update. -/
lemma WellFormed.domain_eq (w : s.WellFormed) : s.domain = fun v => s.domainAt v s.length := by
  funext v
  by_cases hv : s.has v = true
  · exact w.domain_eq_domainAt hv (Nat.le_refl _)
  · obtain ⟨hchain, hhist⟩ := history_of_not_has hv
    rw [w.domain_eq_image, Store.domainAt, hchain, hhist]
    rfl

variable {r : Request} {rop : Operation} {d : IntervalSet}

/-- An update leaves the variables on other roots alone. -/
lemma domain_narrow_of_root_ne (w : s.WellFormed) (hu : s.root v ≠ s.root r.var) :
    (s.narrow r rop d).domain v = s.domain v := by
  have hmaps := maps_narrow s r rop d
  by_cases hhas : s.has v = true
  · rw [domain, hmaps.chain, history_narrow w hhas, if_neg hu, domain]
  · exact hmaps.domain_of_not_has hhas

lemma eq_of_parts (hvars : s.vars = t.vars) (htrail : s.trail = t.trail)
    (hfailure : s.failure = t.failure) (hraised : s.raised = t.raised) : s = t := by
  cases s
  cases t
  cases hvars
  cases htrail
  cases hfailure
  cases hraised
  rfl

/-- Going back to an earlier checkpoint takes an update back. -/
lemma restore_narrow (w : s.WellFormed) {level : Nat} (hl : level < s.trail.level) :
    (s.narrow r rop d).restore level = s.restore level := by
  have hle : s.trail.extent level ≤ s.trail.length := w.trail.extent_le_length
  have hvars : ((s.narrow r rop d).restore level).vars = (s.restore level).vars := by
    refine Array.ext_getElem? fun i => ?_
    simp only [restore, narrow, Trail.extent_push, if_pos hl, Array.getElem?_map,
      Array.getElem?_modify]
    split
    · cases s.vars[i]? with
      | none => rfl
      | some x =>
        cases x with
        | root h vs => simp [History.rewind_record hle]
        | view ws v => rfl
    · rfl
  have htrail : ((s.narrow r rop d).restore level).trail = (s.restore level).trail :=
    Trail.cut_push w.trail hl
  exact eq_of_parts hvars htrail rfl rfl

/-- The domains after going back are those at the checkpoint. -/
lemma domain_restore (w : s.WellFormed) (level : Nat) :
    (s.restore level).domain = fun v => s.domainAt v (s.trail.extent level) := by
  rw [w.restore.domain_eq, length_restore w]
  funext v
  exact domainAt_restore w v (Nat.le_refl _)

/-- Going back in two steps. -/
lemma restore_restore (w : s.WellFormed) {level level' : Nat} (h : level ≤ level') :
    (s.restore level').restore level = s.restore level := by
  have hle := w.trail level level' h
  refine eq_of_parts ?_ (Trail.cut_cut w.trail h) rfl rfl
  refine Array.ext_getElem? fun i => ?_
  simp only [restore, Trail.extent_cut w.trail, Nat.min_eq_left h, Array.getElem?_map]
  cases s.vars[i]? with
  | none => rfl
  | some x =>
    cases x with
    | root h vs => simp [History.rewind_rewind hle]
    | view ws v => rfl

/-- A checkpoint does not change what lies below it. -/
lemma restore_mark {level : Nat} (h : level ≤ s.trail.level) :
    s.mark.restore level = s.restore level := by
  have hext : s.trail.mark.extent level = s.trail.extent level := Trail.extent_mark
  refine eq_of_parts ?_ (Trail.cut_mark_of_le h) rfl rfl
  rw [restore, mark, hext]
  rfl

lemma Shrinks.refl (w : s.WellFormed) : Shrinks s s :=
  ⟨w, fun _ => rfl, fun _ => rfl, fun _ => rfl, rfl, rfl, Nat.le_refl _, fun _ _ _ => rfl,
    fun _ _ => id, fun _ _ => rfl, fun _ _ => rfl, fun _ _ => rfl⟩

lemma Shrinks.trans (h : Shrinks s t) (h' : Shrinks t u) : Shrinks s u where
  wellFormed := h'.wellFormed
  has v := (h'.has v).trans (h.has v)
  root v := (h'.root v).trans (h.root v)
  chain v := (h'.chain v).trans (h.chain v)
  level := h'.level.trans h.level
  failure := h'.failure.trans h.failure
  length := Nat.le_trans h.length h'.length
  domainAt v q hq := (h'.domainAt v q (Nat.le_trans hq h.length)).trans (h.domainAt v q hq)
  domain v x hx := h.domain v x (h'.domain v x hx)
  entry p hp := (h'.entry p (Nat.lt_of_lt_of_le hp h.length)).trans (h.entry p hp)
  extent level hl := (h'.extent level (h.level ▸ hl)).trans (h.extent level hl)
  restore level hl := (h'.restore level (h.level ▸ hl)).trans (h.restore level hl)

lemma shrinks_narrow (w : s.WellFormed) (hv : s.has r.var = true)
    (he : (s.chain r.var).effect (s.history r.var).current r.operation = .narrowed rop d) :
    Shrinks s (s.narrow r rop d) := by
  have hmaps := maps_narrow s r rop d
  have w' := w.narrow hv he
  refine ⟨w', hmaps.has, hmaps.root, hmaps.chain, rfl, rfl, by simp,
    fun v q hq => domainAt_narrow w v hq, fun v x hx => ?_, fun p hp => ?_,
    fun level hl => ?_, fun level hl => restore_narrow w hl⟩
  · by_cases hv : s.has v = true
    · have hle : s.length ≤ (s.narrow r rop d).length := by simp
      rw [w'.domain_eq] at hx
      rw [w.domain_eq]
      rw [← hmaps.has] at hv
      have := w'.domainAt_antitone hv hle hx
      rwa [domainAt_narrow w v (Nat.le_refl _)] at this
    · rwa [hmaps.domain_of_not_has hv] at hx
  · rw [narrow, Trail.push, Array.getElem?_push]
    exact if_neg (Nat.ne_of_lt hp)
  · exact (Trail.extent_push).trans (if_pos hl)

lemma Narrowing.shrinks (w : s.WellFormed) (h : Narrowing J cause s t) : Shrinks s t := by
  induction h with
  | refl => exact .refl w
  | step _ hv _ he ih => exact ih.trans (shrinks_narrow ih.wellFormed hv he)

/-- Each entry that is new was made in the name of the cause and had its grounds. -/
lemma Narrowing.entry (w : s.WellFormed) (h : Narrowing J cause s t) (hp : s.length ≤ p)
    {u : Update} (hu : t.trail.entries[p]? = some u) :
    u.request.cause = cause ∧
      J (fun v => t.domainAt v p) u.request.var u.request.operation := by
  induction h with
  | refl =>
    have := (Array.getElem?_eq_some_iff.1 hu).1
    exact absurd this (Nat.not_lt.2 hp)
  | @step t w' op rop d h hv hJ he ih =>
    have hsh := h.shrinks w
    simp only [narrow, Trail.push, Array.getElem?_push] at hu
    split at hu
    · rename_i hlast
      cases hu
      refine ⟨rfl, ?_⟩
      have hdom : (fun v => (t.narrow ⟨w', op, cause⟩ rop d).domainAt v p) = t.domain := by
        rw [hsh.wellFormed.domain_eq]
        funext v
        rw [show p = t.length from hlast, domainAt_narrow hsh.wellFormed v (Nat.le_refl _)]
      rw [hdom]
      exact hJ
    · have hlt : p < t.length := (Array.getElem?_eq_some_iff.1 hu).1
      have hdom : (fun v => (t.narrow ⟨w', op, cause⟩ rop d).domainAt v p)
          = fun v => t.domainAt v p := by
        funext v
        rw [domainAt_narrow hsh.wellFormed v (Nat.le_of_lt hlt)]
      rw [hdom]
      exact ih hu

/-! ### Updates as runs -/

/-- The change is a run of granted requests after which `Q` holds, or is refused. -/
def Yields (J : Grounds) (cause : Option PropId) (s : Store) (change : Change)
    (Q : Store → Prop) : Prop :=
  Ends change s (fun _ t => Narrowing J cause s t ∧ Q t) (fun _ t => Refused J cause s t)

lemma Yields.bind {change : Change} {next : Bool → Change} {Q R : Store → Prop}
    (h : Yields J cause s change Q)
    (hnext : ∀ b t, Narrowing J cause s t → Q t → Yields J cause t (next b) R) :
    Yields J cause s (change >>= next) R := by
  refine Ends.bind h fun b t ht => ?_
  refine (hnext b t ht.1 ht.2).mono (fun _ u hu => ?_) fun _ u hu => ?_
  · exact ⟨ht.1.trans hu.1, hu.2⟩
  · exact ht.1.refused hu

lemma yields_pure {b : Bool} {Q : Store → Prop} (h : Q s) : Yields J cause s (pure b) Q :=
  ends_pure ⟨.refl, h⟩

/-- One request.  It needs grounds only if some value does not satisfy it. -/
lemma yields_apply (w : s.WellFormed) (hv : s.has v = true)
    (hJ : (∃ x, x ∈ s.domain v ∧ ¬ op.Holds x) → J s.domain v op) :
    Yields J cause s (apply cause v op) fun t => ∀ x, x ∈ t.domain v → op.Holds x := by
  simp only [Yields, Ends, apply, request]
  split
  · rename_i he
    -- a request that is satisfied already changes nothing
    split at he <;> rename_i heff
    · cases he
      exact ⟨.refl, fun x hx => w.holds_of_unchanged hv heff hx⟩
    · cases he
    · cases he
      have hgrounds := hJ (w.exists_not_holds_of_narrowed hv heff)
      refine ⟨Narrowing.refl.step hv hgrounds heff, fun x hx => ?_⟩
      have hnew := narrows_narrow (r := ⟨v, op, cause⟩) w hv heff
      have w' := w.narrow (r := ⟨v, op, cause⟩) hv heff
      rw [w'.domain_eq, length_narrow] at hx
      exact ((hnew.mem_iff w').1 hx).2
  · rename_i he
    split at he <;> rename_i heff <;> cases he
    have hno : ∀ x, x ∈ s.domain v → ¬ op.Holds x := fun x hx => w.not_holds_of_fails hv heff hx
    obtain ⟨y, hy⟩ := w.domain_nonempty hv
    exact ⟨.refl, hv, hJ ⟨y, hy, hno y hy⟩, fun _ => hno⟩

/-- Requests on one variable, one after another. -/
lemma yields_applyAll (w : s.WellFormed) (hv : s.has v = true) {ops : List Operation}
    (hJ : ∀ op ∈ ops, ∀ t, Narrowing J cause s t →
      (∃ x, x ∈ t.domain v ∧ ¬ op.Holds x) → J t.domain v op) :
    Yields J cause s (applyAll cause v ops)
      fun t => ∀ op ∈ ops, ∀ x, x ∈ t.domain v → op.Holds x := by
  induction ops generalizing s with
  | nil => exact yields_pure fun op hop => by cases hop
  | cons op ops ih =>
    refine (yields_apply w hv (hJ op List.mem_cons_self s .refl)).bind fun _ t ht hop => ?_
    have hsh := ht.shrinks w
    have hrest := ih hsh.wellFormed (by rw [hsh.has]; exact hv) fun op' hop' u hu =>
      hJ op' (List.mem_cons_of_mem _ hop') u (ht.trans hu)
    refine hrest.bind fun _ u hu hops => yields_pure fun op' hop' x hx => ?_
    rcases List.mem_cons.1 hop' with rfl | hop'
    · exact hop x ((hu.shrinks hsh.wellFormed).domain v x hx)
    · exact hops op' hop' x hx

/-- Both bounds of a variable.  Bounds that cross are refused without a look at the
domain, which no propagator asks for. -/
lemma yields_updateBounds (w : s.WellFormed) (hv : s.has v = true) {lo hi : Int}
    (hle : cause.isSome = true → lo ≤ hi)
    (hlo : ∀ t, Narrowing J cause s t → (∃ x, x ∈ t.domain v ∧ x < lo) →
      J t.domain v (.atLeast lo))
    (hhi : ∀ t, Narrowing J cause s t → (∃ x, x ∈ t.domain v ∧ hi < x) →
      J t.domain v (.atMost hi))
    (hcross : hi < lo → J s.domain v (.atLeast lo)) :
    Yields J cause s (updateBounds cause v lo hi)
      fun t => ∀ x, x ∈ t.domain v → lo ≤ x ∧ x ≤ hi := by
  rw [updateBounds]
  split
  · rename_i hlt
    refine .mk .refl hv (hcross hlt) fun hsome => ?_
    exact absurd (hle hsome) (Int.not_le.2 hlt)
  · have hall : Yields J cause s (applyAll cause v [.atLeast lo, .atMost hi]) fun t =>
        ∀ op ∈ [Operation.atLeast lo, .atMost hi], ∀ x, x ∈ t.domain v → op.Holds x := by
      refine yields_applyAll w hv fun op hop t ht hx => ?_
      obtain ⟨x, hx, hno⟩ := hx
      rcases List.mem_pair.1 hop with rfl | rfl
      · exact hlo t ht ⟨x, hx, Int.not_le.1 hno⟩
      · exact hhi t ht ⟨x, hx, Int.not_le.1 hno⟩
    refine Ends.mono hall (fun _ t ht => ⟨ht.1, fun x hx => ?_⟩) fun _ _ h => h
    exact ⟨ht.2 (.atLeast lo) (by simp) x hx, ht.2 (.atMost hi) (by simp) x hx⟩

/-- A restriction to a set asks only for what all allowed values satisfy. -/
lemma yields_restrictTo (w : s.WellFormed) (hv : s.has v = true) {allowed : IntervalSet}
    (hJ : ∀ t op, Narrowing J cause s t →
      (∀ x, x ∈ t.domain v → x ∈ allowed → op.Holds x) → J t.domain v op) :
    Yields J cause s (restrictTo cause v allowed) fun _ => True := by
  refine ends_bind_get ?_
  dsimp only
  split
  · rename_i hempty
    refine ends_bind_get ?_
    have happly : Yields J cause s (apply cause v (.atLeast (Value.above (s.upper v)))) _ :=
      yields_apply w hv fun _ => by
        refine hJ s _ .refl fun x hx hmem => ?_
        have := IntervalSet.isEmpty_iff.1 hempty x
        exact absurd (IntervalSet.mem_inter.2 ⟨hx, hmem⟩) this
    exact happly.mono (fun _ _ h => ⟨h.1, trivial⟩) fun _ _ h => h
  · have hbounds : Yields J cause s (applyAll cause v
        [.atLeast (s.domain v ∩ allowed).lower, .atMost (s.domain v ∩ allowed).upper])
        fun _ => True := by
      have hall : Yields J cause s (applyAll cause v
          [.atLeast (s.domain v ∩ allowed).lower, .atMost (s.domain v ∩ allowed).upper]) _ :=
        yields_applyAll w hv fun op hop t ht _ => hJ t op ht fun x hx hmem => by
          have hold := (ht.shrinks w).domain v x hx
          have hleft := IntervalSet.mem_inter.2 ⟨hold, hmem⟩
          rcases List.mem_pair.1 hop with rfl | rfl
          · exact IntervalSet.lower_le hleft
          · exact IntervalSet.le_upper hleft
      exact hall.mono (fun _ _ h => ⟨h.1, trivial⟩) fun _ _ h => h
    refine hbounds.bind fun _ t ht _ => ?_
    have hsh := ht.shrinks w
    refine ends_bind_get ?_
    have hholes : Yields J cause t (applyAll cause v ((t.domain v \ allowed).toList.map .differs))
        fun _ => True := by
      have hall : Yields J cause t
          (applyAll cause v ((t.domain v \ allowed).toList.map .differs)) _ :=
        yields_applyAll hsh.wellFormed (by rw [hsh.has]; exact hv)
        fun op hop u hu _ => hJ u op (ht.trans hu) fun x hx hmem => by
          obtain ⟨k, hk, rfl⟩ := List.mem_map.1 hop
          rintro rfl
          exact (IntervalSet.mem_diff.1 (IntervalSet.mem_toList.1 hk)).2 hmem
      exact hall.mono (fun _ _ h => ⟨h.1, trivial⟩) fun _ _ h => h
    exact hholes.bind fun _ _ _ _ => yields_pure trivial

end Store

end FiniteDomain
