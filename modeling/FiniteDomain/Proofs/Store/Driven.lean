import Mathlib.Tactic
import FiniteDomain.Proofs.Store.Continuation

/-!
Stores that propagators worked on.

A run of propagators adds updates at the end of the trail, each in the name of one of them,
and may end with a request that is refused.

* `Store.Driven`: what such a run leaves, with `Store.Driven.trans` for runs one after
  another;
* `Store.Narrowing.driven`, `Store.Refused.driven`: the run of one propagator.
-/

namespace FiniteDomain

namespace Store

variable {s t u s' t' : Store} {J : Grounds} {cause : Option PropId}

/-- The failure and the events do not matter. -/
lemma Shrinks.congr (h : s.Shrinks t) (hvars : s'.vars = s.vars) (htrail : s'.trail = s.trail)
    (hvars' : t'.vars = t.vars) (htrail' : t'.trail = t.trail)
    (hfailure : t'.failure = s'.failure) :
    s'.Shrinks t' := by
  obtain ⟨vars₁, trail₁, failure₁, raised₁⟩ := s
  obtain ⟨vars₁', trail₁', failure₁', raised₁'⟩ := s'
  obtain ⟨vars₂, trail₂, failure₂, raised₂⟩ := t
  obtain ⟨vars₂', trail₂', failure₂', raised₂'⟩ := t'
  cases hvars
  cases htrail
  cases hvars'
  cases htrail'
  exact ⟨h.wellFormed.congr rfl rfl, h.has, h.root, h.chain, h.level, hfailure, h.length,
    h.domainAt, h.domain, h.entry, h.extent, h.restore⟩

lemma has_congr (h : t.vars = s.vars) : t.has = s.has := by
  cases s
  cases t
  cases h
  rfl

/-- The domains of a variable depend on the variables alone. -/
lemma domainAt_congr (h : t.vars = s.vars) : t.domainAt = s.domainAt := by
  cases s
  cases t
  cases h
  rfl

/-- The failure and the events do not outlast going back. -/
lemma restore_congr (hvars : t.vars = s.vars) (htrail : t.trail = s.trail) (level : Nat) :
    t.restore level = s.restore level := by
  rw [restore, restore, hvars, htrail]

/-- The store `t` comes from `s` by updates that propagators asked for, of which the last may
have been refused. -/
structure Driven (s t : Store) : Prop where
  shrinks : s.Shrinks { t with failure := s.failure }
  caused : ∀ (p : Nat) (u : Update), s.length ≤ p → t.trail.entries[p]? = some u →
    u.request.cause.isSome = true
  refused : ∀ r, t.failure = some r → s.failure = some r ∨ r.cause.isSome = true

lemma Driven.refl (w : s.WellFormed) : s.Driven s where
  shrinks := .refl w
  caused p u hp hu := by
    have hlt : p < s.length := (Array.getElem?_eq_some_iff.1 hu).1
    omega
  refused _ := .inl

lemma Driven.trans (h : s.Driven t) (h' : t.Driven u) : s.Driven u where
  shrinks := h.shrinks.trans (h'.shrinks.congr rfl rfl rfl rfl rfl)
  caused p v hp hv := by
    rcases Nat.lt_or_ge p t.length with hlt | hge
    · rw [h'.shrinks.entry p hlt] at hv
      exact h.caused p v hp hv
    · exact h'.caused p v hge hv
  refused r hr := (h'.refused r hr).elim (h.refused r) .inr

/-- Events do not matter. -/
lemma Driven.congr (h : s.Driven t) (hvars : t'.vars = t.vars) (htrail : t'.trail = t.trail)
    (hfailure : t'.failure = t.failure) : s.Driven t' where
  shrinks := h.shrinks.congr rfl rfl hvars htrail rfl
  caused p u hp hu := h.caused p u hp (htrail ▸ hu)
  refused r hr := h.refused r (hfailure ▸ hr)

lemma Narrowing.driven (w : s.WellFormed) (h : Narrowing J cause s t)
    (hcause : cause.isSome = true) : s.Driven t where
  shrinks := (h.shrinks w).congr rfl rfl rfl rfl rfl
  caused p u hp hu := by
    rw [(h.entry w hp hu).1]
    exact hcause
  refused r hr := .inl ((h.shrinks w).failure ▸ hr)

lemma Refused.driven (w : s.WellFormed) (h : Refused J cause s t)
    (hcause : cause.isSome = true) : s.Driven t := by
  obtain ⟨hn, -, -, -⟩ := h
  have hd := hn.driven w hcause
  refine ⟨hd.shrinks.congr rfl rfl rfl rfl rfl, hd.caused, fun r hr => .inr ?_⟩
  cases hr
  exact hcause

/-- Going back below the last checkpoint does not see the run. -/
lemma Driven.restore (h : s.Driven t) {level : Nat} (hl : level < s.trail.level) :
    t.restore level = s.restore level := h.shrinks.restore level hl

end Store

end FiniteDomain
