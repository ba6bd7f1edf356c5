import Mathlib.Tactic
import FiniteDomain.Proofs.Propagator.Maximum
import FiniteDomain.Proofs.Settling

/-!
What the maximum reaches.

A call of the propagator ends in one of two ways.  Either the bounds of the elements and of
the right-hand side agree with each other, or the right-hand side is fixed, and an element
with it; then nothing is left to do.

* `Maximum.Balanced`, `Maximum.Met`: the two ways, with `Maximum.Balanced.closed` and
  `Maximum.Met.closed`: no request with grounds narrows anything then;
* `Maximum.Apart`: the right-hand side is on another root than the elements;
* `Maximum.settles_agree`, `Maximum.settles_rounds`: the loops of the propagator end, since
  each round takes a value;
* `Maximum.settles_propagate`: a call ends in one of the two ways.
-/

namespace FiniteDomain

namespace Maximum

variable {c : Maximum} {dom dom' : VarId → IntervalSet} {v : VarId}

/-- The bounds agree: the right-hand side reaches as far up as the elements, and at least as
far down, and an element that no other can replace reaches no further down. -/
structure Balanced (c : Maximum) (dom : VarId → IntervalSet) : Prop where
  capped : ∀ v ∈ c.array, (dom v).upper ≤ (dom c.rhs).upper
  raised : ∀ v ∈ c.array, (dom v).lower ≤ (dom c.rhs).lower
  reached : ∃ v ∈ c.array, (dom c.rhs).upper ≤ (dom v).upper
  single : c.array.Nodup → ∀ v ∈ c.array,
    (∀ u ∈ c.array, u ≠ v → (dom u).upper < (dom c.rhs).lower) →
      (dom c.rhs).lower ≤ (dom v).lower

/-- The bounds that the store gives are those of the domains. -/
lemma balanced_of_bounds {store : Store} (w : store.WellFormed)
    (hcapped : ∀ v ∈ c.array, store.upper v ≤ store.upper c.rhs)
    (hraised : ∀ v ∈ c.array, store.lower v ≤ store.lower c.rhs)
    (hreached : ∃ v ∈ c.array, store.upper c.rhs ≤ store.upper v)
    (hsingle : c.array.Nodup → ∀ v ∈ c.array,
      (∀ u ∈ c.array, u ≠ v → store.upper u < store.lower c.rhs) →
        store.lower c.rhs ≤ store.lower v) : c.Balanced store.domain := by
  simp only [w.lower_eq, w.upper_eq] at hcapped hraised hreached hsingle
  exact ⟨hcapped, hraised, hreached, hsingle⟩

/-- The right-hand side and an element are fixed to a value that no element exceeds. -/
def Met (c : Maximum) (dom : VarId → IntervalSet) : Prop :=
  ∃ k, (∀ x, x ∈ dom c.rhs → x = k) ∧ (∃ v ∈ c.array, ∀ x, x ∈ dom v → x = k) ∧
    ∀ v ∈ c.array, ∀ x, x ∈ dom v → x ≤ k

/-- The right-hand side is on another root than the elements. -/
def Apart (c : Maximum) (s : Store) : Prop := ∀ v ∈ c.array, s.root v ≠ s.root c.rhs

/-- Only the bounds matter. -/
lemma Balanced.congr (h : c.Balanced dom)
    (hsame : ∀ v ∈ c.scope, (dom' v).lower = (dom v).lower ∧ (dom' v).upper = (dom v).upper) :
    c.Balanced dom' := by
  have hrhs := hsame c.rhs rhs_mem_scope
  have harray : ∀ v ∈ c.array, (dom' v).lower = (dom v).lower ∧ (dom' v).upper = (dom v).upper :=
    fun v hv => hsame v (mem_scope_of_mem hv)
  refine ⟨fun v hv => ?_, fun v hv => ?_, ?_, fun hnodup v hv hlt => ?_⟩
  · rw [hrhs.2, (harray v hv).2]
    exact h.capped v hv
  · rw [hrhs.1, (harray v hv).1]
    exact h.raised v hv
  · obtain ⟨v, hv, hle⟩ := h.reached
    exact ⟨v, hv, by rwa [hrhs.2, (harray v hv).2]⟩
  · rw [hrhs.1, (harray v hv).1]
    refine h.single hnodup v hv fun u hu hne => ?_
    rw [← hrhs.1, ← (harray u hu).2]
    exact hlt u hu hne

lemma Met.mono (h : c.Met dom) (hsub : ∀ v ∈ c.scope, ∀ x, x ∈ dom' v → x ∈ dom v) :
    c.Met dom' := by
  obtain ⟨k, hrhs, ⟨v, hv, hfix⟩, hle⟩ := h
  refine ⟨k, fun x hx => hrhs x (hsub _ rhs_mem_scope x hx), ⟨v, hv, fun x hx => ?_⟩,
    fun u hu x hx => hle u hu x (hsub u (mem_scope_of_mem hu) x hx)⟩
  exact hfix x (hsub v (mem_scope_of_mem hv) x hx)

/-- Bounds that agree cannot be narrowed, as long as the elements are different. -/
lemma Balanced.closed (h : c.Balanced dom) (hnodup : c.array.Nodup)
    (hne : ∀ v ∈ c.scope, ∃ x, x ∈ dom v) : Grounds.Closed c.Justified dom := by
  intro v op hJ x hx
  cases op with
  | atLeast k =>
    have hlow := IntervalSet.lower_le hx
    rcases hJ with ⟨rfl, u, hu, hk⟩ | ⟨-, hv, hrhs, hrest⟩
    · have hle := hk _ (IntervalSet.lower_mem (hne u (mem_scope_of_mem hu)))
      exact hle.trans ((h.raised u hu).trans hlow)
    · have hk := hrhs _ (IntervalSet.lower_mem (hne _ rhs_mem_scope))
      refine hk.trans ((h.single hnodup v hv fun u hu huv => ?_).trans hlow)
      have hlt := hrest u hu huv _ (IntervalSet.upper_mem (hne u (mem_scope_of_mem hu)))
      exact lt_of_lt_of_le hlt hk
  | atMost k =>
    have hup := IntervalSet.le_upper hx
    rcases hJ with ⟨rfl, hall⟩ | ⟨-, hv, hrhs⟩
    · obtain ⟨u, hu, hle⟩ := h.reached
      have hk := hall u hu _ (IntervalSet.upper_mem (hne u (mem_scope_of_mem hu)))
      exact hup.trans (hle.trans hk)
    · have hk := hrhs _ (IntervalSet.upper_mem (hne _ rhs_mem_scope))
      exact hup.trans ((h.capped v hv).trans hk)
  | differs k => exact hJ.elim
  | equals k => exact hJ.elim

/-- When the maximum is met, nothing can be narrowed. -/
lemma Met.closed (h : c.Met dom) (hne : ∀ v ∈ c.scope, ∃ x, x ∈ dom v) :
    Grounds.Closed c.Justified dom := by
  obtain ⟨n, hrhs, ⟨w, hw, hfix⟩, hall⟩ := h
  obtain ⟨y, hy⟩ := hne w (mem_scope_of_mem hw)
  obtain ⟨z, hz⟩ := hne c.rhs rhs_mem_scope
  intro v op hJ x hx
  cases op with
  | atLeast k =>
    rcases hJ with ⟨rfl, u, hu, hk⟩ | ⟨-, hv, hk, hrest⟩
    · obtain ⟨y', hy'⟩ := hne u (mem_scope_of_mem hu)
      have hle : k ≤ n := (hk y' hy').trans (hall u hu y' hy')
      exact hle.trans (le_of_eq (hrhs x hx).symm)
    · have hle : k ≤ n := (hk z hz).trans (le_of_eq (hrhs z hz))
      -- the element that is fixed reaches `k`, so that it is the one in question
      by_cases hvw : w = v
      · subst hvw
        exact hle.trans (le_of_eq (hfix x hx).symm)
      · have hlt := hrest w hw hvw y hy
        rw [hfix y hy] at hlt
        exact absurd hlt (not_lt.2 hle)
  | atMost k =>
    rcases hJ with ⟨rfl, hk⟩ | ⟨-, hv, hk⟩
    · have hle := hk w hw y hy
      rw [hfix y hy] at hle
      exact (le_of_eq (hrhs x hx)).trans hle
    · have hle := hk z hz
      rw [hrhs z hz] at hle
      exact (hall v hv x hx).trans hle
  | differs k => exact hJ.elim
  | equals k => exact hJ.elim

section Fixed

variable {values : VarId → Int} (hfixed : ∀ v ∈ c.scope, ∀ x, x ∈ dom v ↔ x = values v)

include hfixed

/-- A fixed variable of the scope has its value as both bounds. -/
lemma bounds_of_fixed (hv : v ∈ c.scope) : (dom v).lower = values v ∧ (dom v).upper = values v := by
  have hne : ∃ x, x ∈ dom v := ⟨_, (hfixed v hv _).2 rfl⟩
  exact ⟨(hfixed v hv _).1 (IntervalSet.lower_mem hne),
    (hfixed v hv _).1 (IntervalSet.upper_mem hne)⟩

/-- Fixed variables whose bounds agree satisfy the constraint. -/
lemma Balanced.holds (h : c.Balanced dom) : c.Holds values := by
  have hbounds : ∀ u ∈ c.array, (dom u).upper = values u :=
    fun u hu => (bounds_of_fixed hfixed (mem_scope_of_mem hu)).2
  have hrhs := (bounds_of_fixed hfixed rhs_mem_scope).2
  obtain ⟨u, hu, hreached⟩ := h.reached
  refine ⟨fun v hv => ?_, u, hu, ?_⟩
  · rw [← hbounds v hv, ← hrhs]
    exact h.capped v hv
  · rw [← hbounds u hu, ← hrhs]
    exact le_antisymm (h.capped u hu) hreached

end Fixed

/-- When nothing is left to do, all values of the domains satisfy the constraint. -/
lemma Met.holds {values : VarId → Int} (h : c.Met dom)
    (hmem : ∀ v ∈ c.scope, values v ∈ dom v) : c.Holds values := by
  obtain ⟨k, hrhs, ⟨u, hu, hk⟩, hall⟩ := h
  have hrhs := hrhs _ (hmem _ rhs_mem_scope)
  refine ⟨fun v hv => ?_, u, hu, ?_⟩
  · rw [hrhs]
    exact hall v hv _ (hmem v (mem_scope_of_mem hv))
  · rw [hrhs]
    exact hk _ (hmem u (mem_scope_of_mem hu))

/-! ### Calls -/

section Runs

open FiniteDomain.Filter

variable {p : PropId} {own : List SetId} {s : Space} (w : s.WellFormed)
  (hscope : ∀ v ∈ c.scope, s.store.has v = true)

include w hscope in
/-- Bounds are taken over until they agree.  Otherwise one of the two takes a value. -/
lemma settles_agree (hv : v ∈ c.array) {n : Nat} (hn : s.store.volume < n) :
    Settles p own s (c.agree p v n) fun _ t => t.memory = s.memory ∧
      t.store.lower c.rhs = t.store.lower v ∧ t.store.upper c.rhs = t.store.upper v := by
  induction n generalizing s with
  | zero => exact absurd hn (Nat.not_lt_zero _)
  | succ n ih =>
    rw [agree]
    refine settles_store ?_
    split
    · rename_i hsame
      exact settles_pure w ⟨rfl, hsame⟩
    rename_i hdiff
    refine (settles_discard_updateBounds w (hscope c.rhs rhs_mem_scope) _ _).bind
      fun _ t ht htmem => ?_
    obtain ⟨wt, htscope, -⟩ := mem_of_ran w hscope ht
    obtain ⟨htmemory, ⟨b, htouched⟩, htmem⟩ := htmem
    refine settles_store ?_
    refine (settles_discard_updateBounds wt (htscope v (mem_scope_of_mem hv)) _ _).bind
      fun _ u hu humem => ?_
    obtain ⟨wu, huscope, -⟩ := mem_of_ran wt htscope hu
    obtain ⟨humemory, ⟨b', htouched'⟩, humem⟩ := humem
    have hsmaller : u.store.volume < s.store.volume := by
      cases b with
      | true => exact lt_of_le_of_lt (hu.store.volume_le wt.store) (htouched.smaller rfl)
      | false =>
        rw [htouched.unchanged rfl] at htouched' htmem humem
        cases b' with
        | true => exact htouched'.smaller rfl
        | false =>
          -- nothing was taken, so that the bounds agreed before
          rw [htouched'.unchanged rfl] at humem
          have hrhs := hscope c.rhs rhs_mem_scope
          have helem := hscope v (mem_scope_of_mem hv)
          have h₁ := ((htmem _).1 (w.store.lower_mem hrhs)).2.1
          have h₂ := ((htmem _).1 (w.store.upper_mem hrhs)).2.2
          have h₃ := ((humem _).1 (w.store.lower_mem helem)).2.1
          have h₄ := ((humem _).1 (w.store.upper_mem helem)).2.2
          exact absurd ⟨le_antisymm h₃ h₁, le_antisymm h₂ h₄⟩ hdiff
    exact (ih wu huscope (by omega)).mono fun _ _ _ h =>
      ⟨h.1.trans (humemory.trans htmemory), h.2⟩

/-- The element that is the maximum has the bounds of the right-hand side. -/
lemma Single.balanced (h : c.Single dom v) (hne : ∀ u ∈ c.scope, ∃ x, x ∈ dom u)
    (hlower : (dom c.rhs).lower = (dom v).lower) (hupper : (dom c.rhs).upper = (dom v).upper) :
    c.Balanced dom := by
  have hlt : ∀ u ∈ c.array, u ≠ v → (dom u).upper < (dom c.rhs).lower := fun u hu huv =>
    h.2 u hu huv _ (IntervalSet.upper_mem (hne u (mem_scope_of_mem hu))) _
      (IntervalSet.lower_mem (hne _ rhs_mem_scope))
  have hle : (dom c.rhs).lower ≤ (dom c.rhs).upper :=
    IntervalSet.lower_le (IntervalSet.upper_mem (hne _ rhs_mem_scope))
  refine ⟨fun u hu => ?_, fun u hu => ?_, ⟨v, h.1, le_of_eq hupper⟩, fun _ u hu hothers => ?_⟩
  · by_cases huv : u = v
    · rw [huv, hupper]
    · exact (le_of_lt (hlt u hu huv)).trans hle
  · by_cases huv : u = v
    · rw [huv, hlower]
    · have hu' := hne u (mem_scope_of_mem hu)
      exact (IntervalSet.lower_le (IntervalSet.upper_mem hu')).trans (le_of_lt (hlt u hu huv))
  · by_cases huv : u = v
    · rw [huv, hlower]
    · have := hothers v h.1 (Ne.symm huv)
      omega

/-- What a call reaches. -/
def Reaches (c : Maximum) (p : PropId) (s t : Space) : Prop :=
  t.memory.activity p = .passive ∧ (c.Apart s.store → c.Met t.store.domain) ∨
    t.memory.activity p = s.memory.activity p ∧ c.Balanced t.store.domain

include w in
/-- What a call reaches after a run that left the memory alone. -/
lemma Reaches.of_ran {t u : Space} (h : c.Reaches p t u) (ht : Space.Ran .any p own s t)
    (hmemory : t.memory = s.memory) : c.Reaches p s u := by
  have hroot := (ht.shrinks w).root
  rw [Reaches, hmemory] at h
  refine h.imp (fun h => ⟨h.1, fun hapart => h.2 fun v hv => ?_⟩) id
  rw [hroot, hroot]
  exact hapart v hv

include w hscope in
/-- An element is made the maximum. -/
lemma settles_channel (hp : p.index < s.memory.activities.size)
    (h : c.Single s.store.domain v) :
    Settles p own s (c.channel p v) fun _ t => c.Reaches p s t := by
  rw [channel]
  refine settles_store ?_
  refine (settles_discard_updateBounds w (hscope v (mem_scope_of_mem h.1)) _ _).bind
    fun _ t ht htmem => ?_
  obtain ⟨wt, htscope, htsub⟩ := mem_of_ran w hscope ht
  obtain ⟨htmemory, ⟨b, htouched⟩, htmem⟩ := htmem
  have hrhas := htscope c.rhs rhs_mem_scope
  refine settles_get ?_
  split
  · rename_i hfixed
    have hp' : p.index < t.memory.activities.size := by rwa [htmemory]
    refine (settles_setPassive wt hp').mono fun _ u _ hu => .inl ⟨hu.2, fun hapart => ?_⟩
    rw [hu.1]
    have hrhs : t.store.domain c.rhs = s.store.domain c.rhs :=
      htouched.frame c.rhs (hapart v h.1).symm
    have hn : ∀ x, x ∈ t.store.domain c.rhs → x = t.store.lower c.rhs :=
      (wt.store.isFixed_iff hrhas).1 hfixed
    have hlow := wt.store.lower_mem hrhas
    have hupper : s.store.upper c.rhs = t.store.lower c.rhs := by
      rw [w.store.upper_eq, ← hrhs, ← wt.store.upper_eq]
      exact hn _ (wt.store.upper_mem hrhas)
    have hlower : s.store.lower c.rhs = t.store.lower c.rhs := by
      rw [w.store.lower_eq, ← hrhs, ← wt.store.lower_eq]
    refine ⟨_, hn, ⟨v, h.1, fun x hx => ?_⟩, fun u hu x hx => ?_⟩
    · have := ((htmem x).1 hx).2
      omega
    · by_cases huv : u = v
      · subst huv
        have := ((htmem x).1 hx).2.2
        omega
      · exact le_of_lt (h.2 u hu huv x (htsub u x hx) _ (htsub _ _ hlow))
  · refine (settles_agree wt htscope h.1 (Nat.lt_succ_self _)).mono
      fun _ u hu hdone => .inr ⟨?_, ?_⟩
    · rw [hdone.1, htmemory]
    · obtain ⟨wu, huscope, husub⟩ := mem_of_ran wt htscope hu
      obtain ⟨-, hlower, hupper⟩ := hdone
      rw [wu.store.lower_eq, wu.store.lower_eq] at hlower
      rw [wu.store.upper_eq, wu.store.upper_eq] at hupper
      exact ((h.mono htsub).mono husub).balanced
        (fun u' hu' => wu.store.domain_nonempty (huscope u' hu')) hlower hupper

/-- What a walk over elements found if it changed nothing. -/
structure Surveyed (cap : Int) (vs : List VarId) (found result : Survey) (s t : Space) :
    Prop where
  store : t.store = s.store
  changed : found.changed = false
  capped : ∀ v ∈ vs, s.store.upper v ≤ cap
  lower : found.lower ≤ result.lower ∧ ∀ v ∈ vs, s.store.lower v ≤ result.lower
  upper : result.upper = found.upper ∨ ∃ v ∈ vs, result.upper = s.store.upper v

include w in
/-- A walk over elements that changed nothing found their bounds; one that changed
something took a value. -/
lemma settles_survey {cap : Int} {vs : List VarId} (hvs : ∀ v ∈ vs, s.store.has v = true)
    (found : Survey) :
    Settles p own s (survey p cap vs found) fun result t => t.memory = s.memory ∧
      (result.changed = true → found.changed = true ∨ t.store.volume < s.store.volume) ∧
      (result.changed = false → Surveyed cap vs found result s t) := by
  induction vs generalizing s found with
  | nil =>
    refine settles_pure w ⟨rfl, .inl, fun hc => ⟨rfl, hc, ?_, ⟨le_refl _, ?_⟩, .inl rfl⟩⟩
    · exact fun v hv => absurd hv List.not_mem_nil
    · exact fun v hv => absurd hv List.not_mem_nil
  | cons v vs ih =>
    have hv := hvs v List.mem_cons_self
    rw [survey]
    refine (settles_apply w hv).bind fun changed t ht htmem => ?_
    obtain ⟨htmemory, htouched, htmem⟩ := htmem
    have wt := ht.wellFormed w
    refine settles_store ?_
    refine (ih wt (fun u hu => ht.has w (hvs u (List.mem_cons_of_mem _ hu))) _).mono
      fun result u hu hdone => ⟨hdone.1.trans htmemory, fun hc => ?_, fun hc => ?_⟩
    · rcases hdone.2.1 hc with hfound | hlt
      · rw [Bool.or_eq_true] at hfound
        exact hfound.imp id fun hb =>
          lt_of_le_of_lt (hu.store.volume_le wt.store) (htouched.smaller hb)
      · exact .inr (lt_of_lt_of_le hlt (ht.store.volume_le w.store))
    · have hrest := hdone.2.2 hc
      obtain ⟨hfound, hb⟩ := Bool.or_eq_false_iff.1 hrest.changed
      have hts := htouched.unchanged hb
      have hlower := hrest.lower
      have hupper := hrest.upper
      have hcapped := hrest.capped
      dsimp only at hlower hupper
      rw [hts] at htmem hlower hupper hcapped
      have hne := w.store.upper_mem hv
      refine ⟨hrest.store.trans hts, hfound, fun u hu => ?_, ⟨by omega, fun u hu => ?_⟩, ?_⟩
      · rcases List.mem_cons.1 hu with rfl | hu
        · exact ((htmem _).1 hne).2
        · exact hcapped u hu
      · rcases List.mem_cons.1 hu with rfl | hu
        · omega
        · exact hlower.2 u hu
      · rcases hupper with hup | ⟨u, hu, hup⟩
        · rcases le_total (s.store.upper v) found.upper with hle | hle
          · exact .inl (by omega)
          · exact .inr ⟨v, List.mem_cons_self, by omega⟩
        · exact .inr ⟨u, List.mem_cons_of_mem _ hu, hup⟩

/-- The only element of a list with a property. -/
lemma filter_eq_singleton {vs : List VarId} {P : VarId → Bool} (hnodup : vs.Nodup) (hv : v ∈ vs)
    (hP : P v = true) (hothers : ∀ u ∈ vs, u ≠ v → P u = false) : vs.filter P = [v] := by
  refine List.perm_singleton.1 ((List.perm_ext_iff_of_nodup (hnodup.filter _)
    (List.nodup_singleton v)).2 fun u => ?_)
  rw [List.mem_filter, List.mem_singleton]
  constructor
  · rintro ⟨hu, hPu⟩
    by_contra hne
    rw [hothers u hu hne] at hPu
    cases hPu
  · rintro rfl
    exact ⟨hv, hP⟩

include w hscope in
/-- A walk that changed nothing found the bounds of the right-hand side, and no element that can
alone be the maximum. -/
lemma Surveyed.balanced {found : Survey} {t : Space}
    (h : Surveyed (s.store.upper c.rhs) c.array {} found s t) (harray : c.array ≠ [])
    (hlower : found.lower ≤ s.store.lower c.rhs) (hupper : s.store.upper c.rhs ≤ found.upper)
    (hmany : ∀ v, c.reaching s.store (s.store.lower c.rhs) ≠ [v]) :
    c.Balanced s.store.domain := by
  have hreached : ∃ v ∈ c.array, s.store.upper c.rhs ≤ s.store.upper v := by
    rcases h.upper with hleast | ⟨v, hv, heq⟩
    · obtain ⟨v, hv⟩ := List.exists_mem_of_ne_nil _ harray
      have hv' := mem_scope_of_mem hv
      have hrange := (w.store.domain_inRange (hscope v hv') _
        (w.store.upper_mem (hscope v hv'))).1
      exact ⟨v, hv, (hupper.trans hleast.le).trans hrange⟩
    · exact ⟨v, hv, hupper.trans heq.le⟩
  refine balanced_of_bounds w.store h.capped (fun v hv => (h.lower.2 v hv).trans hlower) hreached
    fun hnodup v hv hothers => ?_
  -- an element that no other can replace would have been found
  obtain ⟨v', hv', hle⟩ := hreached
  have hrange : s.store.lower c.rhs ≤ s.store.upper c.rhs :=
    w.store.lower_le (w.store.upper_mem (hscope c.rhs rhs_mem_scope))
  refine absurd (filter_eq_singleton hnodup hv ?_ fun u hu hne => ?_) (hmany v)
  · have hvv : v' = v := by
      by_contra hne'
      have hlt : s.store.upper v' < s.store.lower c.rhs := hothers v' hv' hne'
      omega
    subst hvv
    exact decide_eq_true (hrange.trans hle)
  · exact decide_eq_false (not_le.2 (hothers u hu hne))

include w hscope in
/-- Rounds of bound propagation.  Each but the last takes a value, so that they end. -/
lemma settles_rounds (hp : p.index < s.memory.activities.size)
    (harray : c.array ≠ []) {n : Nat} (hn : s.store.volume < n) :
    Settles p own s (c.rounds p n) fun _ t => c.Reaches p s t := by
  induction n generalizing s with
  | zero => exact absurd hn (Nat.not_lt_zero _)
  | succ n ih =>
    rw [rounds]
    refine settles_store ?_
    -- a walk over the elements
    refine (settles_survey w (fun v hv => hscope v (mem_scope_of_mem hv)) {}).bind
      fun found t ht hfound => ?_
    obtain ⟨wt, htscope, htsub⟩ := mem_of_ran w hscope ht
    obtain ⟨htmemory, htsmaller, hsurveyed⟩ := hfound
    -- the bounds that it found are taken over to the right-hand side
    refine (settles_apply wt (htscope c.rhs rhs_mem_scope)).bind fun raised u hu humem => ?_
    obtain ⟨wu, huscope, husub⟩ := mem_of_ran wt htscope hu
    obtain ⟨humemory, hutouched, humem⟩ := humem
    refine (settles_apply wu (huscope c.rhs rhs_mem_scope)).bind fun lowered t' ht' ht'mem => ?_
    obtain ⟨wt', htscope', htsub'⟩ := mem_of_ran wu huscope ht'
    obtain ⟨ht'memory, ht'touched, ht'mem⟩ := ht'mem
    have hmemory : t'.memory = s.memory := ht'memory.trans (humemory.trans htmemory)
    have hp' : p.index < t'.memory.activities.size := by rwa [hmemory]
    have hreaches : ∀ u, c.Reaches p t' u → c.Reaches p s u := fun u h =>
      h.of_ran w ((ht.trans hu).trans ht') hmemory
    have hfrom : ∀ x, x ∈ t'.store.domain c.rhs → found.lower ≤ x := fun x hx =>
      ((humem x).1 (htsub' _ x hx)).2
    refine settles_store ?_
    split
    · -- only one element can be the maximum
      rename_i v hreach
      have hbound : ∀ x, x ∈ t'.store.domain c.rhs →
          max found.lower (t'.store.lower c.rhs) ≤ x := fun x hx =>
        max_le (hfrom x hx) (wt'.store.lower_le hx)
      exact (settles_channel wt' htscope' hp' (single_of_reaching wt'.store hreach hbound)).mono
        fun _ u _ => hreaches u
    rename_i hmany
    split
    · -- some value was taken
      rename_i hchanged
      refine (ih wt' htscope' hp' ?_).mono fun _ u _ => hreaches u
      have hle := ht'.store.volume_le wu.store
      have hle' := hu.store.volume_le wt.store
      have hle'' := ht.store.volume_le w.store
      rw [Bool.or_eq_true, Bool.or_eq_true] at hchanged
      rcases hchanged with (hc | hc) | hc
      · have := (htsmaller hc).resolve_left Bool.false_ne_true
        omega
      · have := hutouched.smaller hc
        omega
      · have := ht'touched.smaller hc
        omega
    · -- nothing was taken, so that the bounds agree
      rename_i hchanged
      rw [Bool.not_eq_true, Bool.or_eq_false_iff, Bool.or_eq_false_iff] at hchanged
      obtain ⟨⟨hc, hraised⟩, hlowered⟩ := hchanged
      have hsurvey := hsurveyed hc
      have hstore : t'.store = s.store := (ht'touched.unchanged hlowered).trans
        ((hutouched.unchanged hraised).trans hsurvey.store)
      refine settles_pure wt' (.inr ⟨by rw [hmemory], ?_⟩)
      have hrhas := hscope _ rhs_mem_scope
      rw [hstore] at hfrom ht'mem hmany ⊢
      have hlower : found.lower ≤ s.store.lower c.rhs := hfrom _ (w.store.lower_mem hrhas)
      rw [max_eq_right hlower] at hmany
      exact hsurvey.balanced w hscope harray hlower
        ((ht'mem _).1 (w.store.upper_mem hrhas)).2 hmany

include w hscope in
/-- A call ends with bounds that agree, or with the maximum met. -/
lemma settles_propagate (hp : p.index < s.memory.activities.size) (harray : c.array ≠ []) :
    Settles p own s (c.propagate p) fun _ t => c.Reaches p s t := by
  rw [propagate]
  exact settles_get (settles_rounds w hscope hp harray (Nat.lt_succ_self _))

end Runs

end Maximum

end FiniteDomain
