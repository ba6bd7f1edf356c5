import Mathlib.Tactic
import FiniteDomain.Proofs.Store.Events

/-!
What updates come to.

An update of a variable leaves exactly the values that were asked for, touches no variable
on another root, and says whether it changed anything.  It is refused only if no value of
the domain is asked for.

* `Grounds.any`: grounds that every request has;
* `Store.Touched`: what an update of one variable did;
* `Store.ends_apply`, `Store.ends_applyAll`, `Store.ends_updateBounds`,
  `Store.ends_restrictTo`: the updates of the store;
* `Store.apply_of_holds`, `Store.restrictTo_of_mem`: an update that asks for what holds already
  changes nothing;
* `Grounds.Closed`: domains at which no request with grounds narrows anything, with
  `Store.Narrowing.eq_of_closed` and `Store.Refused.not_closed`.
-/

namespace FiniteDomain

/-- Grounds that every request has. -/
def Grounds.any : Grounds := fun _ _ _ => True

/-- At these domains, every request with grounds holds already. -/
def Grounds.Closed (J : Grounds) (dom : VarId → IntervalSet) : Prop :=
  ∀ v op, J dom v op → ∀ x, x ∈ dom v → op.Holds x

namespace Store

variable {cause : Option PropId} {s t u : Store} {v : VarId} {op : Operation} {b b' : Bool}

/-- The store `t` comes from `s` by an update of a variable, which says whether it changed
anything. -/
structure Touched (cause : Option PropId) (v : VarId) (s t : Store) (b : Bool) : Prop where
  narrowing : Narrowing .any cause s t
  frame : ∀ u, s.root u ≠ s.root v → t.domain u = s.domain u
  unchanged : b = false → t = s
  lost : b = true → ∃ x, x ∈ s.domain v ∧ x ∉ t.domain v
  smaller : b = true → t.volume < s.volume

lemma Touched.refl : Touched cause v s s false where
  narrowing := .refl
  frame _ _ := rfl
  unchanged _ := rfl
  lost h := by cases h
  smaller h := by cases h

lemma Touched.trans (w : s.WellFormed) (h : Touched cause v s t b)
    (h' : Touched cause v t u b') : Touched cause v s u (b || b') := by
  have hsh := h.narrowing.shrinks w
  have hsh' := h'.narrowing.shrinks hsh.wellFormed
  refine ⟨h.narrowing.trans h'.narrowing, fun x hx => ?_, fun hb => ?_, fun hb => ?_,
    fun hb => ?_⟩
  · rw [h'.frame x (by rwa [hsh.root, hsh.root]), h.frame x hx]
  · rw [Bool.or_eq_false_iff] at hb
    rw [h'.unchanged hb.2, h.unchanged hb.1]
  · cases b with
    | true =>
      obtain ⟨x, hx, hx'⟩ := h.lost rfl
      exact ⟨x, hx, fun hu => hx' (hsh'.domain v x hu)⟩
    | false =>
      obtain rfl := h.unchanged rfl
      exact h'.lost hb
  · cases b with
    | true =>
      rcases h'.narrowing.volume_lt hsh.wellFormed with rfl | hlt
      · exact h.smaller rfl
      · exact hlt.trans (h.smaller rfl)
    | false =>
      obtain rfl := h.unchanged rfl
      exact h'.smaller hb

/-- An update leaves the variable the values that satisfy the request. -/
lemma mem_domain_narrow {r : Request} {rop : Operation} {d : IntervalSet} (w : s.WellFormed)
    (hv : s.has r.var = true)
    (he : (s.chain r.var).effect (s.history r.var).current r.operation = .narrowed rop d)
    {x : Int} :
    x ∈ (s.narrow r rop d).domain r.var ↔ x ∈ s.domain r.var ∧ r.operation.Holds x := by
  have w' : (s.narrow r rop d).WellFormed := w.narrow hv he
  have hnew := (narrows_narrow w hv he).mem_iff w' (y := x)
  rw [domainAt_narrow w r.var (Nat.le_refl _)] at hnew
  rw [w'.domain_eq, length_narrow, w.domain_eq]
  exact hnew

variable (w : s.WellFormed) (hv : s.has v = true)

include w hv in
/-- One request leaves the values that satisfy it, if there are any. -/
lemma ends_apply : Ends (apply cause v op) s
    (fun b t => Touched cause v s t b ∧ ∀ x, x ∈ t.domain v ↔ x ∈ s.domain v ∧ op.Holds x)
    fun _ _ => ∀ x, x ∈ s.domain v → ¬ op.Holds x := by
  simp only [Ends, apply, request]
  cases heff : (s.chain v).effect (s.history v).current op with
  | unchanged =>
    exact ⟨.refl, fun x => ⟨fun hx => ⟨hx, w.holds_of_unchanged hv heff hx⟩, And.left⟩⟩
  | fails kind => exact fun x hx => w.not_holds_of_fails hv heff hx
  | narrowed rop d =>
    have hmem := fun x => mem_domain_narrow (r := ⟨v, op, cause⟩) w hv heff (x := x)
    refine ⟨⟨Narrowing.refl.step hv trivial heff, fun u hu => domain_narrow_of_root_ne w hu,
      fun hb => ?_, fun _ => ?_, fun _ => volume_narrow_lt (r := ⟨v, op, cause⟩) w hv heff⟩, hmem⟩
    · cases hb
    · obtain ⟨y, hy, hno⟩ := w.exists_not_holds_of_narrowed hv heff
      exact ⟨y, hy, fun h => hno ((hmem y).1 h).2⟩

include w hv in
/-- Requests on one variable leave the values that satisfy all of them. -/
lemma ends_applyAll (ops : List Operation) : Ends (applyAll cause v ops) s
    (fun b t => Touched cause v s t b ∧
      ∀ x, x ∈ t.domain v ↔ x ∈ s.domain v ∧ ∀ op ∈ ops, op.Holds x)
    fun _ _ => ∀ x, x ∈ s.domain v → ¬ ∀ op ∈ ops, op.Holds x := by
  induction ops generalizing s with
  | nil => exact ends_pure ⟨.refl, fun x => ⟨fun hx => ⟨hx, by simp⟩, And.left⟩⟩
  | cons op ops ih =>
    refine Ends.bind ((ends_apply w hv).mono (fun _ _ h => h) fun _ _ h x hx hops => ?_)
      fun b t ht => ?_
    · exact h x hx (hops op List.mem_cons_self)
    · have hsh := ht.1.narrowing.shrinks w
      refine Ends.bind ((ih hsh.wellFormed ((hsh.has v).trans hv)).mono (fun _ _ h => h)
        fun _ _ h x hx hops => ?_) fun b' u hu => ends_pure ⟨ht.1.trans w hu.1, fun x => ?_⟩
      · exact h x ((ht.2 x).2 ⟨hx, hops op List.mem_cons_self⟩)
          fun op' hop' => hops op' (List.mem_cons_of_mem _ hop')
      · rw [hu.2, ht.2, List.forall_mem_cons, and_assoc]

include w hv in
/-- Tightening both bounds leaves the values between them. -/
lemma ends_updateBounds (lo hi : Int) : Ends (updateBounds cause v lo hi) s
    (fun b t => Touched cause v s t b ∧
      ∀ x, x ∈ t.domain v ↔ x ∈ s.domain v ∧ lo ≤ x ∧ x ≤ hi)
    fun _ _ => ∀ x, x ∈ s.domain v → ¬ (lo ≤ x ∧ x ≤ hi) := by
  rw [updateBounds]
  split
  · intro x _ hx
    omega
  · refine (ends_applyAll w hv _).mono (fun b t ht => ⟨ht.1, fun x => ?_⟩) fun _ _ h x hx hb => ?_
    · rw [ht.2]
      simp [Operation.Holds]
    · exact h x hx (by simpa [Operation.Holds] using hb)

/-- What a restriction to a set left: the allowed values, or, when there were none, at most
the greatest of all values. -/
def Restricted (allowed : IntervalSet) (v : VarId) (s t : Store) : Prop :=
  (∀ x, x ∈ t.domain v ↔ x ∈ s.domain v ∧ x ∈ allowed) ∨
    (∀ x, x ∈ s.domain v → x ∉ allowed) ∧ ∀ x, x ∈ t.domain v → x = Value.greatest

/-- The members of a set lie between its bounds. -/
lemma holds_bounds_of_mem {d : IntervalSet} {x : Int} (hx : x ∈ d) :
    ∀ op ∈ [Operation.atLeast d.lower, .atMost d.upper], op.Holds x := by
  intro op hop
  rcases List.mem_pair.1 hop with rfl | rfl
  · exact IntervalSet.lower_le hx
  · exact IntervalSet.le_upper hx

/-- Removing all values that are not allowed, one by one, leaves those that are. -/
lemma holds_differs_iff {d allowed : IntervalSet} {x : Int} :
    (∀ op ∈ (d \ allowed).toList.map Operation.differs, op.Holds x) ↔ (x ∈ d → x ∈ allowed) := by
  rw [List.forall_mem_map]
  constructor
  · intro h hx
    by_contra hno
    exact h x (IntervalSet.mem_toList.2 (IntervalSet.mem_diff.2 ⟨hx, hno⟩)) rfl
  · rintro h y hy rfl
    obtain ⟨hy, hno⟩ := IntervalSet.mem_diff.1 (IntervalSet.mem_toList.1 hy)
    exact hno (h hy)

include w hv in
/-- Restriction to a set. -/
lemma ends_restrictTo (allowed : IntervalSet) : Ends (restrictTo cause v allowed) s
    (fun b t => Touched cause v s t b ∧ Restricted allowed v s t)
    fun _ _ => ∀ x, x ∈ s.domain v → x ∉ allowed := by
  refine ends_bind_get ?_
  dsimp only
  split
  · rename_i hempty
    have hnone : ∀ x, x ∈ s.domain v → x ∉ allowed := fun x hx hmem =>
      IntervalSet.isEmpty_iff.1 hempty x (IntervalSet.mem_inter.2 ⟨hx, hmem⟩)
    refine ends_bind_get ((ends_apply w hv).mono (fun b t ht => ?_) fun _ _ _ => hnone)
    refine ⟨ht.1, .inr ⟨hnone, fun x hx => ?_⟩⟩
    -- only the greatest value has no value above
    obtain ⟨hold, hop⟩ := (ht.2 x).1 hx
    have hle := IntervalSet.le_upper hold
    have habove : Value.above (s.upper v) ≤ x := hop
    rw [w.upper_eq] at habove
    have hrange : x ≤ Value.greatest := (w.domain_inRange hv x hold).2
    simp only [Value.above] at habove
    omega
  · have hbounds : ∀ x, x ∈ s.domain v → x ∈ allowed → _ := fun x hx hmem =>
      holds_bounds_of_mem (IntervalSet.mem_inter.2 ⟨hx, hmem⟩)
    refine Ends.bind ((ends_applyAll w hv _).mono (fun _ _ h => h) fun _ _ h x hx hmem =>
      h x hx (hbounds x hx hmem)) fun b t ht => ?_
    have hsh := ht.1.narrowing.shrinks w
    have hkept : ∀ x, x ∈ s.domain v → x ∈ allowed → x ∈ t.domain v := fun x hx hmem =>
      (ht.2 x).2 ⟨hx, hbounds x hx hmem⟩
    refine ends_bind_get (Ends.bind ((ends_applyAll hsh.wellFormed ((hsh.has v).trans hv) _).mono
      (fun _ _ h => h) fun _ _ h x hx hmem => h x (hkept x hx hmem)
        (holds_differs_iff.2 fun _ => hmem)) fun b' u hu => ends_pure ⟨ht.1.trans w hu.1, .inl
          fun x => ?_⟩)
    rw [hu.2, holds_differs_iff]
    constructor
    · rintro ⟨hx, himp⟩
      exact ⟨((ht.2 x).1 hx).1, himp hx⟩
    · rintro ⟨hx, hmem⟩
      exact ⟨hkept x hx hmem, fun _ => hmem⟩

/-! ### Requests that hold already -/

/-- An update that is granted and takes no value changes nothing. -/
lemma eq_of_touched {f : Change} (h : Ends f s
    (fun b t => Touched cause v s t b ∧ ∀ x, x ∈ s.domain v → x ∈ t.domain v) fun _ _ => False) :
    f s = .ok false s := by
  rw [Ends] at h
  cases hf : f s with
  | ok b t =>
    rw [hf] at h
    cases b with
    | false => rw [h.1.unchanged rfl]
    | true =>
      obtain ⟨x, hx, hx'⟩ := h.1.lost rfl
      exact absurd (h.2 x hx) hx'
  | error i t =>
    rw [hf] at h
    exact h.elim

include w hv in
lemma apply_of_holds (h : ∀ x, x ∈ s.domain v → op.Holds x) :
    apply cause v op s = .ok false s := by
  obtain ⟨x, hx⟩ := w.domain_nonempty hv
  exact eq_of_touched ((ends_apply w hv).mono
    (fun _ _ ht => ⟨ht.1, fun y hy => (ht.2 y).2 ⟨hy, h y hy⟩⟩) fun _ _ hno => hno x hx (h x hx))

include w hv in
lemma restrictTo_of_mem {allowed : IntervalSet} (h : ∀ x, x ∈ s.domain v → x ∈ allowed) :
    restrictTo cause v allowed s = .ok false s := by
  obtain ⟨x, hx⟩ := w.domain_nonempty hv
  refine eq_of_touched ((ends_restrictTo w hv allowed).mono (fun _ t ht => ⟨ht.1, fun y hy => ?_⟩)
    fun _ _ hno => hno x hx (h x hx))
  rcases ht.2 with hmem | hnone
  · exact (hmem y).2 ⟨hy, h y hy⟩
  · exact absurd (h y hy) (hnone.1 y hy)

/-- When no value is allowed, a restriction asks for the bound just above the domain. -/
lemma restrictTo_eq_apply {allowed : IntervalSet} (hno : ∀ x, x ∈ s.domain v → x ∉ allowed) :
    restrictTo cause v allowed s = apply cause v (.atLeast (Value.above (s.upper v))) s := by
  have hempty : (s.domain v ∩ allowed).isEmpty = true := IntervalSet.isEmpty_iff.2 fun x hx => by
    obtain ⟨hx, hmem⟩ := IntervalSet.mem_inter.1 hx
    exact hno x hx hmem
  rw [restrictTo, bind_get]
  dsimp only
  rw [if_pos hempty, bind_get]

include w hv in
/-- There is no value above the greatest one, so that a variable that is fixed to it can be
restricted to anything. -/
lemma restrictTo_of_greatest {allowed : IntervalSet}
    (h : ∀ x, x ∈ s.domain v → x = Value.greatest) (hno : Value.greatest ∉ allowed) :
    restrictTo cause v allowed s = .ok false s := by
  have hupper : s.upper v = Value.greatest := h _ (w.upper_mem hv)
  rw [restrictTo_eq_apply fun x hx hmem => hno (h x hx ▸ hmem)]
  refine apply_of_holds w hv fun x hx => ?_
  rw [h x hx, hupper]
  exact Int.le_refl _

/-! ### Requests without effect -/

variable {J : Grounds}

include w in
/-- A run whose grounds narrow nothing changes nothing. -/
lemma Narrowing.eq_of_closed (h : Narrowing J cause s t) (hclosed : J.Closed s.domain) :
    t = s := by
  induction h with
  | refl => rfl
  | @step t v op rop d _ hv hJ he ih =>
    subst ih
    obtain ⟨x, hx, hno⟩ := w.exists_not_holds_of_narrowed hv he
    exact absurd (hclosed v op hJ x hx) hno

include w in
/-- A propagator whose grounds narrow nothing is not refused. -/
lemma Refused.not_closed {p : PropId} (h : Refused J (some p) s t) : ¬ J.Closed s.domain := by
  intro hclosed
  obtain ⟨hn, hv, hJ, hno⟩ := h
  obtain rfl := hn.eq_of_closed w hclosed
  obtain ⟨x, hx⟩ := w.domain_nonempty hv
  exact hno rfl x hx (hclosed _ _ hJ x hx)

end Store

end FiniteDomain
