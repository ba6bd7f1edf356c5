import Mathlib.Tactic
import FiniteDomain.Proofs.Store.Branch
import FiniteDomain.Proofs.Store.Effects

/-!
Single updates as intersections.

An update asks a variable to satisfy a comparison.  Whatever views stand between the variable
and its root, the values that satisfy the comparison are left, and the root keeps those values
at which the variable is one of them.  If there are none, the update is refused and nothing is
changed; how it is refused depends on the domain of the variable alone, because a request that
the outermost view lets through is never refused further down.

* `Operation.refusal`: how a comparison is refused that no value satisfies;
* `Chain.effect_image_of_fails`: only the outermost variable refuses;
* `Store.Intersects`: what a granted update left, changed and recorded;
* `Store.apply_intersects`: every update of a reachable store is an intersection, or is refused.
-/

namespace FiniteDomain

/-! ### Refusals -/

/-- How a comparison that no value of the domain satisfies is refused.  A single value is
missing between the bounds or lies outside them. -/
def Operation.refusal (d : IntervalSet) : Operation → Inconsistency.Kind
  | .atLeast _ | .atMost _ => .crossed
  | .differs _ => .emptied
  | .equals k => if d.lower ≤ k ∧ k ≤ d.upper then .emptied else .crossed

lemma Operation.kind_of_fails {d : IntervalSet} {op : Operation} {kind : Inconsistency.Kind}
    (h : op.effect d = .fails kind) : kind = op.refusal d := by
  cases op with
  | atLeast k => grind [effect, refusal]
  | atMost k => grind [effect, refusal]
  | differs k => grind [effect, refusal]
  | equals k => grind [effect, refusal]

namespace Chain

variable {ws : Chain} {d : IntervalSet} {op : Operation} {kind : Inconsistency.Kind}

/-- A request that fails on the root failed on the head of the chain already. -/
lemma effect_image_of_fails (h : Boolean d ws) (hd : ∃ x, x ∈ d) (hr : d.InRange)
    (he : effect ws d op = .fails kind) : op.effect (image ws d) = .fails kind := by
  cases ws with
  | nil =>
    rw [effect] at he
    split at he <;> cases he
    assumption
  | cons w ws =>
    rw [effect] at he
    split at he
    · cases he
    · cases he
      assumption
    · rename_i left heff
      -- the view keeps a value, so the request that it passes on is satisfied somewhere
      have himage : ∃ y, y ∈ image (w :: ws) d :=
        hd.imp' (value (w :: ws)) fun _ => value_mem_image h
      obtain ⟨y, hy⟩ := Operation.exists_mem_of_narrowed himage heff
      obtain ⟨hy, hop⟩ := (Operation.mem_of_narrowed heff y).1 hy
      obtain ⟨x, hx, rfl⟩ := (mem_image h hd).1 hy
      exact absurd ((holds_request h hd hr heff hx).2 hop) (not_holds_of_fails h.2 hd hr he hx)

end Chain

/-! ### Updates -/

namespace Store

variable {cause : Option PropId} {s t : Store} {v : VarId} {op : Operation} {b : Bool}

/-- A granted update left the values of the variable that satisfy the comparison, the values of
its root at which it satisfies it, and all values of the other roots.  It changed something,
and recorded it, exactly if some value did not satisfy the comparison. -/
structure Intersects (cause : Option PropId) (v : VarId) (op : Operation) (s t : Store)
    (b : Bool) : Prop where
  changed : b = true ↔ ∃ x, x ∈ s.domain v ∧ ¬ op.Holds x
  domain : ∀ x, x ∈ t.domain v ↔ x ∈ s.domain v ∧ op.Holds x
  root : ∀ x, x ∈ t.domain (s.root v) ↔
    x ∈ s.domain (s.root v) ∧ op.Holds ((s.chain v).value x)
  others : ∀ u, s.root u ≠ s.root v → t.domain u = s.domain u
  recorded : b = true → ∃ rop, t.trail = s.trail.push ⟨s.root v, rop, ⟨v, op, cause⟩⟩
  silent : b = false → t.trail = s.trail

lemma WellFormed.domain_root (w : s.WellFormed) (hv : s.has v = true) :
    s.domain (s.root v) = (s.history v).current := by
  rw [w.domain_eq_image, (w.isRoot_root v hv).chain_eq, w.history_root hv, Chain.image]

/-- A granted update is an intersection. -/
lemma intersects_of_ok (w : s.WellFormed) (hv : s.has v = true)
    (hrun : apply cause v op s = .ok b t) : Intersects cause v op s t b := by
  obtain ⟨htouched, hdomain⟩ := Ends.of_ok hrun (ends_apply w hv)
  have hchanged : b = true ↔ ∃ x, x ∈ s.domain v ∧ ¬ op.Holds x := by
    constructor
    · intro hb
      obtain ⟨x, hx, hno⟩ := htouched.lost hb
      exact ⟨x, hx, fun hop => hno ((hdomain x).2 ⟨hx, hop⟩)⟩
    · rintro ⟨x, hx, hno⟩
      by_contra hb
      rw [htouched.unchanged (Bool.not_eq_true _ ▸ hb)] at hdomain
      exact hno ((hdomain x).1 hx).2
  have hsh := htouched.narrowing.shrinks w
  cases b with
  | false =>
    obtain rfl := htouched.unchanged rfl
    refine ⟨hchanged, hdomain, fun x => ⟨fun hx => ⟨hx, ?_⟩, And.left⟩, htouched.frame, nofun,
      fun _ => rfl⟩
    rw [w.domain_root hv, ← w.domainAt_length hv] at hx
    refine ((hdomain _).1 ?_).2
    rw [w.domain_eq]
    exact w.value_mem_domainAt hv hx
  | true =>
    obtain ⟨rop, d, he, rfl⟩ := request_eq_ok_true.1 hrun
    refine ⟨hchanged, hdomain, fun x => ?_, htouched.frame, fun _ => ⟨rop, rfl⟩, nofun⟩
    have w' := hsh.wellFormed
    have hlen : (s.narrow ⟨v, op, cause⟩ rop d).length = s.length + 1 := length_narrow
    have hkept := (narrows_narrow (r := ⟨v, op, cause⟩) w hv he).kept x
    rw [← hlen, historyAt_narrow w hv (Nat.le_refl _), hsh.chain] at hkept
    rw [← hsh.root v, w'.domain_root ((hsh.has v).trans hv), hsh.root, w.domain_root hv,
      ← w'.domainAt_length ((hsh.has v).trans hv), ← w.domainAt_length hv]
    exact hkept

/-- An update that no value satisfies is refused as its comparison says. -/
lemma apply_of_not_holds (w : s.WellFormed) (hv : s.has v = true)
    (hno : ∀ x, x ∈ s.domain v → ¬ op.Holds x) :
    apply cause v op s =
      .error ⟨op.refusal (s.domain v), v⟩ { s with failure := some ⟨v, op, cause⟩ } := by
  obtain ⟨x, hx⟩ := w.domain_nonempty hv
  rw [apply, request]
  cases he : (s.chain v).effect (s.history v).current op with
  | unchanged => exact absurd (w.holds_of_unchanged hv he hx) (hno x hx)
  | narrowed rop d =>
    obtain ⟨y, hy, hop⟩ := w.exists_holds_of_narrowed hv he
    exact absurd hop (hno y hy)
  | fails kind =>
    have hkind := Operation.kind_of_fails (Chain.effect_image_of_fails (w.boolean_current hv)
      (w.current_nonempty hv) (w.current_inRange hv) he)
    rw [hkind, ← w.domain_eq_image]
    rfl

/-- Each update of one variable of a reachable store is an intersection, on roots and through
any chain of views.  If some value of the domain satisfies the comparison, the update is
granted.  Otherwise it is refused in the name of the variable, and no domain and no entry of
the trail changes. -/
theorem apply_intersects (h : s.Reachable) (hv : s.has v = true) (cause : Option PropId)
    (op : Operation) :
    ((∃ x, x ∈ s.domain v ∧ op.Holds x) →
      ∃ b t, apply cause v op s = .ok b t ∧ Intersects cause v op s t b) ∧
    ((∀ x, x ∈ s.domain v → ¬ op.Holds x) →
      ∃ t, apply cause v op s = .error ⟨op.refusal (s.domain v), v⟩ t ∧
        t.trail = s.trail ∧ ∀ u, t.domain u = s.domain u) := by
  obtain ⟨past, h⟩ := h
  have w := h.wellFormed
  constructor
  · rintro ⟨x, hx, hop⟩
    cases hrun : apply cause v op s with
    | ok b t => exact ⟨b, t, rfl, intersects_of_ok w hv hrun⟩
    | error i t => exact absurd hop (Ends.of_error hrun (ends_apply w hv) x hx)
  · intro hno
    exact ⟨_, apply_of_not_holds w hv hno, rfl, fun _ => rfl⟩

/-- A negation of an equality is asked to be 0, and a root for a value that is missing between
its bounds. -/
theorem apply_intersects_of_chain :
    let s := ((((({} : Store).addRoot (.ofList [0, 2, 5])).2.addView ⟨.equals 2, ⟨0⟩⟩).2).addView
      ⟨.negation, ⟨1⟩⟩).2
    (∃ b t, apply none ⟨2⟩ (.equals 0) s = .ok b t ∧ Intersects none ⟨2⟩ (.equals 0) s t b) ∧
      ∃ t, apply none ⟨0⟩ (.equals 3) s = .error ⟨.emptied, ⟨0⟩⟩ t ∧ t.trail = s.trail ∧
        ∀ u, t.domain u = s.domain u := by
  intro s
  have h : s.Reachable := by
    refine ⟨[], .addView (.addView (.addRoot .empty ⟨0, by decide⟩ fun x hx => ?_) rfl nofun) rfl
      fun _ y hy => ?_⟩
    · have hx := IntervalSet.mem_ofList.1 hx
      simp only [List.mem_cons, List.not_mem_nil, or_false] at hx
      rcases hx with rfl | rfl | rfl <;> decide
    · have hy := Booleans.mem_toSet.1 hy
      omega
  refine ⟨(apply_intersects h rfl none (.equals 0)).1 ⟨0, by decide⟩,
    (apply_intersects h rfl none (.equals 3)).2 fun x hx hop => ?_⟩
  obtain rfl : x = 3 := hop
  exact absurd hx (by decide)

end Store

end FiniteDomain
