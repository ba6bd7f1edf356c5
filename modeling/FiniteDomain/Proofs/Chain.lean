import Mathlib.Tactic
import FiniteDomain.View

/-!
Chains of views, value by value.

A request on the head of a chain is translated down to the root.  What becomes
of the root is described here by the values of the head alone: the root keeps
exactly the values at which the head satisfies the request.

* `IntervalSet.InRange`: all members are values of a program, which the bounds decide;
* `Chain.Boolean`: every negation of the chain has a boolean base;
* `Chain.mem_image`: the image of a domain consists of the values of the head;
* `Chain.reading_eq`: the answers of the head, without the image as a set;
* `Chain.holds_of_unchanged`, `Chain.not_holds_of_fails`,
  `Chain.mem_of_narrowed`: what the three effects of a request mean for the
  values of the head;
* `View.Saturated`, `Chain.Saturated`: an order view whose bound has no value
  above, and such a view on a root;
* `Chain.mem_preimage_iff`: the values that a literal on the head allows when it
  is rewritten onto the root, with `Chain.mem_preimage_of_mem` and
  `Chain.value_mem_of_mem_preimage`: they are all that it should allow, and no
  others as long as the greatest value is not in the domain.
-/

namespace FiniteDomain

/-- All members are values that a program may use. -/
def IntervalSet.InRange (d : IntervalSet) : Prop := ∀ x, x ∈ d → Value.InRange x

/-- It is enough to look at the bounds. -/
lemma IntervalSet.inRange_iff {d : IntervalSet} :
    d.InRange ↔ d.isEmpty = true ∨ Value.InRange d.lower ∧ Value.InRange d.upper := by
  constructor
  · intro h
    cases hempty : d.isEmpty with
    | true => exact .inl rfl
    | false =>
      have hne := IntervalSet.isEmpty_eq_false_iff.1 hempty
      exact .inr ⟨h _ (IntervalSet.lower_mem hne), h _ (IntervalSet.upper_mem hne)⟩
  · rintro (hempty | ⟨hlower, hupper⟩) x hx
    · exact absurd hx (IntervalSet.isEmpty_iff.1 hempty x)
    · exact ⟨hlower.1.trans (IntervalSet.lower_le hx), (IntervalSet.le_upper hx).trans hupper.2⟩

instance (d : IntervalSet) : Decidable d.InRange := decidable_of_iff _ IntervalSet.inRange_iff.symm

/-! ### One operation -/

namespace Operation

variable {d left : IntervalSet} {op : Operation}

/-- A narrowed domain keeps a value. -/
lemma exists_mem_of_narrowed (hd : ∃ x, x ∈ d) (h : op.effect d = .narrowed left) :
    ∃ x, x ∈ left := by
  simp only [mem_of_narrowed h]
  have hlo := IntervalSet.lower_mem hd
  have hhi := IntervalSet.upper_mem hd
  cases op with
  | atLeast k => exact ⟨d.upper, hhi, by grind [effect, Holds]⟩
  | atMost k => exact ⟨d.lower, hlo, by grind [effect, Holds]⟩
  | differs k =>
    have hne : d.lower ≠ d.upper := by
      intro he
      have : d.isFixed = true := by rw [IntervalSet.isFixed, he, beq_self_eq_true]
      grind [effect]
    by_cases hk : d.lower = k
    · exact ⟨d.upper, hhi, by rw [Holds]; omega⟩
    · exact ⟨d.lower, hlo, hk⟩
  | equals k => exact ⟨k, by grind [effect], rfl⟩

/-- A narrowed domain has lost a value. -/
lemma exists_not_holds_of_narrowed (hd : ∃ x, x ∈ d) (h : op.effect d = .narrowed left) :
    ∃ x, x ∈ d ∧ ¬ op.Holds x := by
  have hlo := IntervalSet.lower_mem hd
  have hhi := IntervalSet.upper_mem hd
  cases op with
  | atLeast k => exact ⟨d.lower, hlo, by grind [effect, Holds]⟩
  | atMost k => exact ⟨d.upper, hhi, by grind [effect, Holds]⟩
  | differs k => exact ⟨k, by grind [effect], fun hk => hk rfl⟩
  | equals k =>
    have hne : d.lower ≠ d.upper := by
      intro he
      have : d.isFixed = true := by rw [IntervalSet.isFixed, he, beq_self_eq_true]
      grind [effect]
    by_cases hk : d.lower = k
    · exact ⟨d.upper, hhi, by rw [Holds]; omega⟩
    · exact ⟨d.lower, hlo, hk⟩

end Operation

/-- The preimage has all values of the base at which the view lies in the set. -/
lemma View.mem_preimage_of_mem {w : View} {values d : IntervalSet} {x : Int} (hx : x ∈ d)
    (hbool : w.value x = 0 ∨ w.value x = 1) (hv : w.value x ∈ values) :
    x ∈ w.preimage values d := by
  rw [preimage, IntervalSet.mem_union]
  rcases hbool with e | e
  · left
    rw [e] at hv
    rw [if_pos hv]
    cases hc : w.condition with
    | atMost k =>
      have hk : k < x := by
        simp only [value, hc] at e
        grind
      simp only [zeros, hc, IntervalSet.mem_atLeast, Value.above]
      exact ⟨hx, by omega⟩
    | equals k => exact (mem_zeros (by grind)).2 ⟨hx, e⟩
    | negation => exact (mem_zeros (by grind)).2 ⟨hx, e⟩
  · right
    rw [e] at hv
    rw [if_pos hv]
    exact mem_ones.2 ⟨hx, e⟩

/-- The view is an order view whose bound has no value above. -/
def View.Saturated (w : View) : Prop := ∃ k, w.condition = .atMost k ∧ Value.greatest ≤ k

/-- The preimage has the values of the base at which the view lies in the set.  A bound without a
value above stays on the greatest value, which then stands for those at which the view is 0. -/
lemma View.mem_preimage_iff {w : View} {values d : IntervalSet} {x : Int}
    (hb : w.condition = .negation → ∀ x, x ∈ d → x = 0 ∨ x = 1)
    (hle : ∀ x, x ∈ d → x ≤ Value.greatest) :
    x ∈ w.preimage values d ↔
      x ∈ d ∧ (w.value x ∈ values ∨ w.Saturated ∧ x = Value.greatest ∧ 0 ∈ values) := by
  by_cases hsat : w.Saturated
  · obtain ⟨k, hc, hk⟩ := id hsat
    have hzeros : x ∈ w.zeros d ↔ x ∈ d ∧ Value.greatest ≤ x := by
      simp only [zeros, hc, IntervalSet.mem_atLeast, Value.above]
      rw [min_eq_right (by omega)]
    have hvalue : x ∈ d → w.value x = 1 := fun hx => by
      simp only [value, hc]
      exact if_pos ((hle x hx).trans hk)
    rw [preimage, IntervalSet.mem_union]
    split <;> split <;> grind [IntervalSet.not_mem_empty, mem_ones]
  · have hk : ∀ k, w.condition = .atMost k → k < Value.greatest :=
      fun k hc => Int.not_le.1 fun hk => hsat ⟨k, hc, hk⟩
    rw [mem_preimage hk hb]
    simp only [hsat, false_and, or_false]

/-- The request for a boolean value holds exactly where the view has that value.
The bound of an order view that is to be 0 has to have a value above. -/
lemma View.holds_request {w : View} {t x : Int} (ht : t = 0 ∨ t = 1)
    (hk : ∀ k, w.condition = .atMost k → t = 0 → k < Value.greatest) :
    (w.request t).Holds x ↔ w.value x = t := by
  cases hc : w.condition with
  | equals k => rcases ht with rfl | rfl <;> simp [request, value, hc, Operation.Holds]
  | atMost k =>
    rcases ht with rfl | rfl
    · simp only [request, value, hc, Value.above_of_lt (hk k hc rfl), Operation.Holds]
      grind
    · simp [request, value, hc, Operation.Holds]
  | negation =>
    simp only [request, value, hc, Operation.Holds]
    omega

namespace Chain

variable {ws : Chain} {w : View} {d left : IntervalSet} {op rop : Operation}

/-! ### Values and images -/

/-- Wherever the chain has a negation, its base has boolean values on `d`. -/
def Boolean (d : IntervalSet) : Chain → Prop
  | [] => True
  | w :: ws =>
    (w.condition = .negation → ∀ x, x ∈ d → value ws x = 0 ∨ value ws x = 1) ∧ Boolean d ws

lemma Boolean.mono {d' : IntervalSet} (h : Boolean d ws) (hsub : ∀ x, x ∈ d' → x ∈ d) :
    Boolean d' ws := by
  induction ws with
  | nil => trivial
  | cons w ws ih => exact ⟨fun hc x hx => h.1 hc x (hsub x hx), ih h.2⟩

lemma value_boolean (h : Boolean d (w :: ws)) {x : Int} (hx : x ∈ d) :
    value (w :: ws) x = 0 ∨ value (w :: ws) x = 1 :=
  View.value_boolean fun hc => h.1 hc x hx

lemma value_inRange (h : Boolean d ws) (hd : d.InRange) {x : Int} (hx : x ∈ d) :
    Value.InRange (value ws x) := by
  cases ws with
  | nil => exact hd x hx
  | cons w ws => rcases value_boolean h hx with e | e <;> rw [e] <;> decide

/-- Only a root has other values than 0 and 1. -/
lemma value_le (h : Boolean d ws) (hd : ∀ x, x ∈ d → x ≤ Value.greatest) {x : Int} (hx : x ∈ d) :
    value ws x ≤ Value.greatest := by
  cases ws with
  | nil => exact hd x hx
  | cons w ws => rcases value_boolean h hx with e | e <;> rw [e] <;> decide

/-- The image of a domain consists of the values of the head. -/
lemma mem_image (h : Boolean d ws) (hd : ∃ x, x ∈ d) {y : Int} :
    y ∈ image ws d ↔ ∃ x, x ∈ d ∧ value ws x = y := by
  induction ws generalizing y with
  | nil => simp [image, value]
  | cons w ws ih =>
    have himage : ∃ y, y ∈ image ws d := by
      obtain ⟨x, hx⟩ := hd
      exact ⟨value ws x, (ih h.2).2 ⟨x, hx, rfl⟩⟩
    have hbase : w.condition = .negation → ∀ y, y ∈ image ws d → y = 0 ∨ y = 1 := by
      intro hc y hy
      obtain ⟨x, hx, rfl⟩ := (ih h.2).1 hy
      exact h.1 hc x hx
    rw [image, View.mem_image himage hbase]
    constructor
    · rintro ⟨y, hy, rfl⟩
      obtain ⟨x, hx, rfl⟩ := (ih h.2).1 hy
      exact ⟨x, hx, rfl⟩
    · rintro ⟨x, hx, rfl⟩
      exact ⟨value ws x, (ih h.2).2 ⟨x, hx, rfl⟩, rfl⟩

lemma value_mem_image (h : Boolean d ws) {x : Int} (hx : x ∈ d) : value ws x ∈ image ws d :=
  (mem_image h ⟨x, hx⟩).2 ⟨x, hx, rfl⟩

/-- A chain needs the answers of the root only, and its own are those of the image. -/
lemma reading_eq (h : Boolean d ws) (hd : ∃ x, x ∈ d) :
    reading ws d.reading = (image ws d).reading := by
  induction ws with
  | nil => rfl
  | cons w ws ih =>
    obtain ⟨x, hx⟩ := hd
    rw [reading, ih h.2, image, View.image]
    exact Booleans.reading_eq ⟨_, value_mem_image h hx⟩

/-! ### Requests -/

/-- A request that narrows a view is passed on as a request that holds at the same
values of the root. -/
lemma holds_request (h : Boolean d (w :: ws)) (hd : ∃ x, x ∈ d) (hr : d.InRange)
    (he : op.effect (image (w :: ws) d) = .narrowed left) {x : Int} (hx : x ∈ d) :
    (w.request left.lower).Holds (value ws x) ↔ op.Holds (value (w :: ws) x) := by
  have himage : ∃ y, y ∈ image (w :: ws) d := ⟨_, value_mem_image h hx⟩
  have hbool : ∀ y, y ∈ image (w :: ws) d → y = 0 ∨ y = 1 := by
    intro y hy
    obtain ⟨x', hx', rfl⟩ := (mem_image h hd).1 hy
    exact value_boolean h hx'
  obtain ⟨y, hy⟩ := Operation.exists_mem_of_narrowed himage he
  obtain ⟨z, hz, hzop⟩ := Operation.exists_not_holds_of_narrowed himage he
  have hlow : left.lower ∈ left := IntervalSet.lower_mem ⟨y, hy⟩
  obtain ⟨hlowimage, hlowop⟩ := (Operation.mem_of_narrowed he _).1 hlow
  have ht := hbool _ hlowimage
  -- the value that the view is to take is the only one of its two that holds
  have honly : ∀ y, y ∈ image (w :: ws) d → (op.Holds y ↔ y = left.lower) := by
    intro y hy
    constructor
    · intro hop
      by_contra hne
      have : y = z := by
        have := hbool y hy
        have := hbool z hz
        have : z ≠ left.lower := fun e => hzop (e ▸ hlowop)
        omega
      exact hzop (this ▸ hop)
    · rintro rfl
      exact hlowop
  have hk : ∀ k, w.condition = .atMost k → left.lower = 0 → k < Value.greatest := by
    intro k hc h0
    obtain ⟨x', hx', hv⟩ := (mem_image h hd).1 hlowimage
    have hup := (value_inRange h.2 hr hx').2
    simp only [value, View.value, hc, h0] at hv
    grind
  rw [View.holds_request ht hk, honly _ (value_mem_image h hx), value]

lemma holds_of_unchanged (h : Boolean d ws) (hd : ∃ x, x ∈ d) (hr : d.InRange)
    (he : effect ws d op = .unchanged) {x : Int} (hx : x ∈ d) : op.Holds (value ws x) := by
  induction ws generalizing op with
  | nil =>
    rw [effect] at he
    split at he <;> cases he
    rename_i heff
    exact Operation.holds_of_unchanged heff hx
  | cons w ws ih =>
    rw [effect] at he
    split at he
    · rename_i heff
      exact Operation.holds_of_unchanged heff (value_mem_image h hx)
    · cases he
    · rename_i left heff
      exact (holds_request h hd hr heff hx).1 (ih h.2 he)

lemma not_holds_of_fails {kind : Inconsistency.Kind} (h : Boolean d ws) (hd : ∃ x, x ∈ d)
    (hr : d.InRange) (he : effect ws d op = .fails kind) {x : Int} (hx : x ∈ d) :
    ¬ op.Holds (value ws x) := by
  induction ws generalizing op with
  | nil =>
    rw [effect] at he
    split at he <;> cases he
    rename_i heff
    exact Operation.not_holds_of_fails heff hx
  | cons w ws ih =>
    rw [effect] at he
    split at he
    · cases he
    · rename_i heff
      exact Operation.not_holds_of_fails heff (value_mem_image h hx)
    · rename_i left heff
      exact fun hop => ih h.2 he ((holds_request h hd hr heff hx).2 hop)

/-- A narrowed root keeps the values at which the head satisfies the request. -/
lemma mem_of_narrowed (h : Boolean d ws) (hd : ∃ x, x ∈ d) (hr : d.InRange)
    (he : effect ws d op = .narrowed rop left) {x : Int} :
    x ∈ left ↔ x ∈ d ∧ op.Holds (value ws x) := by
  induction ws generalizing op with
  | nil =>
    rw [effect] at he
    split at he <;> cases he
    rename_i heff
    exact Operation.mem_of_narrowed heff x
  | cons w ws ih =>
    rw [effect] at he
    split at he <;> try cases he
    rename_i heff
    rw [ih h.2 he]
    exact and_congr_right fun hx => holds_request h hd hr heff hx

/-- The operation on the root holds where the head satisfies the request. -/
lemma holds_of_narrowed (h : Boolean d ws) (hd : ∃ x, x ∈ d) (hr : d.InRange)
    (he : effect ws d op = .narrowed rop left) {x : Int} (hx : x ∈ d) :
    rop.Holds x ↔ op.Holds (value ws x) := by
  induction ws generalizing op with
  | nil =>
    rw [effect] at he
    split at he <;> cases he
    exact Iff.rfl
  | cons w ws ih =>
    rw [effect] at he
    split at he <;> try cases he
    rename_i heff
    exact (ih h.2 he).trans (holds_request h hd hr heff hx)

/-- A narrowed root keeps a value and has lost one. -/
lemma exists_of_narrowed (h : Boolean d ws) (hd : ∃ x, x ∈ d) (hr : d.InRange)
    (he : effect ws d op = .narrowed rop left) :
    (∃ x, x ∈ d ∧ op.Holds (value ws x)) ∧ ∃ x, x ∈ d ∧ ¬ op.Holds (value ws x) := by
  induction ws generalizing op with
  | nil =>
    rw [effect] at he
    split at he <;> cases he
    rename_i heff
    obtain ⟨x, hx⟩ := Operation.exists_mem_of_narrowed hd heff
    exact ⟨⟨x, (Operation.mem_of_narrowed heff x).1 hx⟩,
      Operation.exists_not_holds_of_narrowed hd heff⟩
  | cons w ws ih =>
    rw [effect] at he
    split at he <;> try cases he
    rename_i heff
    obtain ⟨⟨x, hx, hxop⟩, y, hy, hyop⟩ := ih h.2 he
    rw [holds_request h hd hr heff hx] at hxop
    rw [holds_request h hd hr heff hy] at hyop
    exact ⟨⟨x, hx, hxop⟩, y, hy, hyop⟩

/-! ### Literals on the head as literals on the root -/

/-- All values of the root at which the head lies in the set are allowed. -/
lemma mem_preimage_of_mem (h : Boolean d ws) {values : IntervalSet} {x : Int}
    (hx : x ∈ d) (hv : value ws x ∈ values) : x ∈ preimage ws values d := by
  induction ws generalizing values with
  | nil => exact IntervalSet.mem_inter.2 ⟨hv, hx⟩
  | cons w ws ih =>
    exact ih h.2 (View.mem_preimage_of_mem (value_mem_image h.2 hx) (value_boolean h hx) hv)

/-- Only values of the domain are allowed. -/
lemma mem_of_mem_preimage {values : IntervalSet} {x : Int} (hx : x ∈ preimage ws values d) :
    x ∈ d := by
  induction ws generalizing values with
  | nil => exact (IntervalSet.mem_inter.1 hx).2
  | cons w ws ih => exact ih hx

/-- The chain is such a view directly on a root. -/
def Saturated (ws : Chain) : Prop := ∃ w : View, ws = [w] ∧ w.Saturated

/-- No value lies above the bound of such a view. -/
lemma Saturated.value_eq_one (h : ws.Saturated) (hd : ∀ x, x ∈ d → x ≤ Value.greatest) {x : Int}
    (hx : x ∈ d) : value ws x = 1 := by
  obtain ⟨w, rfl, k, hc, hk⟩ := h
  simp only [value, View.value, hc]
  exact if_pos ((hd x hx).trans hk)

/-- Only the greatest value can be allowed without the head lying in the set, and only if the head
is on the root itself.  Further up the chain, the base of a view has no values but 0 and 1. -/
lemma mem_preimage_iff (h : Boolean d ws) (hle : ∀ x, x ∈ d → x ≤ Value.greatest)
    {values : IntervalSet} {x : Int} :
    x ∈ preimage ws values d ↔
      x ∈ d ∧ (value ws x ∈ values ∨ ws.Saturated ∧ x = Value.greatest ∧ 0 ∈ values) := by
  induction ws generalizing values with
  | nil =>
    rw [preimage, IntervalSet.mem_inter, value, and_comm]
    refine and_congr_right fun _ => (or_iff_left ?_).symm
    rintro ⟨⟨w, hnil, -⟩, -⟩
    cases hnil
  | cons w ws ih =>
    by_cases hx : x ∈ d
    case neg => exact iff_of_false (fun hmem => hx (mem_of_mem_preimage hmem)) fun hmem => hx hmem.1
    have hvalues : ∀ y, y ∈ image ws d → ∃ z, z ∈ d ∧ value ws z = y :=
      fun y => (mem_image h.2 ⟨x, hx⟩).1
    have hb : w.condition = .negation → ∀ y, y ∈ image ws d → y = 0 ∨ y = 1 := by
      rintro hc y hy
      obtain ⟨z, hz, rfl⟩ := hvalues y hy
      exact h.1 hc z hz
    have himage : ∀ y, y ∈ image ws d → y ≤ Value.greatest := by
      intro y hy
      obtain ⟨z, hz, rfl⟩ := hvalues y hy
      exact value_le h.2 hle hz
    -- a base that is such a view itself is 1 everywhere
    have hbase : Saturated ws → 0 ∉ w.preimage values (image ws d) := by
      intro hsat hzero
      obtain ⟨z, hz, hval⟩ := hvalues 0 ((View.mem_preimage_iff hb himage).1 hzero).1
      rw [hsat.value_eq_one hle hz] at hval
      cases hval
    have hhead : w.Saturated ∧ value ws x = Value.greatest ↔
        Saturated (w :: ws) ∧ x = Value.greatest := by
      constructor
      · rintro ⟨hw, hval⟩
        cases ws with
        | nil => exact ⟨⟨w, rfl, hw⟩, hval⟩
        | cons w' ws => rcases value_boolean h.2 hx with e | e <;> rw [e] at hval <;> cases hval
      · rintro ⟨⟨w', hcons, hw⟩, hval⟩
        cases hcons
        exact ⟨hw, hval⟩
    rw [preimage, ih h.2, View.mem_preimage_iff hb himage, ← and_assoc, hhead, and_assoc, value]
    refine and_congr_right fun _ => ?_
    rw [or_iff_left fun hbad => hbase hbad.1 hbad.2.2]
    exact and_iff_right (value_mem_image h.2 hx)

/-- No other values are allowed, as long as every value has one above. -/
lemma value_mem_of_mem_preimage (h : Boolean d ws) (hd : ∀ x, x ∈ d → x < Value.greatest)
    {values : IntervalSet} {x : Int} (hx : x ∈ preimage ws values d) :
    value ws x ∈ values := by
  obtain ⟨hxd, hor⟩ := (mem_preimage_iff h fun y hy => (hd y hy).le).1 hx
  exact hor.resolve_right fun hsat => (hd x hxd).ne hsat.2.1

end Chain

end FiniteDomain
