import Mathlib.Tactic
import FiniteDomain.Proofs.Store.Narrowing

/-!
The past of a store.

A store answers what its domains were before each update from the histories of its roots
alone.  Here the answers are compared with the stores that were really there: each update of
the current branch is listed with the store at which it was made, and going back gives up the
updates since the checkpoint together with those stores.

* `Store.Branch`: a store with the stores just before each of its updates;
* `Store.Remembers`: what a store knows of an earlier one, with `Store.Branch.remembers`: it
  knows this of all stores of its branch;
* `Store.history_is_past`: past domains are the domains that were there, each entry of the trail
  tells how its root became smaller, and the positions of a root are its entries.
-/

namespace FiniteDomain

namespace Store

variable {past : List Store} {b s s' t : Store} {v : VarId} {r : Request} {p : Nat}

/-- The store was reached from the empty one, and the stores listed are those at which the
updates on its trail were made. -/
inductive Branch : List Store → Store → Prop
  | empty : Branch [] {}
  | addRoot {past : List Store} {s : Store} {d : IntervalSet} (h : Branch past s)
    (hd : ∃ x, x ∈ d) (hr : d.InRange) : Branch past (s.addRoot d).2
  | addView {past : List Store} {s : Store} {w : View} (h : Branch past s)
    (hb : s.has w.base = true)
    (hneg : w.condition = .negation → ∀ y, y ∈ s.initial w.base → y = 0 ∨ y = 1) :
    Branch past (s.addView w).2
  | update {past : List Store} {s t : Store} {r : Request} (h : Branch past s)
    (hv : s.has r.var = true) (hrun : request r s = .ok true t) : Branch (past ++ [s]) t
  | fail {past : List Store} {s : Store} (h : Branch past s) (r : Request) :
    Branch past { s with failure := some r }
  | takeEvents {past : List Store} {s : Store} (h : Branch past s) :
    Branch past { s with raised := [] }
  | mark {past : List Store} {s : Store} (h : Branch past s) : Branch past s.mark
  | restore {past : List Store} {s : Store} (h : Branch past s) (level : Nat) :
    Branch (past.take (s.trail.extent level)) (s.restore level)

/-- Some sequence of changes leads from the empty store to this one. -/
def Reachable (s : Store) : Prop := ∃ past, Branch past s

/-! ### Requests -/

lemma request_eq_ok_true : request r s = .ok true t ↔
    ∃ rop d, (s.chain r.var).effect (s.history r.var).current r.operation = .narrowed rop d ∧
      t = s.narrow r rop d := by
  rw [request]
  cases (s.chain r.var).effect (s.history r.var).current r.operation with
  | unchanged => simp
  | fails kind => simp [refuse]
  | narrowed rop d =>
    simp only [EStateM.Result.ok.injEq, true_and, RootEffect.narrowed.injEq]
    constructor
    · rintro rfl
      exact ⟨rop, d, ⟨rfl, rfl⟩, rfl⟩
    · rintro ⟨_, _, ⟨rfl, rfl⟩, rfl⟩
      rfl

namespace Branch

lemma wellFormed (h : Branch past s) : s.WellFormed := by
  induction h with
  | empty => exact wellFormed_empty
  | addRoot _ hd hr ih => exact ih.addRoot hd hr
  | addView _ hb hneg ih => exact ih.addView hb hneg
  | update _ hv hrun ih =>
    obtain ⟨rop, d, he, rfl⟩ := request_eq_ok_true.1 hrun
    exact ih.narrow hv he
  | fail _ _ ih => exact ih.congr rfl rfl
  | takeEvents _ ih => exact ih.congr rfl rfl
  | mark _ ih => exact ih.mark
  | restore _ _ ih => exact ih.restore

/-- There is one store for each update on the trail. -/
lemma length_past (h : Branch past s) : past.length = s.length := by
  induction h with
  | empty => rfl
  | addRoot _ _ _ ih => exact ih
  | addView _ _ _ ih => exact ih
  | update _ _ hrun ih =>
    obtain ⟨rop, d, -, rfl⟩ := request_eq_ok_true.1 hrun
    simp [ih]
  | fail _ _ ih => exact ih
  | takeEvents _ ih => exact ih
  | mark _ ih => exact ih
  | restore h level ih =>
    rw [List.length_take, ih, length_restore h.wellFormed]
    exact Nat.min_eq_left h.wellFormed.trail.extent_le_length

end Branch

/-! ### Earlier stores -/

/-- What the store knows at a position of a store `b`: the variables of `b`, and what their
domains were there.  Roots that `b` does not have were not updated before. -/
structure Remembers (s : Store) (p : Nat) (b : Store) : Prop where
  wellFormed : b.WellFormed
  has : ∀ v, b.has v = true → s.has v = true
  chain : ∀ v, b.has v = true → s.chain v = b.chain v
  root : ∀ v, b.has v = true → s.root v = b.root v
  current : ∀ v, b.has v = true → (s.history v).domainAt p = (b.history v).current
  fresh : ∀ r, s.IsRoot r → ¬ b.has r = true → ∀ q ∈ (s.history r).positions, p ≤ q

namespace Remembers

/-- Before its next update, a store knows itself. -/
lemma refl (w : s.WellFormed) : s.Remembers s.length s where
  wellFormed := w
  has _ hv := hv
  chain _ _ := rfl
  root _ _ := rfl
  current _ hv := w.domainAt_length hv
  fresh _ hr hno := absurd hr.has hno

/-- A store that keeps the past of the variables that are there, and whose roots were updated
behind the position or are there already, knows what was known. -/
lemma step (h : s.Remembers p b)
    (hold : ∀ v, s.has v = true → s'.has v = true ∧ s'.chain v = s.chain v ∧
      s'.root v = s.root v ∧ (s'.history v).domainAt p = (s.history v).domainAt p)
    (hroots : ∀ r, s'.IsRoot r → ∀ q ∈ (s'.history r).positions,
      p ≤ q ∨ s.IsRoot r ∧ q ∈ (s.history r).positions) : s'.Remembers p b where
  wellFormed := h.wellFormed
  has v hv := (hold v (h.has v hv)).1
  chain v hv := (hold v (h.has v hv)).2.1.trans (h.chain v hv)
  root v hv := (hold v (h.has v hv)).2.2.1.trans (h.root v hv)
  current v hv := (hold v (h.has v hv)).2.2.2.trans (h.current v hv)
  fresh r hr hno q hq := by
    rcases hroots r hr q hq with hle | ⟨hroot, hmem⟩
    · exact hle
    · exact h.fresh r hroot hno q hmem

/-- Fields other than the variables play no part. -/
lemma congr (h : s.Remembers p b) (hvars : s'.vars = s.vars) : s'.Remembers p b := by
  have hget : ∀ v : VarId, s'.vars[v.index]? = s.vars[v.index]? := fun v => by rw [hvars]
  have hroot : ∀ v, s'.root v = s.root v := fun v => by rw [Store.root, Store.root, hget]
  have hhist : ∀ v, s'.history v = s.history v := fun v => by
    rw [history, history, hroot, hget]
  refine h.step (fun v hv => ⟨?_, ?_, hroot v, by rw [hhist]⟩) fun r hr q hq => .inr ⟨?_, ?_⟩
  · rw [Store.has, hvars]
    exact hv
  · rw [Store.chain, Store.chain, hget]
  · rwa [IsRoot, ← hget]
  · rwa [hhist] at hq

/-- New variables: their roots are there already, or have not been updated. -/
lemma extend (h : s.Remembers p b) (w : s.WellFormed) (hext : s.Extends s')
    (hroots : ∀ r, s'.IsRoot r → s.has r = true ∨ (s'.history r).positions = []) :
    s'.Remembers p b := by
  refine h.step (fun v hv => ⟨hext.has hv, hext.chain hv, hext.root hv, ?_⟩) fun r hr q hq => ?_
  · rw [hext.history_eq w hv]
  · rcases hroots r hr with hhas | hnone
    · rw [hext.history_eq w hhas] at hq
      exact .inr ⟨(hext.isRoot hhas).1 hr, hq⟩
    · rw [hnone] at hq
      cases hq

lemma addRoot (h : s.Remembers p b) (w : s.WellFormed) (d : IntervalSet) :
    (s.addRoot d).2.Remembers p b := by
  refine h.extend w (extends_addRoot s d) fun r hr => ?_
  refine (eq_of_has_addRoot hr.has).imp_right ?_
  rintro rfl
  rw [history, hr.root_eq, getElem?_addRoot]

lemma addView (h : s.Remembers p b) (w : s.WellFormed) (w' : View) :
    (s.addView w').2.Remembers p b := by
  refine h.extend w (extends_addView s w') fun r hr => ?_
  refine (eq_of_has_addView hr.has).imp_right ?_
  rintro rfl
  obtain ⟨_, _, hget⟩ := hr
  rw [getElem?_addView] at hget
  cases hget

lemma narrow (h : s.Remembers p b) (w : s.WellFormed) (rop : Operation) (d : IntervalSet)
    (hp : p ≤ s.length) : (s.narrow r rop d).Remembers p b := by
  have hmaps := maps_narrow s r rop d
  refine h.step (fun v hv => ⟨?_, hmaps.chain v, hmaps.root v, historyAt_narrow w hv hp⟩)
    fun x hx q hq => ?_
  · rw [hmaps.has]
    exact hv
  · have hroot := (hmaps.isRoot x).1 hx
    rcases (mem_positions_narrow w hroot.has).1 hq with ⟨-, rfl⟩ | hq
    · exact .inl hp
    · exact .inr ⟨hroot, hq⟩

lemma restore (h : s.Remembers p b) (w : s.WellFormed) {level : Nat}
    (hp : p ≤ s.trail.extent level) : (s.restore level).Remembers p b := by
  have hmaps := maps_restore s level
  refine h.step (fun v hv => ⟨?_, hmaps.chain v, hmaps.root v, historyAt_restore w hv hp⟩)
    fun x hx q hq => ?_
  · rw [hmaps.has]
    exact hv
  · have hroot := (hmaps.isRoot x).1 hx
    rw [mem_positions_restore w hroot.has] at hq
    exact .inr ⟨hroot, hq.1⟩

/-- The domain of a variable that was there. -/
lemma domainAt_eq (h : s.Remembers p b) (hv : b.has v = true) : s.domainAt v p = b.domain v := by
  rw [domainAt, h.chain v hv, h.current v hv, h.wellFormed.domain_eq_image]

/-- The domain of the root of a variable, whose history it shares. -/
lemma image_eq (h : s.Remembers p b) (w : s.WellFormed) (hv : s.has v = true)
    (hr : b.has (s.root v) = true) : s.domainAt v p = (s.chain v).image (b.domain (s.root v)) := by
  rw [← h.domainAt_eq hr, (w.isRoot_root v hv).domainAt_eq, w.history_root hv, domainAt]

/-- A variable on a root that came later has its initial domain. -/
lemma initial_eq (h : s.Remembers p b) (w : s.WellFormed) (hv : s.has v = true)
    (hr : ¬ b.has (s.root v) = true) : s.domainAt v p = s.initial v := by
  have hroot := w.isRoot_root v hv
  have hfresh := h.fresh _ hroot hr
  rw [w.history_root hv] at hfresh
  rw [initial_eq_domainAt, domainAt, (w.history v hv).domainAt_eq_zero hfresh, domainAt]

end Remembers

/-- A store knows all stores of its branch. -/
lemma Branch.remembers (h : Branch past s) (hb : past[p]? = some b) : s.Remembers p b := by
  induction h with
  | empty => simp at hb
  | addRoot h _ _ ih => exact (ih hb).addRoot h.wellFormed _
  | addView h _ _ ih => exact (ih hb).addView h.wellFormed _
  | @update past s t r h _ hrun ih =>
    obtain ⟨rop, d, -, rfl⟩ := request_eq_ok_true.1 hrun
    rcases Nat.lt_or_ge p past.length with hlt | hge
    · rw [List.getElem?_append_left hlt] at hb
      exact (ih hb).narrow h.wellFormed rop d (h.length_past ▸ Nat.le_of_lt hlt)
    · -- the store at which the last update was made
      rw [List.getElem?_append_right hge, List.getElem?_singleton] at hb
      split at hb
      case isFalse => cases hb
      obtain rfl := Option.some.inj hb
      have hp : p = s.length := by
        rw [← h.length_past]
        omega
      rw [hp]
      exact (Remembers.refl h.wellFormed).narrow h.wellFormed rop d (Nat.le_refl _)
  | fail _ _ ih => exact (ih hb).congr rfl
  | takeEvents _ ih => exact (ih hb).congr rfl
  | mark _ ih => exact (ih hb).congr rfl
  | restore h level ih =>
    rw [List.getElem?_take] at hb
    split at hb
    case isFalse => cases hb
    rename_i hp
    exact (ih hb).restore h.wellFormed (Nat.le_of_lt hp)

/-- An update was granted by the store that was there before it. -/
lemma Branch.request_eq (h : Branch past s) (hb : past[p]? = some b) {u : Update}
    (hu : s.trail.entries[p]? = some u) :
    b.has u.request.var = true ∧
      ∃ t, request u.request b = .ok true t ∧ t.trail.entries[p]? = some u := by
  induction h with
  | empty => simp at hb
  | addRoot _ _ _ ih => exact ih hb hu
  | addView _ _ _ ih => exact ih hb hu
  | @update past s t r h hv hrun ih =>
    obtain ⟨rop, d, -, rfl⟩ := request_eq_ok_true.1 hrun
    have hlen : past.length = s.trail.entries.size := h.length_past
    have hentries : (s.narrow r rop d).trail.entries =
        s.trail.entries.push ⟨s.root r.var, rop, r⟩ := rfl
    rw [List.getElem?_append, hlen] at hb
    rw [hentries, Array.getElem?_push] at hu
    rcases Nat.lt_trichotomy p s.trail.entries.size with hlt | heq | hgt
    · rw [if_pos hlt] at hb
      rw [if_neg (Nat.ne_of_lt hlt)] at hu
      exact ih hb hu
    · rw [if_pos heq] at hu
      rw [if_neg (by omega), show p - s.trail.entries.size = 0 by omega] at hb
      obtain rfl := Option.some.inj hb
      obtain rfl := Option.some.inj hu
      exact ⟨hv, _, hrun, by rw [hentries, Array.getElem?_push, if_pos heq]⟩
    · rw [if_neg (by omega), Array.getElem?_eq_none (by omega)] at hu
      cases hu
  | fail _ _ ih => exact ih hb hu
  | takeEvents _ ih => exact ih hb hu
  | mark _ ih => exact ih hb hu
  | restore h level ih =>
    rw [List.getElem?_take] at hb
    simp only [Store.restore, Trail.getElem?_cut h.wellFormed.trail] at hu
    split at hb
    case isFalse => cases hb
    rename_i hp
    rw [if_pos hp] at hu
    exact ih hb hu

/-! ### The history -/

/-- The update at a position cut its root by its operation, and the variable that was asked by
what was asked; the other roots it left alone. -/
structure Cuts (s : Store) (p : Nat) (u : Update) : Prop where
  root : ∀ x, x ∈ s.domainAt u.root (p + 1) ↔ x ∈ s.domainAt u.root p ∧ u.operation.Holds x
  smaller : ∃ x, x ∈ s.domainAt u.root p ∧ x ∉ s.domainAt u.root (p + 1)
  requested : ∀ x, x ∈ s.domainAt u.request.var (p + 1) ↔
    x ∈ s.domainAt u.request.var p ∧ u.request.operation.Holds x
  others : ∀ v, s.has v = true → s.root v ≠ u.root → s.domainAt v (p + 1) = s.domainAt v p

namespace WellFormed

lemma cuts (w : s.WellFormed) {u : Update} (hu : s.trail.entries[p]? = some u) :
    s.Cuts p u := by
  have hn := w.update p u hu
  have hroot : ∀ q, s.domainAt u.root q = (s.history u.request.var).domainAt q := fun q => by
    rw [hn.root, (w.isRoot_root _ hn.has).domainAt_eq, w.history_root hn.has]
  have hkept : ∀ x, x ∈ s.domainAt u.root (p + 1) ↔
      x ∈ s.domainAt u.root p ∧ u.operation.Holds x := by
    intro x
    rw [hroot, hroot, hn.kept]
    exact and_congr_right fun hx => (hn.operation x hx).symm
  refine ⟨hkept, ?_, fun x => hn.mem_iff w, fun v hv hne => ?_⟩
  · obtain ⟨x, hx, hno⟩ := hn.lost
    rw [← hn.operation x hx] at hno
    rw [← hroot] at hx
    exact ⟨x, hx, fun h => hno ((hkept x).1 h).2⟩
  · rw [domainAt, domainAt, w.domainAt_succ_of_root_ne hv hu (Ne.symm hne)]

/-- The positions of a variable are those of the updates of its root. -/
lemma mem_positions_iff (w : s.WellFormed) (hv : s.has v = true) :
    p ∈ (s.history v).positions ↔ ∃ u, s.trail.entries[p]? = some u ∧ u.root = s.root v := by
  refine ⟨w.position v hv p, ?_⟩
  rintro ⟨u, hu, hroot⟩
  have hn := w.update p u hu
  have hmem := hn.mem_positions
  rwa [← w.history_root hn.has, ← hn.root, hroot, w.history_root hv] at hmem

lemma reverse_positions (w : s.WellFormed) (hv : s.has v = true) :
    (s.history v).positions.reverse = (List.range s.length).filter fun p =>
      decide ((s.trail.entries[p]?).map Update.root = some (s.root v)) := by
  have hfilter : ((List.range s.length).filter fun p =>
      decide ((s.trail.entries[p]?).map Update.root = some (s.root v))).Pairwise (· < ·) :=
    List.pairwise_lt_range.filter _
  refine (List.pairwise_reverse.2 (w.history v hv).descending).eq_of_mem_iff hfilter fun p => ?_
  rw [List.mem_reverse, w.mem_positions_iff hv, List.mem_filter, List.mem_range,
    decide_eq_true_iff, Option.map_eq_some_iff]
  refine ⟨fun h => ⟨?_, h⟩, And.right⟩
  obtain ⟨u, hu, -⟩ := h
  exact (Array.getElem?_eq_some_iff.1 hu).1

end WellFormed

/-- What a store says of its past is what was there.  Just before each update, the domain of a
variable was the one that the store of that moment had; a root that came later has its initial
domain, and a view that came later the image of the domain of its root.  Behind the last update
stand the domains of now.  Each update cut its root and no other one, and the positions of a
root are those of its updates, in order. -/
theorem history_is_past (h : Branch past s) :
    past.length = s.length ∧
    (∀ v, s.has v = true → s.domainAt v s.length = s.domain v) ∧
    (∀ p b, past[p]? = some b → ∀ v, s.has v = true →
      (b.has v = true → s.domainAt v p = b.domain v) ∧
      (b.has (s.root v) = true → s.domainAt v p = (s.chain v).image (b.domain (s.root v))) ∧
      (¬ b.has (s.root v) = true → s.domainAt v p = s.initial v)) ∧
    (∀ p b u, past[p]? = some b → s.trail.entries[p]? = some u →
      s.Cuts p u ∧ b.has u.request.var = true ∧
        ∃ t, request u.request b = .ok true t ∧ t.trail.entries[p]? = some u) ∧
    ∀ v, s.has v = true → (s.history v).positions.reverse =
      (List.range s.length).filter fun p =>
        decide ((s.trail.entries[p]?).map Update.root = some (s.root v)) := by
  have w := h.wellFormed
  refine ⟨h.length_past, fun v hv => (w.domain_eq_domainAt hv (Nat.le_refl _)).symm,
    fun p b hb v hv => ?_, fun p b u hb hu => ⟨w.cuts hu, h.request_eq hb hu⟩,
    fun v hv => w.reverse_positions hv⟩
  have hb := h.remembers hb
  exact ⟨hb.domainAt_eq, hb.image_eq w hv, hb.initial_eq w hv⟩

/-- A view is asked to be 0, an update behind a checkpoint is given up, and the trail grows again
at the position of that update. -/
theorem history_is_past_of_regrown :
    let s₀ := ((({} : Store).addRoot (.ofRange 0 3)).2.addView ⟨.equals 2, ⟨0⟩⟩).2
    let s₁ := s₀.narrow ⟨⟨1⟩, .atMost 0, none⟩ (.differs 2) ((IntervalSet.ofRange 0 3).erase 2)
    let s₂ := s₁.mark.narrow ⟨⟨0⟩, .atLeast 1, none⟩ (.atLeast 1) (s₁.domain ⟨0⟩ |>.atLeast 1)
    let s₃ := (s₂.restore 0).narrow ⟨⟨0⟩, .atMost 1, none⟩ (.atMost 1) (s₁.domain ⟨0⟩ |>.atMost 1)
    Branch [s₀, s₂.restore 0] s₃ ∧ s₃.domainAt ⟨1⟩ 0 = s₀.domain ⟨1⟩ ∧
      s₃.domainAt ⟨0⟩ 1 = (s₂.restore 0).domain ⟨0⟩ ∧
      (s₃.history ⟨0⟩).positions.reverse = [0, 1] := by
  intro s₀ s₁ s₂ s₃
  have h₀ : Branch [] s₀ :=
    .addView (.addRoot .empty ⟨0, by decide⟩ fun x hx => by
      have := IntervalSet.mem_ofRange.1 hx
      simp only [Value.InRange, Value.least, Value.greatest]
      omega) rfl (fun h => by cases h)
  have h₁ : Branch [s₀] s₁ := h₀.update (r := ⟨⟨1⟩, .atMost 0, none⟩) rfl
    (request_eq_ok_true.2 ⟨_, _, by decide +kernel, rfl⟩)
  have h₂ : Branch [s₀, s₁.mark] s₂ := h₁.mark.update (r := ⟨⟨0⟩, .atLeast 1, none⟩) rfl
    (request_eq_ok_true.2 ⟨_, _, by decide +kernel, rfl⟩)
  have h₃ : Branch [s₀, s₂.restore 0] s₃ := (h₂.restore 0).update (r := ⟨⟨0⟩, .atMost 1, none⟩)
    (by decide +kernel) (request_eq_ok_true.2 ⟨_, _, by decide +kernel, rfl⟩)
  obtain ⟨-, -, hpast, -, hpositions⟩ := history_is_past h₃
  exact ⟨h₃, (hpast 0 _ rfl ⟨1⟩ (by decide +kernel)).1 rfl,
    (hpast 1 _ rfl ⟨0⟩ (by decide +kernel)).1 (by decide +kernel),
    (hpositions ⟨0⟩ (by decide +kernel)).trans (by decide +kernel)⟩

end Store

end FiniteDomain
