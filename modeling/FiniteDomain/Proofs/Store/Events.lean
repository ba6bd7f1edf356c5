import Mathlib.Tactic
import FiniteDomain.Proofs.Assoc
import FiniteDomain.Proofs.Store.Continuation

/-!
Events that updates raise.

No change of a domain goes unnoticed: an update raises events on its root and on every
view that follows the root, and they tell in which way each domain became smaller.

* `EventSet.Concerns`: a condition asks for a change of a domain;
* `EventSet.change`: the events that a change of a domain amounts to;
* `Store.Tells`: raised events meet a condition;
* `Store.Followed`: every root knows the views that follow it, which all changes of a
  store keep;
* `Store.mem_newEvents`: the events of an update are those of the domains that it changed;
* `Store.Narrowing.tells`: the changes that a condition asks for are told;
* `Store.Narrowing.volume_lt`: a run that changes anything leaves fewer values.
-/

namespace FiniteDomain

/-! ### Sets that shrink -/

namespace IntervalSet

variable {s t : IntervalSet}

/-- Between two bounds that are 0 or 1 there is nothing to lose. -/
lemma eq_of_bounds (hbool : ∀ x, x ∈ t → x = 0 ∨ x = 1) (hsub : ∀ x, x ∈ s → x ∈ t)
    (hs : ∃ x, x ∈ s) (hlower : s.lower = t.lower) (hupper : s.upper = t.upper) : s = t := by
  have hl := lower_mem hs
  have hu := upper_mem hs
  refine ext fun x => ⟨hsub x, fun hx => ?_⟩
  -- each value is one of the bounds
  have hle : s.lower ≤ x := hlower ▸ lower_le hx
  have hge : x ≤ s.upper := hupper ▸ le_upper hx
  have hcases : x = s.lower ∨ x = s.upper := by
    have := hbool x hx
    have := hbool _ (hsub _ hl)
    have := hbool _ (hsub _ hu)
    omega
  rcases hcases with rfl | rfl
  · exact hl
  · exact hu

/-- A set that has lost a value is smaller. -/
lemma size_lt (hsub : ∀ x, x ∈ s → x ∈ t) (hlost : ∃ x, x ∈ t ∧ x ∉ s) :
    s.size < t.size := by
  obtain ⟨x, hx, hx'⟩ := hlost
  have hnodup : (x :: s.toList).Nodup :=
    List.nodup_cons.2 ⟨fun h => hx' (mem_toList.1 h), s.toList_sorted.imp fun h => ne_of_lt h⟩
  have hsubset : (x :: s.toList) ⊆ t.toList := by
    intro y hy
    rcases List.mem_cons.1 hy with rfl | hy
    · exact mem_toList.2 hx
    · exact mem_toList.2 (hsub y (mem_toList.1 hy))
  have := (List.subperm_of_subset hnodup hsubset).length_le
  rw [List.length_cons, length_toList, length_toList] at this
  omega

end IntervalSet

/-! ### Conditions -/

namespace EventSet

variable {c s t : EventSet} {a b d : IntervalSet}

/-- The condition asks for a change of the domain from `old` to `new`. -/
def Concerns (c : EventSet) (old new : IntervalSet) : Prop :=
  c.removed = true ∧ (∃ x, x ∈ old ∧ x ∉ new) ∨
    c.lowerRaised = true ∧ new.lower ≠ old.lower ∨
      c.upperLowered = true ∧ new.upper ≠ old.upper

lemma not_concerns_self : ¬ c.Concerns d d := by
  rintro (⟨-, x, hx, hx'⟩ | ⟨-, h⟩ | ⟨-, h⟩)
  · exact hx' hx
  · exact h rfl
  · exact h rfl

/-- A change in two steps is made in one of them. -/
lemma Concerns.split (h : c.Concerns a d) (b : IntervalSet) :
    c.Concerns a b ∨ c.Concerns b d := by
  rcases h with ⟨hc, x, hx, hx'⟩ | ⟨hc, h⟩ | ⟨hc, h⟩
  · by_cases hb : x ∈ b
    · exact .inr (.inl ⟨hc, x, hb, hx'⟩)
    · exact .inl (.inl ⟨hc, x, hx, hb⟩)
  · by_cases hb : b.lower = a.lower
    · exact .inr (.inr (.inl ⟨hc, hb ▸ h⟩))
    · exact .inl (.inr (.inl ⟨hc, hb⟩))
  · by_cases hb : b.upper = a.upper
    · exact .inr (.inr (.inr ⟨hc, hb ▸ h⟩))
    · exact .inl (.inr (.inr ⟨hc, hb⟩))

/-- Without a change that is asked for by `any`, all values are left. -/
lemma mem_of_not_concerns (h : ¬ any.Concerns a b) {x : Int} (hx : x ∈ a) : x ∈ b := by
  by_contra hb
  exact h (.inl ⟨rfl, x, hx, hb⟩)

/-- Without a change that is asked for by `boundsAndAssign`, the bounds stay. -/
lemma bounds_of_not_concerns (h : ¬ boundsAndAssign.Concerns a b) :
    b.lower = a.lower ∧ b.upper = a.upper := by
  constructor
  · by_contra hne
    exact h (.inr (.inl ⟨rfl, hne⟩))
  · by_contra hne
    exact h (.inr (.inr ⟨rfl, hne⟩))

lemma meets_union_left (h : c.meets s = true) (t : EventSet) : c.meets (s.union t) = true := by
  obtain ⟨e, hc, hs⟩ := meets_iff.1 h
  exact meets_iff.2 ⟨e, hc, mem_union.2 (.inl hs)⟩

lemma meets_union_right (h : c.meets t = true) (s : EventSet) : c.meets (s.union t) = true := by
  obtain ⟨e, hc, ht⟩ := meets_iff.1 h
  exact meets_iff.2 ⟨e, hc, mem_union.2 (.inr ht)⟩

/-! ### Changes of domains -/

/-- The events of a change of a domain. -/
def change (old new : IntervalSet) : EventSet :=
  { ofBounds old.reading.bounds new.reading.bounds with removed := new != old }

lemma removal_mem_change : .removal ∈ change a b ↔ b ≠ a := bne_iff_ne

lemma lowerBound_mem_change : .lowerBound ∈ change a b ↔ b.lower ≠ a.lower := bne_iff_ne

lemma upperBound_mem_change : .upperBound ∈ change a b ↔ b.upper ≠ a.upper := bne_iff_ne

/-- What a condition asks for is among the events. -/
lemma Concerns.meets_change (h : c.Concerns a b) : c.meets (change a b) = true := by
  rcases h with ⟨hc, x, hx, hx'⟩ | ⟨hc, h⟩ | ⟨hc, h⟩
  · refine meets_iff.2 ⟨.removal, hc, removal_mem_change.2 ?_⟩
    rintro rfl
    exact hx' hx
  · exact meets_iff.2 ⟨.lowerBound, hc, lowerBound_mem_change.2 h⟩
  · exact meets_iff.2 ⟨.upperBound, hc, upperBound_mem_change.2 h⟩

/-- The events of a root that loses a value. -/
lemma change_of_ne (h : b ≠ a) :
    change a b = ofBounds a.reading.bounds b.reading.bounds ∪ ofList [.removal] := by
  have hremoved : (b != a) = true := bne_iff_ne.2 h
  rw [change, hremoved]
  simp [Union.union, union, ofList, insert]

/-- The events of a boolean variable, which loses values at its bounds only. -/
lemma change_of_boolean (hbool : ∀ x, x ∈ a → x = 0 ∨ x = 1) (hsub : ∀ x, x ∈ b → x ∈ a)
    (hb : ∃ x, x ∈ b) : change a b = ofBounds a.reading.bounds b.reading.bounds := by
  have hremoved : (b != a) = (b.lower != a.lower || b.upper != a.upper) := by
    rw [Bool.eq_iff_iff, Bool.or_eq_true, bne_iff_ne, bne_iff_ne, bne_iff_ne, ← not_and_or]
    refine not_congr ⟨?_, fun h => IntervalSet.eq_of_bounds hbool hsub hb h.1 h.2⟩
    rintro rfl
    exact ⟨rfl, rfl⟩
  rw [change, hremoved]
  rfl

end EventSet

namespace Store

variable {s t : Store} {v : VarId} {c : EventSet}

/-- Raised events on the variable meet the condition. -/
def Tells (raised : Assoc VarId EventSet) (c : EventSet) (v : VarId) : Prop :=
  ∃ events, (v, events) ∈ raised ∧ c.meets events = true

/-! ### Views and their roots -/

/-- Every root knows the views that follow it. -/
def Followed (s : Store) : Prop :=
  ∀ v, s.has v = true → s.root v ≠ v → v ∈ s.followers (s.root v) ∧ s.chain v ≠ []

lemma Maps.followers {f : VarId → History → History} (h : s.Maps t f) (v : VarId) :
    t.followers v = s.followers v := by
  rw [Store.followers, Store.followers, h v]
  cases s.vars[v.index]? with
  | none => rfl
  | some x => cases x <;> rfl

lemma Maps.followed {f : VarId → History → History} (h : s.Maps t f) (hs : s.Followed) :
    t.Followed := by
  intro v hv hne
  rw [h.root] at hne ⊢
  rw [h.followers, h.chain]
  exact hs v (by rwa [← h.has]) hne

lemma Followed.congr (h : s.Followed) (hvars : t.vars = s.vars) : t.Followed := by
  intro v hv hne
  rw [has, hvars] at hv
  rw [root, hvars] at hne
  rw [root, chain, followers, hvars]
  exact h v hv hne

lemma followed_empty : ({} : Store).Followed := by
  intro v hv
  exact absurd (has_iff.1 hv) (Nat.not_lt_zero _)

lemma Followed.restore (h : s.Followed) (level : Nat) : (s.restore level).Followed :=
  (maps_restore s level).followed h

lemma followers_addRoot (hr : s.has v = true) (d : IntervalSet) :
    (s.addRoot d).2.followers v = s.followers v := by
  have hlt : v.index < s.vars.size := has_iff.1 hr
  have hget : (s.addRoot d).2.vars[v.index]? = s.vars[v.index]? :=
    (Array.getElem?_push_lt hlt).trans (Array.getElem?_eq_getElem hlt).symm
  rw [followers, followers, hget]

lemma Followed.addRoot (h : s.Followed) (w : s.WellFormed) (d : IntervalSet) :
    (s.addRoot d).2.Followed := by
  intro v hv hne
  have hext := extends_addRoot s d
  rcases eq_of_has_addRoot hv with hv | rfl
  · rw [hext.root hv] at hne ⊢
    rw [hext.chain hv, followers_addRoot (w.has_root hv)]
    exact h v hv hne
  · exact absurd (IsRoot.root_eq ⟨_, _, getElem?_addRoot s d⟩) hne

/-- None of the followers is lost. -/
lemma mem_follow_of_mem {base root new : VarId} {vs : List VarId} (hv : v ∈ vs) :
    v ∈ follow base root new vs := by
  rw [follow]
  split
  · exact List.mem_cons_of_mem _ hv
  · exact List.mem_flatMap.2 ⟨v, hv, by split <;> simp⟩

/-- A new view is among the followers if its base is. -/
lemma new_mem_follow {base root new : VarId} {vs : List VarId} (h : base = root ∨ base ∈ vs) :
    new ∈ follow base root new vs := by
  rw [follow]
  split
  · exact List.mem_cons_self
  · rename_i hne
    exact List.mem_flatMap.2 ⟨base, h.resolve_left hne, by simp⟩

/-- The followers of a root after a view was added. -/
lemma followers_addView (w : s.WellFormed) {w' : View} (hb : s.has w'.base = true) {r : VarId}
    (hr : s.IsRoot r) : (s.addView w').2.followers r =
      if r = s.root w'.base then follow w'.base r ⟨s.vars.size⟩ (s.followers r)
      else s.followers r := by
  obtain ⟨h₀, vs, hget⟩ := hr
  have hlt : r.index < s.vars.size := (Array.getElem?_eq_some_iff.1 hget).1
  have hroot : (s.root w'.base).index < s.vars.size := has_iff.1 (w.has_root hb)
  rw [followers, followers, addView]
  simp only [Array.getElem?_push, Array.size_modify, if_neg (Nat.ne_of_lt hlt),
    Array.getElem?_modify, hget]
  by_cases heq : r = s.root w'.base
  · simp [heq]
  · have hne : (s.root w'.base).index ≠ r.index := fun e => heq (VarId.eq_of_index_eq e).symm
    simp [heq, hne]

lemma Followed.addView (h : s.Followed) (w : s.WellFormed) {w' : View}
    (hb : s.has w'.base = true) : (s.addView w').2.Followed := by
  intro v hv hne
  have hext := extends_addView s w'
  rcases eq_of_has_addView hv with hv | rfl
  · rw [hext.root hv] at hne ⊢
    rw [hext.chain hv, followers_addView w hb (w.isRoot_root v hv)]
    refine ⟨?_, (h v hv hne).2⟩
    split
    · exact mem_follow_of_mem (h v hv hne).1
    · exact (h v hv hne).1
  · rw [root_addView, chain_addView, followers_addView w hb (w.isRoot_root _ hb), if_pos rfl]
    refine ⟨new_mem_follow ?_, List.cons_ne_nil _ _⟩
    by_cases hbase : s.root w'.base = w'.base
    · exact .inl hbase.symm
    · exact .inr (h _ hb hbase).1

/-! ### Updates -/

section Narrow

variable {r : Request} {op : Operation} {d : IntervalSet} (w : s.WellFormed)
  (hr : s.has r.var = true)
  (he : (s.chain r.var).effect (s.history r.var).current r.operation = .narrowed op d)

/-- The events that an update raises. -/
def newEvents (s : Store) (r : Request) (d : IntervalSet) : Assoc VarId EventSet :=
  s.eventsOf (s.root r.var) (s.history r.var).reading
    ((s.history r.var).record s.trail.length d).reading

/-- Events that were raised before are raised after an update. -/
lemma Tells.narrow (h : Tells s.raised c v) : Tells (s.narrow r op d).raised c v :=
  Assoc.exists_joinAll_of_exists (fun t _ hs => EventSet.meets_union_left hs t) _ h

include w hr he in
/-- The root keeps some of its values, and loses one. -/
lemma record_narrows : ((s.history r.var).record s.trail.length d).current = d ∧
    (∀ x, x ∈ d → x ∈ (s.history r.var).current) ∧
      ∃ x, x ∈ (s.history r.var).current ∧ x ∉ d := by
  have hbool := w.boolean_current hr
  have hne := w.current_nonempty hr
  have hrange := w.current_inRange hr
  have hmem := fun x => Chain.mem_of_narrowed (x := x) hbool hne hrange he
  have hsub : ∀ x, x ∈ d → x ∈ (s.history r.var).current := fun x hx => ((hmem x).1 hx).1
  obtain ⟨-, x, hx, hno⟩ := Chain.exists_of_narrowed hbool hne hrange he
  exact ⟨History.current_record (w.exists_mem_of_narrowed hr he) hsub, hsub, x, hx,
    fun hxd => hno ((hmem x).1 hxd).2⟩

include w hr he in
lemma domain_root_narrow_ne :
    (s.narrow r op d).domain (s.root r.var) ≠ s.domain (s.root r.var) := by
  obtain ⟨hcurrent, -, x, hx, hno⟩ := record_narrows w hr he
  have hroot := w.has_root hr
  have hchain := (w.isRoot_root _ hr).chain_eq
  rw [domain, domain, (maps_narrow s r op d).chain, hchain, history_narrow w hroot,
    if_pos (w.root_root hr), w.history_root hr]
  intro heq
  have hsame : d = (s.history r.var).current := hcurrent.symm.trans heq
  exact hno (hsame ▸ hx)

include w hr he in
/-- The answers of a variable on the root, before and after an update. -/
lemma readings_narrow (hv : s.has v = true) (hroot : s.root v = s.root r.var) :
    (s.chain v).reading (s.history r.var).reading = (s.domain v).reading ∧
      (s.chain v).reading ((s.history r.var).record s.trail.length d).reading =
        ((s.narrow r op d).domain v).reading := by
  have hsh := shrinks_narrow w hr he
  have hhist : s.history v = s.history r.var := by
    rw [← w.history_root hv, hroot, w.history_root hr]
  constructor
  · rw [← w.reading_eq, reading, hhist]
  · rw [← hsh.wellFormed.reading_eq, reading, hsh.chain, history_narrow w hv, if_pos hroot, hhist]
    rfl

include w hr he in
/-- The events of a view on the root. -/
lemma change_view (hv : s.has v = true) (hroot : s.root v = s.root r.var)
    (hchain : s.chain v ≠ []) :
    EventSet.ofBounds ((s.chain v).reading (s.history r.var).reading).bounds
        ((s.chain v).reading ((s.history r.var).record s.trail.length d).reading).bounds =
      EventSet.change (s.domain v) ((s.narrow r op d).domain v) := by
  have hsh := shrinks_narrow w hr he
  obtain ⟨hold, hnew⟩ := readings_narrow w hr he hv hroot
  have hbool : ∀ y, y ∈ s.domain v → y = 0 ∨ y = 1 := by
    intro y hy
    obtain ⟨x, hx, rfl⟩ := (w.mem_domain hv).1 hy
    obtain ⟨w', ws, hws⟩ := List.exists_cons_of_ne_nil hchain
    have hvalues := w.boolean_current hv
    rw [hws] at hvalues ⊢
    exact Chain.value_boolean hvalues hx
  rw [hold, hnew, EventSet.change_of_boolean hbool (hsh.domain v)
    (hsh.wellFormed.domain_nonempty ((hsh.has v).trans hv))]

include w hr he in
/-- The events of the root. -/
lemma change_root (hne : (s.narrow r op d).domain (s.root r.var) ≠ s.domain (s.root r.var)) :
    EventSet.ofBounds (s.history r.var).reading.bounds
        ((s.history r.var).record s.trail.length d).reading.bounds ∪ EventSet.ofList [.removal] =
      EventSet.change (s.domain (s.root r.var)) ((s.narrow r op d).domain (s.root r.var)) := by
  have hreadings := readings_narrow w hr he (w.has_root hr) (w.root_root hr)
  rw [(w.isRoot_root _ hr).chain_eq] at hreadings
  rw [EventSet.change_of_ne hne, ← hreadings.1, ← hreadings.2]
  rfl

include w hr he in
/-- The root and the views on it are among those whose events are raised. -/
lemma mem_newEvents (hf : s.Followed) (hne : (s.narrow r op d).domain v ≠ s.domain v) :
    (v, EventSet.change (s.domain v) ((s.narrow r op d).domain v)) ∈ s.newEvents r d := by
  have hroot : s.root v = s.root r.var := by
    by_contra hroot
    exact hne (domain_narrow_of_root_ne w hroot)
  have hv : s.has v = true := by
    by_contra hv
    exact hv (root_of_not_has hv ▸ hroot ▸ w.has_root hr)
  by_cases hself : s.root v = v
  · obtain rfl : v = s.root r.var := hself.symm.trans hroot
    rw [← change_root w hr he hne]
    exact List.mem_cons_self
  · obtain ⟨hmem, hchain⟩ := hf v hv hself
    rw [← change_view w hr he hv hroot hchain]
    refine List.mem_cons_of_mem _ (List.mem_filter.2
      ⟨List.mem_map.2 ⟨v, hroot ▸ hmem, rfl⟩, ?_⟩)
    rw [change_view w hr he hv hroot hchain]
    simp [EventSet.isEmpty, EventSet.change, hne]

include w hr he in
/-- The change of a domain that an update makes is told. -/
lemma tells_narrow (hf : s.Followed)
    (hc : c.Concerns (s.domain v) ((s.narrow r op d).domain v)) :
    Tells (s.narrow r op d).raised c v := by
  refine Assoc.exists_joinAll (fun t _ h => EventSet.meets_union_left h t)
    (fun _ s h => EventSet.meets_union_right h s) (mem_newEvents w hr he hf ?_) hc.meets_change
  intro heq
  rw [heq] at hc
  exact EventSet.not_concerns_self hc

end Narrow

/-! ### Runs of updates -/

section Runs

variable {J : Grounds} {cause : Option PropId} (w : s.WellFormed)

lemma Narrowing.followed (h : Narrowing J cause s t) (hf : s.Followed) : t.Followed := by
  induction h with
  | refl => exact hf
  | step _ _ _ _ ih => exact (maps_narrow _ _ _ _).followed ih

lemma Refused.followed (h : Refused J cause s t) (hf : s.Followed) : t.Followed := by
  obtain ⟨hn, -, -, -⟩ := h
  exact (hn.followed hf).congr rfl

include w in
/-- The changes of domains that a run makes are told at its end. -/
lemma Narrowing.tells (h : Narrowing J cause s t) (hf : s.Followed)
    (hc : c.Concerns (s.domain v) (t.domain v)) : Tells t.raised c v := by
  induction h with
  | refl => exact absurd hc EventSet.not_concerns_self
  | @step t u op rop d h hu _ he ih =>
    have hsh := h.shrinks w
    rcases hc.split (t.domain v) with hc | hc
    · exact (ih hc).narrow
    · exact tells_narrow hsh.wellFormed hu he (h.followed hf) hc

/-- What a variable adds to the number of values left. -/
def weight : Variable → Nat
  | .root h _ => h.current.size
  | .view _ _ => 0

lemma volume_eq_sum (s : Store) : s.volume = (s.vars.toList.map weight).sum := by
  rw [volume]
  induction s.vars.toList with
  | nil => rfl
  | cons x xs ih => cases x <;> simp [weight, ih]

/-- One summand got smaller. -/
lemma sum_map_modify_lt {α : Type} {f : α → Nat} {g : α → α} {xs : List α} {i : Nat} {x : α}
    (hx : xs[i]? = some x) (hlt : f (g x) < f x) :
    ((xs.modify i g).map f).sum < (xs.map f).sum := by
  induction xs generalizing i with
  | nil => simp at hx
  | cons y ys ih =>
    cases i with
    | zero =>
      cases hx
      simpa using hlt
    | succ i =>
      rw [List.getElem?_cons_succ] at hx
      simpa using ih hx

include w in
/-- An update takes values away. -/
lemma volume_narrow_lt {r : Request} {op : Operation} {d : IntervalSet} (hr : s.has r.var = true)
    (he : (s.chain r.var).effect (s.history r.var).current r.operation = .narrowed op d) :
    (s.narrow r op d).volume < s.volume := by
  obtain ⟨h₀, vs, hget⟩ := w.isRoot_root _ hr
  obtain ⟨hcurrent, hsub, hlost⟩ := record_narrows w hr he
  have hhist : s.history r.var = h₀ := by rw [history, hget]
  rw [hhist] at hcurrent hsub hlost
  rw [volume_eq_sum, volume_eq_sum, narrow, Array.toList_modify]
  refine sum_map_modify_lt (x := .root h₀ vs) (by rwa [Array.getElem?_toList]) ?_
  simpa [weight, hcurrent] using IntervalSet.size_lt hsub hlost

include w in
/-- A run changes nothing, or leaves fewer values. -/
lemma Narrowing.volume_lt (h : Narrowing J cause s t) : t = s ∨ t.volume < s.volume := by
  induction h with
  | refl => exact .inl rfl
  | @step t u op rop d h hu _ he ih =>
    have hlt : (t.narrow ⟨u, op, cause⟩ rop d).volume < t.volume :=
      volume_narrow_lt (h.shrinks w).wellFormed hu he
    rcases ih with rfl | ih
    · exact .inr hlt
    · exact .inr (hlt.trans ih)

include w in
lemma Narrowing.volume_le (h : Narrowing J cause s t) : t.volume ≤ s.volume := by
  rcases h.volume_lt w with rfl | hlt
  · exact Nat.le_refl _
  · exact hlt.le

end Runs

end Store

end FiniteDomain
