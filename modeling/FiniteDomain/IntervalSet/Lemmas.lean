import FiniteDomain.IntervalSet.Basic

/-!
The members of a set.

Every operation on sets is described by the members of its result, and every
query by the members of its arguments.

* `IntervalSet.ext`: sets with the same members are equal;
* `mem_insertRange`, `mem_eraseRange`, `mem_between`, `mem_union`, `mem_diff`,
  `mem_inter`, `mem_atLeast`, `mem_atMost`: the members of the results;
* `isEmpty_iff`, `isSubset_iff`, `intersects_iff`: the queries on whole sets;
* `lower_mem`, `lower_le`, `upper_mem`, `le_upper`: the bounds;
* `isFixed_iff`, `isFixedTo_iff`: sets of one member;
* `mem_toList`, `toList_sorted`, `length_toList`, `take_eq`: the list of members.
-/

namespace FiniteDomain

namespace Ranges

theorem not_mem_nil {v : Int} : ¬ Mem v [] := by
  rintro ⟨r, hr, -⟩
  cases hr

theorem mem_cons {v : Int} {r : Interval} {rs : List Interval} :
    Mem v (r :: rs) ↔ v ∈ r ∨ Mem v rs := by
  simp [Mem]

theorem mem_append {v : Int} {rs ss : List Interval} :
    Mem v (rs ++ ss) ↔ Mem v rs ∨ Mem v ss := by
  simp only [Mem, List.mem_append]
  constructor
  · rintro ⟨r, hr | hr, hv⟩
    · exact .inl ⟨r, hr, hv⟩
    · exact .inr ⟨r, hr, hv⟩
  · rintro (⟨r, hr, hv⟩ | ⟨r, hr, hv⟩)
    · exact ⟨r, .inl hr, hv⟩
    · exact ⟨r, .inr hr, hv⟩

theorem mem_insert {lo hi v : Int} {rs : List Interval} (hle : lo ≤ hi) (h : Canonical rs) :
    Mem v (insert lo hi rs) ↔ Mem v rs ∨ (lo ≤ v ∧ v ≤ hi) := by
  fun_induction insert lo hi rs with
  | case1 => simp [Mem, Interval.mem_def]
  | case2 lo hi r rs h₁ ih =>
    rw [mem_cons, mem_cons, ih hle (canonical_cons.1 h).2.2, or_assoc]
  | case3 lo hi r rs h₁ h₂ =>
    rw [mem_cons, or_comm, Interval.mem_def]
  | case4 lo hi r rs h₁ h₂ ih =>
    obtain ⟨hr, -, hc⟩ := canonical_cons.1 h
    rw [mem_cons, ih (by omega) hc, Interval.mem_def]
    constructor
    · rintro (h | h)
      · exact .inl (.inr h)
      · by_cases h' : lo ≤ v ∧ v ≤ hi
        · exact .inr h'
        · exact .inl (.inl (by omega))
    · rintro ((h | h) | h)
      · exact .inr (by omega)
      · exact .inl h
      · exact .inr (by omega)

theorem Canonical.sublist {rs ss : List Interval} (h : Canonical rs) (hss : ss.Sublist rs) :
    Canonical ss :=
  ⟨fun r hr => h.nonempty r (hss.subset hr), h.separated.sublist hss⟩

theorem mem_clip {lo hi v : Int} {rs : List Interval} :
    Mem v (clip lo hi rs) ↔ Mem v rs ∧ lo ≤ v ∧ v ≤ hi := by
  constructor
  · rintro ⟨s, hs, hv⟩
    obtain ⟨r, hr, hrs⟩ := List.mem_filterMap.1 hs
    have hb := mem_clip_bounds hrs
    rw [Interval.mem_def] at hv
    exact ⟨⟨r, hr, by rw [Interval.mem_def]; omega⟩, by omega⟩
  · rintro ⟨⟨r, hr, hv⟩, hlo, hhi⟩
    rw [Interval.mem_def] at hv
    refine ⟨⟨max r.lo lo, min r.hi hi⟩, List.mem_filterMap.2 ⟨r, hr, ?_⟩, ?_⟩
    · rw [Interval.clip, if_pos (by omega)]
    · rw [Interval.mem_def]
      simp only
      omega

theorem mem_without {lo hi v : Int} {r : Interval} :
    Mem v (r.without lo hi) ↔ v ∈ r ∧ ¬ (lo ≤ v ∧ v ≤ hi) := by
  have hbelow : Mem v (r.atMost? (lo - 1)).toList ↔ v ∈ r ∧ v < lo := by
    simp only [Interval.atMost?, Interval.mem_def]
    split
    · simp only [Option.toList_some, mem_cons, Interval.mem_def, not_mem_nil, or_false]
      omega
    · simp only [Option.toList_none, not_mem_nil, false_iff]
      omega
  have habove : Mem v (r.atLeast? (hi + 1)).toList ↔ v ∈ r ∧ hi < v := by
    simp only [Interval.atLeast?, Interval.mem_def]
    split
    · simp only [Option.toList_some, mem_cons, Interval.mem_def, not_mem_nil, or_false]
      omega
    · simp only [Option.toList_none, not_mem_nil, false_iff]
      omega
  rw [Interval.without, mem_append, hbelow, habove]
  constructor
  · rintro (⟨hr, h⟩ | ⟨hr, h⟩) <;> exact ⟨hr, by omega⟩
  · rintro ⟨hr, h⟩
    by_cases hv : v < lo
    · exact .inl ⟨hr, hv⟩
    · exact .inr ⟨hr, by omega⟩

theorem mem_flatMap {v : Int} {f : Interval → List Interval} {rs : List Interval} :
    Mem v (rs.flatMap f) ↔ ∃ r ∈ rs, Mem v (f r) := by
  constructor
  · rintro ⟨s, hs, hv⟩
    obtain ⟨r, hr, hs⟩ := List.mem_flatMap.1 hs
    exact ⟨r, hr, s, hs, hv⟩
  · rintro ⟨r, hr, s, hs, hv⟩
    exact ⟨s, List.mem_flatMap.2 ⟨r, hr, hs⟩, hv⟩

theorem mem_erase {lo hi v : Int} {rs : List Interval} :
    Mem v (erase lo hi rs) ↔ Mem v rs ∧ ¬ (lo ≤ v ∧ v ≤ hi) := by
  rw [erase, mem_flatMap]
  constructor
  · rintro ⟨r, hr, hv⟩
    obtain ⟨hv, hn⟩ := mem_without.1 hv
    exact ⟨⟨r, hr, hv⟩, hn⟩
  · rintro ⟨⟨r, hr, hv⟩, hn⟩
    exact ⟨r, hr, mem_without.2 ⟨hv, hn⟩⟩

/-! ### Searching and walking -/

/-- In a list in canonical form, the search for a value finds the range it lies in. -/
theorem reaching?_of_mem {v : Int} {q : Interval} {rs : List Interval} (h : Canonical rs)
    (hq : q ∈ rs) (hv : v ∈ q) : reaching? v rs = some q := by
  rw [Interval.mem_def] at hv
  induction rs with
  | nil => cases hq
  | cons r rs ih =>
    obtain ⟨-, hafter, hrs⟩ := canonical_cons.1 h
    rcases List.mem_cons.1 hq with rfl | hq
    · exact List.find?_cons_of_pos (by simpa using hv.2)
    · have := hafter q hq
      have hr : ¬ v ≤ r.hi := by omega
      rw [reaching?, List.find?_cons_of_neg (by simpa using hr)]
      exact ih hrs hq

theorem mem_of_reaching? {v : Int} {q : Interval} {rs : List Interval}
    (h : reaching? v rs = some q) : q ∈ rs ∧ v ≤ q.hi :=
  ⟨List.mem_of_find?_eq_some h, by simpa using List.find?_some h⟩

/-- No member between the value and the range that the search finds is passed over. -/
theorem le_of_reaching? {v x : Int} {q : Interval} {rs : List Interval} (h : Canonical rs)
    (hq : reaching? v rs = some q) (hx : Mem x rs) (hv : v ≤ x) : max q.lo v ≤ x := by
  obtain ⟨p, hp, hxp⟩ := hx
  rw [Interval.mem_def] at hxp
  induction rs with
  | nil => cases hp
  | cons r rs ih =>
    obtain ⟨hne, hafter, hrs⟩ := canonical_cons.1 h
    by_cases hr : v ≤ r.hi
    · rw [reaching?, List.find?_cons_of_pos (by simpa using hr)] at hq
      cases hq
      rcases List.mem_cons.1 hp with rfl | hp
      · omega
      · have := hafter p hp
        omega
    · rw [reaching?, List.find?_cons_of_neg (by simpa using hr)] at hq
      refine ih hrs hq ((List.mem_cons.1 hp).resolve_left ?_)
      rintro rfl
      omega

theorem lt_of_reaching?_eq_none {v x : Int} {rs : List Interval} (h : reaching? v rs = none)
    (hx : Mem x rs) : x < v := by
  obtain ⟨r, hr, hxr⟩ := hx
  have := List.find?_eq_none.1 h r hr
  rw [Interval.mem_def] at hxr
  simp only [decide_eq_true_eq] at this
  omega

/-- All ranges but the last end well below it. -/
theorem eq_or_lt_of_getLast? {q r : Interval} {rs : List Interval} (h : Canonical rs)
    (hr : rs.getLast? = some r) (hq : q ∈ rs) : q = r ∨ q.hi + 1 < r.lo := by
  obtain ⟨ys, rfl⟩ := List.getLast?_eq_some_iff.1 hr
  have hsep := (List.pairwise_append.1 h.separated).2.2
  rcases List.mem_append.1 hq with hq | hq
  · exact .inr (hsep q hq r List.mem_cons_self)
  · exact .inl (List.mem_singleton.1 hq)

/-- In a list in canonical form, the ranges that start up to a value are a first part. -/
theorem mem_takeWhile {v : Int} {q : Interval} {rs : List Interval} (h : Canonical rs) :
    q ∈ rs.takeWhile (fun r => decide (r.lo ≤ v)) ↔ q ∈ rs ∧ q.lo ≤ v := by
  induction rs with
  | nil => simp
  | cons r rs ih =>
    obtain ⟨hr, hafter, hrs⟩ := canonical_cons.1 h
    by_cases hv : r.lo ≤ v
    · rw [List.takeWhile_cons_of_pos (by simpa using hv), List.mem_cons, ih hrs, List.mem_cons]
      constructor
      · rintro (rfl | ⟨hq, hle⟩)
        · exact ⟨.inl rfl, hv⟩
        · exact ⟨.inr hq, hle⟩
      · rintro ⟨rfl | hq, hle⟩
        · exact .inl rfl
        · exact .inr ⟨hq, hle⟩
    · rw [List.takeWhile_cons_of_neg (by simpa using hv)]
      refine ⟨nofun, ?_⟩
      rintro ⟨hq, hle⟩
      rcases List.mem_cons.1 hq with rfl | hq
      · exact absurd hle hv
      · have := hafter q hq
        omega

/-- The walk along two lists in canonical form compares all ranges that meet. -/
theorem mem_compared {v : Int} {r q : Interval} {rs ss : List Interval} (hr : Canonical rs)
    (hs : Canonical ss) (hrs : r ∈ rs) (hqs : q ∈ ss) (hvr : v ∈ r) (hvq : v ∈ q) :
    (r, q) ∈ compared rs ss := by
  rw [Interval.mem_def] at hvr hvq
  induction rs generalizing ss with
  | nil => cases hrs
  | cons r' rs ih =>
    obtain ⟨-, hafter, hrs'⟩ := canonical_cons.1 hr
    induction ss with
    | nil => cases hqs
    | cons q' qs ihs =>
      obtain ⟨-, hafter', hqs'⟩ := canonical_cons.1 hs
      rw [compared_cons, List.mem_cons]
      -- the range that is left behind meets nothing that comes later in the other list
      rcases List.mem_cons.1 hrs with rfl | hrs <;> rcases List.mem_cons.1 hqs with rfl | hqs
      · exact .inl rfl
      · have := hafter' q hqs
        rw [if_neg (by omega)]
        exact .inr (ihs hqs' hqs)
      · have := hafter r hrs
        rw [if_pos (by omega)]
        exact .inr (ih hrs' hs hrs List.mem_cons_self)
      · right
        split
        · exact ih hrs' hs hrs (List.mem_cons_of_mem _ hqs)
        · exact ihs hqs' hqs

theorem mem_inter {v : Int} {rs ss : List Interval} (hr : Canonical rs) (hs : Canonical ss) :
    Mem v (inter rs ss) ↔ Mem v rs ∧ Mem v ss := by
  constructor
  · rintro ⟨s, h, hv⟩
    obtain ⟨p, hp, hps⟩ := List.mem_filterMap.1 h
    obtain ⟨hfst, hsnd⟩ := mem_of_mem_compared hp
    have := mem_clip_bounds hps
    rw [Interval.mem_def] at hv
    exact ⟨⟨p.1, hfst, by rw [Interval.mem_def]; omega⟩, p.2, hsnd, by rw [Interval.mem_def]; omega⟩
  · rintro ⟨⟨r, hrs, hvr⟩, q, hqs, hvq⟩
    have hp := mem_compared hr hs hrs hqs hvr hvq
    rw [Interval.mem_def] at hvr hvq
    refine ⟨⟨max q.lo r.lo, min q.hi r.hi⟩, List.mem_filterMap.2 ⟨_, hp, ?_⟩, ?_⟩
    · exact if_pos (by dsimp only; omega)
    · rw [Interval.mem_def]
      simp only
      omega

/-- What comes behind a range does not touch it. -/
theorem not_mem_of_le {v : Int} {r : Interval} {rs : List Interval}
    (hafter : ∀ q ∈ rs, r.hi + 1 < q.lo) (hv : v ≤ r.hi + 1) : ¬ Mem v rs := by
  rintro ⟨q, hq, hvq⟩
  have := hafter q hq
  rw [Interval.mem_def] at hvq
  omega

/-- A list whose members are all in another one starts no earlier. -/
theorem lo_le_lo {r s : Interval} {rs ss : List Interval} (hr : Canonical (r :: rs))
    (hs : Canonical (s :: ss)) (h : ∀ v, Mem v (s :: ss) → Mem v (r :: rs)) : r.lo ≤ s.lo := by
  obtain ⟨hle, hafter, -⟩ := canonical_cons.1 hr
  have hstart : Mem s.lo (s :: ss) :=
    mem_cons.2 (.inl ⟨Int.le_refl _, (canonical_cons.1 hs).1⟩)
  rcases mem_cons.1 (h s.lo hstart) with hin | ⟨q, hq, hin⟩
  · exact hin.1
  · have := hafter q hq
    rw [Interval.mem_def] at hin
    omega

/-- If it does not start later either, its first range ends no later. -/
theorem hi_le_hi {r s : Interval} {rs ss : List Interval} (hr : Canonical (r :: rs))
    (h : ∀ v, Mem v (s :: ss) → Mem v (r :: rs)) (hlo : s.lo ≤ r.lo) : s.hi ≤ r.hi := by
  obtain ⟨hle, hafter, -⟩ := canonical_cons.1 hr
  refine Int.not_lt.1 fun hlt => ?_
  have hin : Mem (r.hi + 1) (s :: ss) := mem_cons.2 (.inl ⟨by omega, by omega⟩)
  rcases mem_cons.1 (h _ hin) with hin | hin
  · rw [Interval.mem_def] at hin
    omega
  · exact not_mem_of_le hafter (Int.le_refl _) hin

/-- Two lists in canonical form with the same members are equal. -/
theorem canonical_ext : ∀ {rs ss : List Interval}, Canonical rs → Canonical ss →
    (∀ v, Mem v rs ↔ Mem v ss) → rs = ss
  | [], [], _, _, _ => rfl
  | [], s :: ss, _, hs, h => by
    have := (canonical_cons.1 hs).1
    exact absurd ((h s.lo).2 (mem_cons.2 (.inl ⟨by omega, by omega⟩))) not_mem_nil
  | r :: rs, [], hr, _, h => by
    have := (canonical_cons.1 hr).1
    exact absurd ((h r.lo).1 (mem_cons.2 (.inl ⟨by omega, by omega⟩))) not_mem_nil
  | r :: rs, s :: ss, hr, hs, h => by
    obtain ⟨-, hr₂, hr₃⟩ := canonical_cons.1 hr
    obtain ⟨-, hs₂, hs₃⟩ := canonical_cons.1 hs
    have hlo : r.lo = s.lo :=
      Int.le_antisymm (lo_le_lo hr hs fun v => (h v).2) (lo_le_lo hs hr fun v => (h v).1)
    have hhi : r.hi = s.hi := Int.le_antisymm (hi_le_hi hs (fun v => (h v).1) (Int.le_of_eq hlo))
      (hi_le_hi hr (fun v => (h v).2) (Int.le_of_eq hlo.symm))
    have hrs : r = s := by
      cases r
      cases s
      simp_all
    subst hrs
    -- behind the first range, the rests have the same members
    refine congrArg (r :: ·) (canonical_ext hr₃ hs₃ fun v => ?_)
    have hv := h v
    rw [mem_cons, mem_cons] at hv
    by_cases hvr : v ≤ r.hi + 1
    · exact iff_of_false (not_mem_of_le hr₂ hvr) (not_mem_of_le hs₂ hvr)
    · have : ¬ v ∈ r := by
        rw [Interval.mem_def]
        omega
      simpa [this] using hv

end Ranges

namespace IntervalSet

variable {s t : IntervalSet} {v lo hi : Int}

/-- Sets with the same members are equal. -/
@[ext] theorem ext (h : ∀ v, v ∈ s ↔ v ∈ t) : s = t := by
  obtain ⟨rs, hr⟩ := s
  obtain ⟨ss, hs⟩ := t
  have : rs = ss := Ranges.canonical_ext hr hs h
  subst this
  rfl

/-! ### Results of operations -/

@[simp] theorem not_mem_empty : ¬ v ∈ (∅ : IntervalSet) := Ranges.not_mem_nil

@[simp] theorem mem_insertRange :
    v ∈ s.insertRange lo hi ↔ v ∈ s ∨ (lo ≤ v ∧ v ≤ hi) := by
  by_cases h : lo ≤ hi
  · rw [insertRange, dif_pos h]
    exact Ranges.mem_insert h s.canonical
  · rw [insertRange, dif_neg h]
    constructor
    · exact .inl
    · rintro (h' | h')
      · exact h'
      · omega

@[simp] theorem mem_insert {k : Int} : v ∈ s.insert k ↔ v ∈ s ∨ v = k := by
  rw [insert, mem_insertRange]
  have : (k ≤ v ∧ v ≤ k) ↔ v = k := by omega
  rw [this]

@[simp] theorem mem_ofRange : v ∈ ofRange lo hi ↔ lo ≤ v ∧ v ≤ hi := by
  simp [ofRange]

@[simp] theorem mem_single {k : Int} : v ∈ single k ↔ v = k := by
  rw [single, mem_ofRange]
  omega

@[simp] theorem mem_singleton {k : Int} : v ∈ ({k} : IntervalSet) ↔ v = k := mem_single

theorem mem_foldl_insertRange {rs : List Interval} :
    v ∈ rs.foldl (fun s r => s.insertRange r.lo r.hi) s ↔ v ∈ s ∨ Ranges.Mem v rs := by
  induction rs generalizing s with
  | nil => simp [Ranges.not_mem_nil]
  | cons r rs ih =>
    rw [List.foldl_cons, ih, mem_insertRange, Ranges.mem_cons, Interval.mem_def, or_assoc]

@[simp] theorem mem_ofRanges {rs : List Interval} : v ∈ ofRanges rs ↔ Ranges.Mem v rs := by
  simp [ofRanges, mem_foldl_insertRange]

theorem mem_foldl_insert {vs : List Int} :
    v ∈ vs.foldl (fun s v => s.insert v) s ↔ v ∈ s ∨ v ∈ vs := by
  induction vs generalizing s with
  | nil => simp
  | cons k vs ih => rw [List.foldl_cons, ih, mem_insert, List.mem_cons, or_assoc]

@[simp] theorem mem_ofList {vs : List Int} : v ∈ ofList vs ↔ v ∈ vs := by
  simp [ofList, mem_foldl_insert]

@[simp] theorem mem_union : v ∈ s ∪ t ↔ v ∈ s ∨ v ∈ t := mem_foldl_insertRange

@[simp] theorem mem_eraseRange : v ∈ s.eraseRange lo hi ↔ v ∈ s ∧ ¬ (lo ≤ v ∧ v ≤ hi) := by
  by_cases h : lo ≤ hi
  · rw [eraseRange, dif_pos h]
    exact Ranges.mem_erase
  · rw [eraseRange, dif_neg h]
    exact ⟨fun h' => ⟨h', by omega⟩, And.left⟩

@[simp] theorem mem_erase {k : Int} : v ∈ s.erase k ↔ v ∈ s ∧ v ≠ k := by
  rw [erase, mem_eraseRange]
  have : ¬ (k ≤ v ∧ v ≤ k) ↔ v ≠ k := by omega
  rw [this]

theorem mem_foldl_eraseRange {rs : List Interval} :
    v ∈ rs.foldl (fun s r => s.eraseRange r.lo r.hi) s ↔ v ∈ s ∧ ¬ Ranges.Mem v rs := by
  induction rs generalizing s with
  | nil => simp [Ranges.not_mem_nil]
  | cons r rs ih =>
    rw [List.foldl_cons, ih, mem_eraseRange, Ranges.mem_cons, Interval.mem_def, not_or, and_assoc]

@[simp] theorem mem_diff : v ∈ s \ t ↔ v ∈ s ∧ ¬ v ∈ t := mem_foldl_eraseRange

@[simp] theorem mem_between : v ∈ s.between lo hi ↔ v ∈ s ∧ lo ≤ v ∧ v ≤ hi := Ranges.mem_clip

@[simp] theorem mem_inter : v ∈ s ∩ t ↔ v ∈ s ∧ v ∈ t :=
  Ranges.mem_inter s.canonical t.canonical

/-! ### Queries -/

@[simp] theorem contains_iff : s.contains v = true ↔ v ∈ s := by
  rw [contains, Option.any_eq_true]
  constructor
  · rintro ⟨r, hr, hlo⟩
    obtain ⟨hmem, hhi⟩ := Ranges.mem_of_reaching? hr
    exact ⟨r, hmem, of_decide_eq_true hlo, hhi⟩
  · rintro ⟨r, hr, hv⟩
    exact ⟨r, Ranges.reaching?_of_mem s.canonical hr hv, decide_eq_true hv.1⟩

theorem isEmpty_iff : s.isEmpty = true ↔ ∀ v, ¬ v ∈ s := by
  rw [isEmpty, List.isEmpty_iff]
  constructor
  · intro h v hv
    rw [mem_def, h] at hv
    obtain ⟨r, hr, -⟩ := hv
    cases hr
  · intro h
    cases hs : s.ranges with
    | nil => rfl
    | cons r rs =>
      have := s.canonical.nonempty r (by simp [hs])
      exact absurd ⟨r, by simp [hs], by omega, by omega⟩ (h r.lo)

theorem isEmpty_eq_false_iff : s.isEmpty = false ↔ ∃ v, v ∈ s := by
  rw [← Bool.not_eq_true, isEmpty_iff]
  simp

theorem intersects_iff : s.intersects t = true ↔ ∃ v, v ∈ s ∧ v ∈ t := by
  simp only [intersects, List.any_eq_true, decide_eq_true_eq]
  constructor
  · rintro ⟨⟨r, q⟩, hp, h⟩
    obtain ⟨hr, hq⟩ := Ranges.mem_of_mem_compared hp
    dsimp only at h
    exact ⟨max r.lo q.lo, ⟨r, hr, by omega, by omega⟩, q, hq, by omega, by omega⟩
  · rintro ⟨v, ⟨r, hr, hvr⟩, q, hq, hvq⟩
    refine ⟨(r, q), Ranges.mem_compared s.canonical t.canonical hr hq hvr hvq, ?_⟩
    rw [Interval.mem_def] at hvr hvq
    dsimp only
    omega

theorem isSubset_iff : s.isSubset t = true ↔ ∀ v, v ∈ s → v ∈ t := by
  simp only [isSubset, List.all_eq_true, Option.any_eq_true, decide_eq_true_eq]
  constructor
  · rintro h v ⟨r, hr, hv⟩
    obtain ⟨q, hq, h⟩ := h r hr
    rw [Interval.mem_def] at hv
    exact ⟨q, (Ranges.mem_of_reaching? hq).1, by omega, by omega⟩
  · intro h r hr
    have hle := s.canonical.nonempty r hr
    obtain ⟨q, hq, hlo⟩ := h r.lo ⟨r, hr, by omega, by omega⟩
    refine ⟨q, Ranges.reaching?_of_mem t.canonical hq hlo, ?_⟩
    rw [Interval.mem_def] at hlo
    refine ⟨hlo.1, ?_⟩
    -- the member above `q.hi` would lie in a range that begins right there
    by_cases hend : r.hi ≤ q.hi
    · exact hend
    · obtain ⟨p, hp, hpv⟩ := h (q.hi + 1) ⟨r, hr, by omega, by omega⟩
      rw [Interval.mem_def] at hpv
      obtain ⟨i, hi, rfl⟩ := List.getElem_of_mem hp
      obtain ⟨j, hj, rfl⟩ := List.getElem_of_mem hq
      rcases Nat.lt_trichotomy i j with hij | hij | hij
      · have := List.pairwise_iff_getElem.1 t.canonical.separated i j hi hj hij
        omega
      · subst hij
        omega
      · have := List.pairwise_iff_getElem.1 t.canonical.separated j i hj hi hij
        omega

/-! ### Bounds -/

theorem min?_eq_none_iff : s.min? = none ↔ ∀ v, ¬ v ∈ s := by
  rw [← isEmpty_iff]
  cases s with
  | mk rs h => cases rs <;> simp [min?, isEmpty]

theorem max?_eq_none_iff : s.max? = none ↔ ∀ v, ¬ v ∈ s := by
  rw [← isEmpty_iff, isEmpty, List.isEmpty_iff, max?, Option.map_eq_none_iff,
    List.getLast?_eq_none_iff]

theorem min?_mem {k : Int} (h : s.min? = some k) : k ∈ s := by
  cases hs : s.ranges with
  | nil => simp [min?, hs] at h
  | cons r rs =>
    have hle := s.canonical.nonempty r (by simp [hs])
    have hk : k = r.lo := by
      simpa [min?, hs] using h.symm
    exact ⟨r, by simp [hs], by omega, by omega⟩

theorem min?_le {k : Int} (h : s.min? = some k) (hv : v ∈ s) : k ≤ v := by
  cases hs : s.ranges with
  | nil => simp [min?, hs] at h
  | cons r rs =>
    have hk : k = r.lo := by
      simpa [min?, hs] using h.symm
    obtain ⟨q, hq, hvq⟩ := hv
    rw [Interval.mem_def] at hvq
    rw [hs] at hq
    rcases List.mem_cons.1 hq with rfl | hq
    · omega
    · have hc := s.canonical
      rw [hs] at hc
      have := (Ranges.canonical_cons.1 hc).2.1 q hq
      have := (Ranges.canonical_cons.1 hc).1
      omega

theorem max?_mem {k : Int} (h : s.max? = some k) : k ∈ s := by
  obtain ⟨r, hr, rfl⟩ := Option.map_eq_some_iff.1 h
  have hmem := List.mem_of_getLast? hr
  have hle := s.canonical.nonempty r hmem
  exact ⟨r, hmem, by omega, by omega⟩

theorem le_max? {k : Int} (h : s.max? = some k) (hv : v ∈ s) : v ≤ k := by
  obtain ⟨r, hr, rfl⟩ := Option.map_eq_some_iff.1 h
  obtain ⟨q, hq, hvq⟩ := hv
  rw [Interval.mem_def] at hvq
  have := s.canonical.nonempty r (List.mem_of_getLast? hr)
  rcases Ranges.eq_or_lt_of_getLast? s.canonical hr hq with rfl | hlt <;> omega

/-! ### Neighbours -/

/-- A member that is at least `v` has a least one among them. -/
theorem next?_mem {k : Int} (h : s.next? v = some k) : k ∈ s ∧ v ≤ k := by
  obtain ⟨r, hr, rfl⟩ := Option.map_eq_some_iff.1 h
  obtain ⟨hmem, hhi⟩ := Ranges.mem_of_reaching? hr
  have hle := s.canonical.nonempty r hmem
  exact ⟨⟨r, hmem, by omega, by omega⟩, by omega⟩

theorem next?_le {k x : Int} (h : s.next? v = some k) (hx : x ∈ s) (hv : v ≤ x) : k ≤ x := by
  obtain ⟨r, hr, rfl⟩ := Option.map_eq_some_iff.1 h
  exact Ranges.le_of_reaching? s.canonical hr hx hv

theorem lt_of_next?_eq_none {x : Int} (h : s.next? v = none) (hx : x ∈ s) : x < v :=
  Ranges.lt_of_reaching?_eq_none (Option.map_eq_none_iff.1 h) hx

theorem previous?_mem {k : Int} (h : s.previous? v = some k) : k ∈ s ∧ k ≤ v := by
  obtain ⟨r, hr, rfl⟩ := Option.map_eq_some_iff.1 h
  obtain ⟨hmem, hlo⟩ := (Ranges.mem_takeWhile s.canonical).1 (List.mem_of_getLast? hr)
  have hle := s.canonical.nonempty r hmem
  exact ⟨⟨r, hmem, by omega, by omega⟩, by omega⟩

theorem le_previous? {k x : Int} (h : s.previous? v = some k) (hx : x ∈ s) (hv : x ≤ v) :
    x ≤ k := by
  obtain ⟨r, hr, rfl⟩ := Option.map_eq_some_iff.1 h
  obtain ⟨q, hq, hxq⟩ := hx
  rw [Interval.mem_def] at hxq
  have hcanonical := s.canonical.sublist (List.takeWhile_sublist fun r => decide (r.lo ≤ v))
  have hle := hcanonical.nonempty r (List.mem_of_getLast? hr)
  have hq' := (Ranges.mem_takeWhile s.canonical).2 ⟨hq, Int.le_trans hxq.1 hv⟩
  rcases Ranges.eq_or_lt_of_getLast? hcanonical hr hq' with rfl | hlt <;> omega

theorem lt_of_previous?_eq_none {x : Int} (h : s.previous? v = none) (hx : x ∈ s) : v < x := by
  obtain ⟨q, hq, hxq⟩ := hx
  rw [Interval.mem_def] at hxq
  have hnil := List.getLast?_eq_none_iff.1 (Option.map_eq_none_iff.1 h)
  refine Int.not_le.1 fun hle => ?_
  have hmem := (Ranges.mem_takeWhile s.canonical).2 ⟨hq, Int.le_trans hxq.1 hle⟩
  rw [hnil] at hmem
  cases hmem

/-! ### Least and greatest member, or none -/

theorem lower_mem (h : ∃ v, v ∈ s) : s.lower ∈ s := by
  obtain ⟨v, hv⟩ := h
  cases hm : s.min? with
  | none => exact absurd hv (min?_eq_none_iff.1 hm v)
  | some k => simpa [lower, hm] using min?_mem hm

theorem lower_le (hv : v ∈ s) : s.lower ≤ v := by
  cases hm : s.min? with
  | none => exact absurd hv (min?_eq_none_iff.1 hm v)
  | some k => simpa [lower, hm] using min?_le hm hv

theorem upper_mem (h : ∃ v, v ∈ s) : s.upper ∈ s := by
  obtain ⟨v, hv⟩ := h
  cases hm : s.max? with
  | none => exact absurd hv (max?_eq_none_iff.1 hm v)
  | some k => simpa [upper, hm] using max?_mem hm

theorem le_upper (hv : v ∈ s) : v ≤ s.upper := by
  cases hm : s.max? with
  | none => exact absurd hv (max?_eq_none_iff.1 hm v)
  | some k => simpa [upper, hm] using le_max? hm hv

@[simp] theorem mem_atLeast {k : Int} : v ∈ s.atLeast k ↔ v ∈ s ∧ k ≤ v := by
  rw [atLeast, mem_between]
  refine and_congr_right fun hv => ?_
  have := le_upper hv
  omega

@[simp] theorem mem_atMost {k : Int} : v ∈ s.atMost k ↔ v ∈ s ∧ v ≤ k := by
  rw [atMost, mem_between]
  refine and_congr_right fun hv => ?_
  have := lower_le hv
  omega

/-- A set is fixed if all its members are equal, and it has one. -/
theorem isFixed_iff (h : ∃ v, v ∈ s) : s.isFixed = true ↔ ∀ v, v ∈ s → v = s.lower := by
  rw [isFixed, beq_iff_eq]
  constructor
  · intro he v hv
    have := lower_le hv
    have := le_upper hv
    omega
  · intro he
    exact (he _ (upper_mem h)).symm

theorem isFixedTo_iff {k : Int} (h : ∃ v, v ∈ s) : s.isFixedTo k = true ↔ s = {k} := by
  rw [isFixedTo, Bool.and_eq_true, beq_iff_eq, beq_iff_eq]
  constructor
  · rintro ⟨hl, hu⟩
    ext v
    rw [mem_singleton]
    constructor
    · intro hv
      have := lower_le hv
      have := le_upper hv
      omega
    · rintro rfl
      exact hl ▸ lower_mem h
  · rintro rfl
    exact ⟨mem_singleton.1 (lower_mem h), mem_singleton.1 (upper_mem h)⟩

/-! ### Lists of members -/

theorem length_toList_interval (r : Interval) : r.toList.length = r.size := by
  simp [Interval.toList, Interval.take]

theorem mem_toList_interval {r : Interval} : v ∈ r.toList ↔ v ∈ r := by
  simp only [Interval.toList, Interval.take, List.mem_map, List.mem_range, Interval.mem_def,
    Interval.size, Nat.min_self]
  constructor
  · rintro ⟨i, hi, rfl⟩
    omega
  · rintro ⟨hlo, hhi⟩
    exact ⟨(v - r.lo).toNat, by omega, by omega⟩

theorem sorted_toList_interval (r : Interval) : r.toList.Pairwise (· < ·) := by
  simp only [Interval.toList, Interval.take]
  refine List.pairwise_map.2 (List.pairwise_lt_range.imp ?_)
  intro a b h
  omega

@[simp] theorem mem_toList : v ∈ s.toList ↔ v ∈ s := by
  rw [toList, List.mem_flatMap, mem_def]
  simp only [mem_toList_interval]

/-- The members are listed in ascending order, each once. -/
theorem toList_sorted (s : IntervalSet) : s.toList.Pairwise (· < ·) := by
  refine List.pairwise_flatMap.2 ⟨fun r _ => sorted_toList_interval r, ?_⟩
  refine s.canonical.separated.imp fun {r q} h v hv w hw => ?_
  rw [mem_toList_interval, Interval.mem_def] at hv hw
  omega

/-- The size is the number of members. -/
theorem length_toList (s : IntervalSet) : s.toList.length = s.size := by
  rw [toList, size]
  induction s.ranges with
  | nil => rfl
  | cons r rs ih =>
    rw [List.flatMap_cons, List.length_append, length_toList_interval, ih, List.foldr_cons]

theorem takeFrom_eq (n : Nat) (rs : List Interval) :
    takeFrom n rs = (rs.flatMap Interval.toList).take n := by
  induction rs generalizing n with
  | nil => simp [takeFrom]
  | cons r rs ih =>
    rw [takeFrom, List.flatMap_cons, List.take_append, length_toList_interval]
    split
    · rename_i h
      have : n - r.size = 0 := by omega
      rw [this, List.take_zero, List.append_nil]
      simp only [Interval.toList, Interval.take, Nat.min_self, ← List.map_take]
      rw [List.take_range]
    · rename_i h
      have : r.toList.take n = r.toList :=
        List.take_of_length_le (by rw [length_toList_interval]; omega)
      rw [ih, this]

/-- The first members are a prefix of the list of all. -/
theorem take_eq (s : IntervalSet) (n : Nat) : s.take n = s.toList.take n :=
  takeFrom_eq n s.ranges

end IntervalSet

end FiniteDomain
