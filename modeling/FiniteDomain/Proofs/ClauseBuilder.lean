import Mathlib.Tactic
import FiniteDomain.ClauseBuilder
import FiniteDomain.Proofs.Clause
import FiniteDomain.Proofs.Store.Falsification

/-!
Clause builders lose no assignment.

An assignment from the initial domains that satisfies a literal put into a builder
satisfies what the builder amounts to in the end.

* `ClauseBuilder.WellFormed`, `ClauseBuilder.Holds`: the literals are on different
  variables that exist, and what a builder says so far;
* `ClauseBuilder.Refines`: one builder says all that another one says, or less;
* `ClauseBuilder.holds_put`, `ClauseBuilder.refines_onRoots`: the steps of a builder;
* `ClauseBuilder.holds_result`: what has to be posted;
* `ClauseBuilder.States`: a builder states a clause, with `ClauseBuilder.States.put` and
  `ClauseBuilder.States.result`.
-/

namespace FiniteDomain

/-- The only value of a set with one value. -/
lemma IntervalSet.eq_lower_of_size_eq_one {d : IntervalSet} (h : d.size = 1) {k : Int}
    (hk : k ∈ d) : k = d.lower := by
  have hlower : d.lower ∈ d := IntervalSet.lower_mem ⟨k, hk⟩
  rw [← IntervalSet.length_toList, List.length_eq_one_iff] at h
  obtain ⟨j, hj⟩ := h
  rw [← IntervalSet.mem_toList, hj, List.mem_singleton] at hk hlower
  rw [hk, hlower]

/-- A builder with its literals on different variables of its store. -/
structure ClauseBuilder.WellFormed (b : ClauseBuilder) : Prop where
  store : b.store.WellFormed
  distinct : b.literals.Distinct
  has : ∀ v ∈ b.literals.map Literal.var, b.store.has v = true

/-- The literal allows a root some of its initial values, but not all. -/
structure Store.Splits (s : Store) (l : Literal) : Prop where
  isRoot : s.IsRoot l.var
  nonempty : ∃ k, k ∈ l.allowed
  initial : ∀ k, k ∈ l.allowed → k ∈ s.initial l.var
  proper : ∃ k, k ∈ s.initial l.var ∧ k ∉ l.allowed

namespace ClauseBuilder

variable {b b' b'' : ClauseBuilder} {l : Literal} {v : VarId} {ρ : VarId → Int}

/-- Some literal that was put in holds for the assignment, as far as the builder knows. -/
def Holds (b : ClauseBuilder) (ρ : VarId → Int) : Prop :=
  b.certain = true ∨ b.literals.Holds (b.store.value ρ)

/-- The later builder holds for all assignments for which the earlier one does. -/
structure Refines (ρ : VarId → Int) (b b' : ClauseBuilder) : Prop where
  wellFormed : b'.WellFormed
  store : b'.store = b.store
  holds : b.Holds ρ → b'.Holds ρ

lemma Refines.refl (w : b.WellFormed) : Refines ρ b b := ⟨w, rfl, id⟩

lemma Refines.trans (h : Refines ρ b b') (h' : Refines ρ b' b'') : Refines ρ b b'' :=
  ⟨h'.wellFormed, h'.store.trans h.store, fun hb => h'.holds (h.holds hb)⟩

lemma store_addLiteral : (b.addLiteral l).store = b.store := by
  rw [addLiteral]
  split
  · rfl
  · split <;> rfl

/-- Only the variable of the literal that is put in comes to the others. -/
lemma mem_of_mem_addLiteral {u : VarId} (hu : u ∈ (b.addLiteral l).literals.map Literal.var) :
    u ∈ b.literals.map Literal.var ∨ u = l.var := by
  rw [addLiteral] at hu
  split at hu
  · exact .inl hu
  · split at hu
    · rw [Clause.map_var_add] at hu
      split at hu
      · exact .inl hu
      · exact (List.mem_append.1 hu).imp_right List.mem_singleton.1
    · exact .inl hu

lemma WellFormed.addLiteral (w : b.WellFormed) (hv : b.store.has l.var = true) :
    (b.addLiteral l).WellFormed := by
  have hdistinct : (b.addLiteral l).literals.Distinct := by
    rw [ClauseBuilder.addLiteral]
    split
    · exact w.distinct
    · split
      · exact w.distinct.add _
      · exact w.distinct
  refine ⟨store_addLiteral.symm ▸ w.store, hdistinct, fun v hvar => ?_⟩
  rw [store_addLiteral]
  rcases mem_of_mem_addLiteral hvar with hvar | rfl
  · exact w.has v hvar
  · exact hv

/-- A literal that holds is not left out. -/
lemma holds_addLiteral (w : b.WellFormed) (hρ : b.store.Initial ρ)
    (hv : b.store.has l.var = true) (h : b.Holds ρ ∨ l.Holds (b.store.value ρ)) :
    (b.addLiteral l).Holds ρ := by
  have hinitial : b.store.value ρ l.var ∈ b.initial l.var := w.store.value_mem_initial hρ hv
  rw [addLiteral]
  split
  · rename_i hsize
    rcases h with (hcertain | hlits) | hl
    · exact .inl (by simp [hcertain])
    · exact .inr hlits
    · have : b.store.value ρ l.var = (b.initial l.var).lower :=
        IntervalSet.eq_lower_of_size_eq_one hsize hinitial
      rw [Literal.Holds, this] at hl
      exact .inl (by simp [IntervalSet.contains_iff.2 hl])
  · split
    · rcases h with (hcertain | hlits) | hl
      · exact .inl (by simp [hcertain])
      · exact .inr (Clause.holds_add.2 (.inr hlits))
      · exact .inr (Clause.holds_add.2 (.inl (IntervalSet.mem_inter.2 ⟨hl, hinitial⟩)))
    · rename_i hdisjoint
      rcases h with h | hl
      · exact h
      · exact absurd (IntervalSet.intersects_iff.2 ⟨_, hl, hinitial⟩) hdisjoint

lemma WellFormed.put (w : b.WellFormed) (hv : b.store.has l.var = true) :
    (b.put l).WellFormed :=
  WellFormed.addLiteral (b := { b with started := true }) ⟨w.store, w.distinct, w.has⟩ hv

lemma store_put : (b.put l).store = b.store := store_addLiteral

lemma started_put : (b.put l).started = true := by
  rw [put, addLiteral]
  dsimp only
  split
  · rfl
  · split <;> rfl

lemma holds_put (w : b.WellFormed) (hρ : b.store.Initial ρ) (hv : b.store.has l.var = true)
    (h : b.Holds ρ ∨ l.Holds (b.store.value ρ)) : (b.put l).Holds ρ :=
  holds_addLiteral (b := { b with started := true }) ⟨w.store, w.distinct, w.has⟩ hρ hv h

/-! ### Literals on views -/

lemma store_descend {ws : Chain} : (descend ws v b).store = b.store := by
  induction ws generalizing v b with
  | nil => rfl
  | cons x ws ih =>
    rw [descend]
    split
    · rfl
    dsimp only
    split
    · rfl
    · exact ih.trans store_addLiteral

lemma store_onRoots : b.onRoots.store = b.store :=
  List.foldlRecOn (motive := fun b' : ClauseBuilder => b'.store = b.store) _ _ rfl
    fun _ h _ _ => store_descend.trans h

/-- The literals of the builder are on known variables, in whatever order they are moved. -/
lemma WellFormed.has_of_mem_sorted (w : b.WellFormed) (hl : l ∈ b.literals.sorted.reverse) :
    b.store.has l.var = true :=
  w.has l.var (List.mem_map_of_mem (Clause.mem_sorted.1 (List.mem_reverse.1 hl)))

/-- The builder without the literal on a variable. -/
def drop (b : ClauseBuilder) (v : VarId) : ClauseBuilder :=
  { b with literals := b.literals.without v }

lemma WellFormed.drop (w : b.WellFormed) (v : VarId) : (b.drop v).WellFormed :=
  ⟨w.store, w.distinct.filter _, fun v' hv' =>
    w.has v' ((List.filter_sublist.map Literal.var).subset hv')⟩

/-- A builder holds by the literal on a variable, or without it. -/
lemma holds_iff_drop {values : IntervalSet} (w : b.WellFormed)
    (hvalues : b.literals.allowed? v = some values) :
    b.Holds ρ ↔ (b.drop v).Holds ρ ∨ b.store.value ρ v ∈ values := by
  have hallows : b.literals.Allows v (b.store.value ρ v) ↔ b.store.value ρ v ∈ values := by
    rw [← Clause.mem_allowed? w.distinct, hvalues]
    rfl
  rw [← hallows, Holds, Holds, Clause.holds_iff_allows, Clause.holds_iff_allows, or_assoc]
  refine or_congr_right ⟨?_, ?_⟩
  · rintro ⟨v', hv'⟩
    by_cases heq : v' = v
    · exact .inr (heq ▸ hv')
    · exact .inl ⟨v', Clause.allows_without.2 ⟨heq, hv'⟩⟩
  · rintro (⟨v', hv'⟩ | hv')
    · exact ⟨v', (Clause.allows_without.1 hv').2⟩
    · exact ⟨v, hv'⟩

/-- A value of a view comes from a value of its base. -/
lemma mem_preimage_of_value_mem {x : View} {ws : Chain} {values : IntervalSet}
    (w : b.store.WellFormed) (hρ : b.store.Initial ρ) (hv : b.store.has v = true)
    (hchain : b.store.chain v = x :: ws) (hmem : b.store.value ρ v ∈ values) :
    b.store.value ρ x.base ∈ x.preimage values (b.initial x.base) := by
  obtain ⟨hbase, -, -⟩ := w.linked v hv x ws hchain
  have hvalue := w.value_view (ρ := ρ) hv hchain
  have hinitial : ρ (b.store.root v) ∈ (b.store.history v).initial := by
    rw [← w.initial_root hv]
    exact hρ _ (w.isRoot_root v hv)
  have hbool := Chain.value_boolean (hchain ▸ w.boolean v hv) hinitial
  rw [← hchain, ← Store.value] at hbool
  rw [hvalue] at hmem hbool
  exact View.mem_preimage_of_mem (w.value_mem_initial hρ hbase) hbool hmem

/-- The literal on a view holds if the one on its base does. -/
lemma refines_descend {ws : Chain} (w : b.WellFormed) (hρ : b.store.Initial ρ)
    (hv : b.store.has v = true) (hchain : b.store.chain v = ws) :
    Refines ρ b (descend ws v b) := by
  induction ws generalizing v b with
  | nil => exact .refl w
  | cons x ws ih =>
    rw [descend]
    split
    · exact .refl w
    rename_i values hvalues
    obtain ⟨hbase, hchain', -⟩ := w.store.linked v hv x ws hchain
    -- an assignment that satisfies the literal on the view is not lost
    have hbelow : b.Holds ρ → (b.drop v).Holds ρ ∨
        b.store.value ρ x.base ∈ x.preimage values (b.initial x.base) := fun h =>
      ((holds_iff_drop w hvalues).1 h).imp_right (mem_preimage_of_value_mem w.store hρ hv hchain)
    dsimp only
    split
    · rename_i hempty
      refine ⟨w.drop v, rfl, fun h => (hbelow h).elim id fun hmem => ?_⟩
      exact absurd hmem (IntervalSet.isEmpty_iff.1 hempty _)
    · have hstore := store_addLiteral (b := b.drop v)
        (l := ⟨x.base, x.preimage values (b.initial x.base)⟩)
      have hadd : Refines ρ b
          ((b.drop v).addLiteral ⟨x.base, x.preimage values (b.initial x.base)⟩) :=
        ⟨(w.drop v).addLiteral hbase, hstore, fun h =>
          holds_addLiteral (w.drop v) hρ hbase (hbelow h)⟩
      exact hadd.trans (ih hadd.wellFormed (hstore.symm ▸ hρ) (hstore.symm ▸ hbase)
        (hstore.symm ▸ hchain'))

lemma refines_onRoots (w : b.WellFormed) (hρ : b.store.Initial ρ) : Refines ρ b b.onRoots := by
  refine List.foldlRecOn _ _ (.refl w) fun b' h l hl => h.trans ?_
  refine refines_descend h.wellFormed ?_ ?_ rfl
  · rw [h.store]
    exact hρ
  · rw [h.store]
    exact w.has_of_mem_sorted hl

/-! ### Results -/

/-- What a result says of the values of the variables. -/
def Result.Holds (values : VarId → Int) : Result → Prop
  | .alwaysTrue | .alwaysTrueOnRoots => True
  | .nothing | .neverTrue => False
  | .member l => l.Holds values
  | .clause c => Clause.Holds values c

/-- No assignment is lost on the way to the result.  Only the variables that the builder
knows matter. -/
lemma holds_result {values : VarId → Int} (w : b.WellFormed) (hρ : b.store.Initial ρ)
    (hvalues : ∀ v, b.store.has v = true → values v = b.store.value ρ v)
    (hstarted : b.started = true) (h : b.Holds ρ) : b.result.Holds values := by
  have hroots := refines_onRoots w hρ
  rw [result, hstarted]
  split
  · trivial
  rw [Bool.not_true, if_neg Bool.false_ne_true]
  dsimp only
  split
  · trivial
  rename_i hcertain
  have hlits : b.onRoots.literals.nonempty.sorted.Holds values := by
    rw [Clause.holds_sorted, Clause.holds_nonempty]
    have hknown : ∀ l ∈ b.onRoots.literals, values l.var = b.store.value ρ l.var := by
      intro l hl
      have hvar := hroots.wellFormed.has l.var (List.mem_map_of_mem hl)
      rw [hroots.store] at hvar
      exact hvalues l.var hvar
    rw [Clause.holds_congr hknown, ← hroots.store]
    exact (hroots.holds h).resolve_left hcertain
  split
  · rename_i hnil
    rw [hnil] at hlits
    exact Clause.not_holds_nil hlits
  · rename_i l hone
    rw [hone] at hlits
    obtain ⟨l', hl', hk⟩ := hlits
    rw [List.mem_singleton.1 hl'] at hk
    exact hk
  · exact hlits

/-! ### What was put in -/

/-- The builder holds wherever the clause does, whose literals were put into it. -/
structure States (b : ClauseBuilder) (c : Clause) : Prop where
  has : ∀ k ∈ c, b.store.has k.var = true
  started : c ≠ [] → b.started = true
  holds : ∀ ρ, b.store.Initial ρ → c.Holds (b.store.value ρ) → b.Holds ρ

lemma states_nil : b.States [] :=
  ⟨nofun, fun h => absurd rfl h, fun _ _ h => absurd h Clause.not_holds_nil⟩

lemma States.put {c : Clause} (h : b.States c) (w : b.WellFormed)
    (hv : b.store.has l.var = true) : (b.put l).States (l :: c) where
  has k hk := by
    rw [store_put]
    rcases List.mem_cons.1 hk with rfl | hk
    · exact hv
    · exact h.has k hk
  started _ := started_put
  holds ρ hρ hc := by
    rw [store_put] at hρ hc
    rw [Clause.holds_cons] at hc
    exact holds_put w hρ hv (hc.symm.imp_left (h.holds ρ hρ))

lemma States.putAll {c d : Clause} (h : b.States d) (w : b.WellFormed)
    (hc : ∀ l ∈ c, b.store.has l.var = true) :
    (c.foldl (fun b l => b.put l) b).WellFormed ∧
      (c.foldl (fun b l => b.put l) b).store = b.store ∧
      (c.foldl (fun b l => b.put l) b).States (c.reverse ++ d) := by
  induction c generalizing b d with
  | nil => exact ⟨w, rfl, h⟩
  | cons l c ih =>
    have hl := hc l List.mem_cons_self
    have hrest : ∀ l' ∈ c, (b.put l).store.has l'.var = true := by
      intro l' hl'
      rw [store_put]
      exact hc l' (List.mem_cons_of_mem l hl')
    obtain ⟨ihw, ihstore, ihstates⟩ := ih (h.put w hl) (w.put hl) hrest
    rw [List.reverse_cons, List.append_assoc, List.singleton_append]
    exact ⟨ihw, ihstore.trans store_put, ihstates⟩

/-- An assignment that satisfies the clause satisfies the result. -/
lemma States.result {c : Clause} (h : b.States c) (w : b.WellFormed) (hρ : b.store.Initial ρ)
    {values : VarId → Int} (hvalues : ∀ v, b.store.has v = true → values v = b.store.value ρ v)
    (hc : c.Holds values) : b.result.Holds values := by
  have hc' : c.Holds (b.store.value ρ) :=
    (Clause.holds_congr fun k hk => hvalues k.var (h.has k hk)).1 hc
  refine holds_result w hρ hvalues (h.started ?_) (h.holds ρ hρ hc')
  rintro rfl
  exact Clause.not_holds_nil hc

/-! ### Literals that are kept as they are -/

lemma put_of_splits (h : b.store.Splits l) (hnew : l.var ∉ b.literals.map Literal.var) :
    b.put l = { b with started := true, literals := b.literals ++ [l] } := by
  obtain ⟨k, hk⟩ := h.nonempty
  obtain ⟨j, hj, hout⟩ := h.proper
  have hsize : (b.initial l.var).size ≠ 1 := by
    intro hone
    have hk' := IntervalSet.eq_lower_of_size_eq_one hone (h.initial k hk)
    have hj' := IntervalSet.eq_lower_of_size_eq_one hone hj
    rw [hk', ← hj'] at hk
    exact hout hk
  have hmeets : l.allowed.intersects (b.initial l.var) = true :=
    IntervalSet.intersects_iff.2 ⟨k, hk, h.initial k hk⟩
  have hsubset : (b.initial l.var).isSubset l.allowed = false := by
    rw [Bool.eq_false_iff]
    exact fun hsub => hout (IntervalSet.isSubset_iff.1 hsub j hj)
  have hcut : l.allowed ∩ b.initial l.var = l.allowed := by
    ext x
    rw [IntervalSet.mem_inter]
    exact and_iff_left_of_imp (h.initial x)
  have hinitial : ({ b with started := true } : ClauseBuilder).initial l.var = b.initial l.var :=
    rfl
  rw [put, addLiteral, hinitial]
  dsimp only
  rw [if_neg hsize, if_pos hmeets, hsubset, Bool.or_false, hcut, Clause.add_of_not_mem hnew]

lemma foldl_put {c : Clause} (h : ∀ l ∈ c, b.store.Splits l)
    (hdistinct : (b.literals ++ c).Distinct) (hne : c ≠ []) :
    c.foldl (fun b l => b.put l) b = { b with started := true, literals := b.literals ++ c } := by
  induction c generalizing b with
  | nil => exact absurd rfl hne
  | cons l c ih =>
    rw [List.append_cons] at hdistinct
    have hnew : l.var ∉ b.literals.map Literal.var := by
      intro hmem
      rw [Clause.Distinct, List.map_append, List.map_append] at hdistinct
      have hdisjoint := List.disjoint_of_nodup_append (List.nodup_append.1 hdistinct).1
      exact hdisjoint hmem (List.mem_singleton_self _)
    rw [List.foldl_cons, put_of_splits (h l List.mem_cons_self) hnew]
    cases c with
    | nil => rfl
    | cons l' c =>
      rw [ih (b := { b with started := true, literals := b.literals ++ [l] })
        (fun k hk => h k (List.mem_cons_of_mem l hk)) hdistinct (List.cons_ne_nil _ _)]
      simp

/-- Literals on roots stay where they are. -/
lemma onRoots_eq_self (h : ∀ l ∈ b.literals, b.store.IsRoot l.var) : b.onRoots = b := by
  refine List.foldlRecOn (motive := fun b' : ClauseBuilder => b' = b) _ _ rfl fun b' hb l hl => ?_
  have hroot := h l (Clause.mem_sorted.1 (List.mem_reverse.1 hl))
  rw [hb, hroot.chain_eq, descend]

/-- A clause of such literals is what has to be posted, up to the order. -/
lemma result_of_splits {c : Clause} {s : Store} (h : ∀ l ∈ c, s.Splits l) (hdistinct : c.Distinct)
    (hne : c ≠ []) (hb : b = c.foldl (fun b l => b.put l) { store := s }) :
    ∃ d : Clause, d.Perm c ∧ ((∃ l, d = [l] ∧ b.result = .member l) ∨ b.result = .clause d) := by
  have hput : b = { store := s, started := true, literals := c } :=
    hb.trans (foldl_put (b := { store := s }) h hdistinct hne)
  have hroots : b.onRoots = b := onRoots_eq_self fun l hl => by
    rw [hput] at hl ⊢
    exact (h l hl).isRoot
  have hkept : c.nonempty = c := by
    refine List.filter_eq_self.2 fun l hl => ?_
    rw [IntervalSet.isEmpty_eq_false_iff.2 (h l hl).nonempty, Bool.not_false]
  have hperm : c.sorted.Perm c := List.mergeSort_perm c _
  refine ⟨c.sorted, hperm, ?_⟩
  rw [result, hroots, hput]
  dsimp only
  rw [hkept]
  cases hsorted : c.sorted with
  | nil =>
    rw [hsorted] at hperm
    exact absurd hperm.symm.eq_nil hne
  | cons l d =>
    cases d with
    | nil => exact .inl ⟨l, rfl, rfl⟩
    | cons l' d => exact .inr rfl

end ClauseBuilder

end FiniteDomain
