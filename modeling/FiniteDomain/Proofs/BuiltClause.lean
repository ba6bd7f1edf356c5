import Mathlib.Tactic
import FiniteDomain.Proofs.ClauseBuilder
import FiniteDomain.Proofs.Store.Continuation

/-!
Clause builders say what was put into them, and nothing else.

Literals are cut down to initial values, merged, left out and moved from views to their bases.  None
of this loses an assignment from the initial domains, and none of it lets another one in.

* `Store.Renders`: what is posted says the same as a statement on assignments;
* `Store.Rooted`: variables without views below them are roots;
* `ClauseBuilder.Exact`: a builder says the same as a statement on assignments, with
  `ClauseBuilder.Exact.put` and `ClauseBuilder.Exact.forbid` for one more literal;
* `ClauseBuilder.Exact.descend`: a literal on a view that is moved down the chain;
* `ClauseBuilder.Exact.onRoots`, `ClauseBuilder.isRoot_onRoots`: in the end no literal is on a view;
* `ClauseBuilder.Result.Amounts`, `ClauseBuilder.Exact.result`: what has to be posted;
* `ClauseBuilder.Entry`, `ClauseBuilder.amounts_entries`: what a caller puts into a builder, one
  entry after the other.
-/

namespace FiniteDomain

namespace Store

variable {s : Store} {v : VarId}

/-- There are assignments from the initial domains. -/
lemma WellFormed.exists_initial (w : s.WellFormed) : ∃ ρ, s.Initial ρ := by
  refine ⟨fun v => (s.initial v).lower, fun v hv => IntervalSet.lower_mem ?_⟩
  rw [initial_eq_domainAt]
  exact w.domainAt_nonempty hv.has

/-- A root takes any of its initial values. -/
lemma WellFormed.exists_initial_of_mem (w : s.WellFormed) (hv : s.IsRoot v) {k : Int}
    (hk : k ∈ s.initial v) : ∃ ρ, s.Initial ρ ∧ s.value ρ v = k := by
  obtain ⟨ρ, hρ⟩ := w.exists_initial
  refine ⟨Function.update ρ v k, fun v' hv' => ?_, ?_⟩
  · by_cases h : v' = v
    · subst h
      rwa [Function.update_self]
    · rw [Function.update_of_ne h]
      exact hρ v' hv'
  · rw [hv.value_eq, Function.update_self]

/-- A variable that can take two initial values takes one of a set exactly where its base lies in
the preimage. -/
lemma WellFormed.mem_preimage_iff (w : s.WellFormed) (hv : s.has v = true) {x : View} {ws : Chain}
    (hchain : s.chain v = x :: ws) (hsize : (s.initial v).size ≠ 1) {values : IntervalSet}
    {ρ : VarId → Int} (hρ : s.Initial ρ) :
    s.value ρ x.base ∈ x.preimage values (s.initial x.base) ↔ s.value ρ v ∈ values := by
  obtain ⟨hbase, hchain', hroot⟩ := w.linked v hv x ws hchain
  have hvalue := w.value_view (ρ := ρ) hv hchain
  have hhistory : s.history x.base = s.history v := by
    rw [Store.history, hroot, Store.history]
  have hboolean : Chain.Boolean (s.history v).initial (x :: ws) := hchain ▸ w.boolean v hv
  have hnonempty : ∃ z, z ∈ (s.history v).initial := by
    rw [← History.domainAt_zero]
    exact (w.history v hv).nonempty 0
  -- an order view whose bound has no value above is always 1
  have hk : ∀ k, x.condition = .atMost k → k < Value.greatest := by
    intro k hc
    by_contra hge
    refine hsize ?_
    have hone : s.initial v = {1} := by
      ext y
      rw [initial, hchain, Chain.mem_image hboolean hnonempty, IntervalSet.mem_singleton]
      have hval : ∀ z, z ∈ (s.history v).initial → Chain.value (x :: ws) z = 1 := by
        intro z hz
        have hle := (Chain.value_inRange hboolean.2 (w.history v hv).inRange hz).2
        simp only [Chain.value, View.value, hc]
        exact if_pos (by omega)
      constructor
      · rintro ⟨z, hz, rfl⟩
        exact hval z hz
      · rintro rfl
        obtain ⟨z, hz⟩ := hnonempty
        exact ⟨z, hz, hval z hz⟩
    rw [hone]
    rfl
  have hb : x.condition = .negation → ∀ y, y ∈ s.initial x.base → y = 0 ∨ y = 1 := by
    intro hc y hy
    rw [initial, hchain', hhistory] at hy
    obtain ⟨z, hz, rfl⟩ := (Chain.mem_image hboolean.2 hnonempty).1 hy
    exact hboolean.1 hc z hz
  rw [View.mem_preimage hk hb, hvalue]
  exact and_iff_right (w.value_mem_initial hρ hbase)

/-- The clause says the same as a statement on the assignments from the initial domains.  Its
literals are on roots, in the order of these, and each allows some of the initial values. -/
structure Renders (s : Store) (c : Clause) (P : (VarId → Int) → Prop) : Prop where
  isRoot : ∀ l ∈ c, s.IsRoot l.var
  nonempty : ∀ l ∈ c, ∃ k, k ∈ l.allowed
  initial : ∀ l ∈ c, ∀ k, k ∈ l.allowed → k ∈ s.initial l.var
  ascending : c.Pairwise fun l l' => l.var.index < l'.var.index
  holds_iff : ∀ ρ, s.Initial ρ → (c.Holds (s.value ρ) ↔ P ρ)

/-- A clause with a literal can hold. -/
lemma Renders.exists_holds {c : Clause} {P : (VarId → Int) → Prop} (h : s.Renders c P)
    (w : s.WellFormed) (hne : c ≠ []) : ∃ ρ, s.Initial ρ ∧ P ρ := by
  obtain ⟨l, hl⟩ := List.exists_mem_of_ne_nil c hne
  obtain ⟨k, hk⟩ := h.nonempty l hl
  obtain ⟨ρ, hρ, hvalue⟩ := w.exists_initial_of_mem (h.isRoot l hl) (h.initial l hl k hk)
  refine ⟨ρ, hρ, (h.holds_iff ρ hρ).1 ⟨l, hl, ?_⟩⟩
  rwa [Literal.Holds, hvalue]

/-- The literals are on different variables. -/
lemma Renders.distinct {c : Clause} {P : (VarId → Int) → Prop} (h : s.Renders c P) :
    c.Distinct :=
  List.pairwise_map.2 (h.ascending.imp fun hlt heq => hlt.ne (congrArg VarId.index heq))

/-- A clause says the same in a later store. -/
lemma Renders.continues {t : Store} {c : Clause} {P : (VarId → Int) → Prop} (h : s.Renders c P)
    (hst : s.Continues t) : t.Renders c P where
  isRoot l hl := hst.isRoot l.var (h.isRoot l hl)
  nonempty := h.nonempty
  initial l hl k hk := by
    rw [hst.initial l.var (h.isRoot l hl).has]
    exact h.initial l hl k hk
  ascending := h.ascending
  holds_iff ρ hρ := by
    rw [← h.holds_iff ρ (hst.initial_of hρ)]
    exact Clause.holds_congr fun l hl => hst.value (h.isRoot l hl).has

/-- All variables without views below them are roots. -/
def Rooted (s : Store) : Prop := ∀ v, s.has v = true → s.chain v = [] → s.IsRoot v

end Store

namespace ClauseBuilder

variable {b : ClauseBuilder} {l : Literal} {v : VarId} {ρ : VarId → Int} {P : (VarId → Int) → Prop}

/-- The literals that are kept allow some initial values of their variables, which are not
constants. -/
structure Trimmed (b : ClauseBuilder) : Prop extends b.WellFormed where
  initial : ∀ v k, b.literals.Allows v k → k ∈ b.initial v
  nonempty : ∀ l ∈ b.literals, ∃ k, k ∈ l.allowed
  varied : ∀ v ∈ b.literals.map Literal.var, (b.initial v).size ≠ 1

/-- The builder says the same as a statement on the assignments from the initial domains. -/
structure Exact (b : ClauseBuilder) (P : (VarId → Int) → Prop) : Prop where
  trimmed : b.Trimmed
  holds_iff : ∀ ρ, b.store.Initial ρ → (b.Holds ρ ↔ P ρ)

lemma Exact.congr {P' : (VarId → Int) → Prop} (h : b.Exact P)
    (hP : ∀ ρ, b.store.Initial ρ → (P ρ ↔ P' ρ)) : b.Exact P' :=
  ⟨h.trimmed, fun ρ hρ => (h.holds_iff ρ hρ).trans (hP ρ hρ)⟩

/-! ### One more literal -/

lemma nonempty_add {c : Clause} (hc : ∀ l ∈ c, ∃ k, k ∈ l.allowed) (hl : ∃ k, k ∈ l.allowed) :
    ∀ l' ∈ Clause.add l c, ∃ k, k ∈ l'.allowed := by
  induction c with
  | nil => exact List.forall_mem_singleton.2 hl
  | cons l₁ c ih =>
    obtain ⟨⟨k, hk⟩, hc⟩ := List.forall_mem_cons.1 hc
    rw [Clause.add]
    split
    · exact List.forall_mem_cons.2 ⟨⟨k, IntervalSet.mem_union.2 (.inl hk)⟩, hc⟩
    · exact List.forall_mem_cons.2 ⟨⟨k, hk⟩, ih hc⟩

lemma Trimmed.addLiteral (h : b.Trimmed) (hv : b.store.has l.var = true) :
    (b.addLiteral l).Trimmed := by
  have w := h.toWellFormed.addLiteral hv
  rw [ClauseBuilder.addLiteral] at w ⊢
  by_cases hsize : (b.initial l.var).size = 1
  · rw [if_pos hsize] at w ⊢
    exact ⟨w, h.initial, h.nonempty, h.varied⟩
  rw [if_neg hsize] at w ⊢
  by_cases hmeets : l.allowed.intersects (b.initial l.var) = true
  · rw [if_pos hmeets] at w ⊢
    refine ⟨w, fun v k hallows => ?_, ?_, fun v hvar => ?_⟩
    · rcases Clause.allows_add.1 hallows with ⟨rfl, hk⟩ | hallows
      · exact (IntervalSet.mem_inter.1 hk).2
      · exact h.initial v k hallows
    · obtain ⟨k, hk, hd⟩ := IntervalSet.intersects_iff.1 hmeets
      exact nonempty_add h.nonempty ⟨k, IntervalSet.mem_inter.2 ⟨hk, hd⟩⟩
    · rw [Clause.map_var_add] at hvar
      split at hvar
      · exact h.varied v hvar
      · rcases List.mem_append.1 hvar with hvar | hvar
        · exact h.varied v hvar
        · rw [List.mem_singleton.1 hvar]
          exact hsize
  · rw [if_neg hmeets]
    exact h

/-- A literal that is put in is not forgotten, and it adds nothing else. -/
lemma holds_addLiteral_iff (w : b.WellFormed) (hρ : b.store.Initial ρ)
    (hv : b.store.has l.var = true) :
    (b.addLiteral l).Holds ρ ↔ b.Holds ρ ∨ l.Holds (b.store.value ρ) := by
  refine ⟨fun h => ?_, holds_addLiteral w hρ hv⟩
  have hinitial : b.store.value ρ l.var ∈ b.initial l.var := w.store.value_mem_initial hρ hv
  rw [addLiteral] at h
  split at h
  · rename_i hsize
    rcases h with hcertain | hlits
    · rcases Bool.or_eq_true_iff.1 hcertain with hcertain | hallowed
      · exact .inl (.inl hcertain)
      · right
        have heq : b.store.value ρ l.var = (b.initial l.var).lower :=
          IntervalSet.eq_lower_of_size_eq_one hsize hinitial
        rw [Literal.Holds, heq]
        exact IntervalSet.contains_iff.1 hallowed
    · exact .inl (.inr hlits)
  · split at h
    · rcases h with hcertain | hlits
      · rcases Bool.or_eq_true_iff.1 hcertain with hcertain | hsubset
        · exact .inl (.inl hcertain)
        · exact .inr (IntervalSet.isSubset_iff.1 hsubset _ hinitial)
      · rcases Clause.holds_add.1 hlits with hl | hlits
        · exact .inr (IntervalSet.mem_inter.1 hl).1
        · exact .inl (.inr hlits)
    · exact .inl h

lemma Exact.addLiteral (h : b.Exact P) (hv : b.store.has l.var = true) :
    (b.addLiteral l).Exact fun ρ => P ρ ∨ l.Holds (b.store.value ρ) := by
  refine ⟨h.trimmed.addLiteral hv, fun ρ hρ => ?_⟩
  rw [store_addLiteral] at hρ
  rw [holds_addLiteral_iff h.trimmed.toWellFormed hρ hv, h.holds_iff ρ hρ]

lemma Exact.put (h : b.Exact P) (hv : b.store.has l.var = true) :
    (b.put l).Exact fun ρ => P ρ ∨ l.Holds (b.store.value ρ) :=
  Exact.addLiteral (b := { b with started := true })
    ⟨⟨⟨h.trimmed.store, h.trimmed.distinct, h.trimmed.has⟩, h.trimmed.initial, h.trimmed.nonempty,
      h.trimmed.varied⟩, h.holds_iff⟩ hv

lemma Exact.forbid (h : b.Exact P) (hv : b.store.has v = true) {forbidden : IntervalSet} :
    (b.forbid v forbidden).Exact fun ρ => P ρ ∨ b.store.value ρ v ∉ forbidden := by
  refine (h.put (l := ⟨v, b.initial v \ forbidden⟩) hv).congr fun ρ hρ => or_congr_right ?_
  rw [store_put] at hρ
  rw [Literal.Holds, IntervalSet.mem_diff]
  exact and_iff_right (h.trimmed.store.value_mem_initial hρ hv)

/-! ### Literals on views -/

lemma Trimmed.drop (h : b.Trimmed) (v : VarId) : (b.drop v).Trimmed where
  toWellFormed := h.toWellFormed.drop v
  initial v' k hallows := h.initial v' k (Clause.allows_without.1 hallows).2
  nonempty l hl := h.nonempty l (List.mem_filter.1 hl).1
  varied v' hv' := h.varied v' ((List.filter_sublist.map Literal.var).subset hv')

lemma mem_map_var_of_allowed? {c : Clause} {values : IntervalSet}
    (h : c.allowed? v = some values) : v ∈ c.map Literal.var := by
  obtain ⟨l, hfind, -⟩ := Option.map_eq_some_iff.1 h
  have hvar : l.var = v := by simpa using List.find?_some hfind
  exact List.mem_map.2 ⟨l, List.mem_of_find?_eq_some hfind, hvar⟩

/-- The literal on a view holds exactly if the one on its base does that takes its place. -/
lemma holds_drop_iff {x : View} {ws : Chain} {values : IntervalSet} (h : b.Trimmed)
    (hρ : b.store.Initial ρ) (hv : b.store.has v = true) (hchain : b.store.chain v = x :: ws)
    (hvalues : b.literals.allowed? v = some values) :
    (b.drop v).Holds ρ ∨ b.store.value ρ x.base ∈ x.preimage values (b.initial x.base) ↔
      b.Holds ρ := by
  have hsize := h.varied v (mem_map_var_of_allowed? hvalues)
  have hbelow : b.store.value ρ x.base ∈ x.preimage values (b.initial x.base) ↔
      b.store.value ρ v ∈ values := h.store.mem_preimage_iff hv hchain hsize hρ
  exact (or_congr_right hbelow).trans (holds_iff_drop h.toWellFormed hvalues).symm

lemma Exact.descend {ws : Chain} (h : b.Exact P) (hv : b.store.has v = true)
    (hchain : b.store.chain v = ws) : (descend ws v b).Exact P := by
  induction ws generalizing v b with
  | nil => exact h
  | cons x ws ih =>
    rw [ClauseBuilder.descend]
    split
    · exact h
    rename_i values hvalues
    obtain ⟨hbase, hchain', -⟩ := h.trimmed.store.linked v hv x ws hchain
    have hdrop : (b.drop v).Exact (b.drop v).Holds := ⟨h.trimmed.drop v, fun _ _ => Iff.rfl⟩
    have hmoved := fun ρ hρ =>
      (holds_drop_iff (ρ := ρ) h.trimmed hρ hv hchain hvalues).trans (h.holds_iff ρ hρ)
    dsimp only
    split
    · rename_i hempty
      refine hdrop.congr fun ρ hρ => ?_
      rw [← hmoved ρ hρ]
      exact (or_iff_left (IntervalSet.isEmpty_iff.1 hempty _)).symm
    · have hstore := store_addLiteral (b := b.drop v)
        (l := ⟨x.base, x.preimage values (b.initial x.base)⟩)
      have hadd := (hdrop.addLiteral (l := ⟨x.base, x.preimage values (b.initial x.base)⟩)
        hbase).congr fun ρ hρ => hmoved ρ (hstore ▸ hρ)
      exact ih hadd (hstore.symm ▸ hbase) (hstore.symm ▸ hchain')

/-- A literal that is on a view at the end was there at first, and not on the head of the chain. -/
lemma mem_of_mem_descend {ws : Chain} {u : VarId} (w : b.store.WellFormed)
    (hrooted : b.store.Rooted) (hv : b.store.has v = true) (hchain : b.store.chain v = ws)
    (hu : u ∈ (descend ws v b).literals.map Literal.var) (hview : ¬ b.store.IsRoot u) :
    u ∈ b.literals.map Literal.var ∧ u ≠ v := by
  induction ws generalizing v b with
  | nil =>
    refine ⟨hu, ?_⟩
    rintro rfl
    exact hview (hrooted u hv hchain)
  | cons x ws ih =>
    have hkept : u ∈ (b.drop v).literals.map Literal.var →
        u ∈ b.literals.map Literal.var ∧ u ≠ v := by
      intro hu
      obtain ⟨l, hl, rfl⟩ := List.mem_map.1 hu
      obtain ⟨hl, hne⟩ := List.mem_filter.1 hl
      exact ⟨List.mem_map_of_mem hl, by simpa using hne⟩
    rw [descend] at hu
    split at hu
    · rename_i hnone
      refine ⟨hu, ?_⟩
      rintro rfl
      obtain ⟨l, hl, hvar⟩ := List.mem_map.1 hu
      rw [Clause.allowed?, Option.map_eq_none_iff, List.find?_eq_none] at hnone
      exact hnone l hl (decide_eq_true hvar)
    rename_i values _
    obtain ⟨hbase, hchain', -⟩ := w.linked v hv x ws hchain
    dsimp only at hu
    split at hu
    · exact hkept hu
    · have hstore := store_addLiteral (b := b.drop v)
        (l := ⟨x.base, x.preimage values (b.initial x.base)⟩)
      obtain ⟨hu, hne⟩ := ih (b := (b.drop v).addLiteral _) (hstore ▸ w) (hstore ▸ hrooted)
        (hstore.symm ▸ hbase) (hstore.symm ▸ hchain') hu (hstore.symm ▸ hview)
      refine hkept ?_
      exact (mem_of_mem_addLiteral hu).resolve_right hne

/-- So it is for literals that are moved one after the other. -/
lemma mem_of_mem_foldl_descend {ls : Clause} {u : VarId} (w : b.store.WellFormed)
    (hrooted : b.store.Rooted) (hls : ∀ l ∈ ls, b.store.has l.var = true)
    (hu : u ∈ (ls.foldl (fun b l => descend (b.store.chain l.var) l.var b) b).literals.map
      Literal.var) (hview : ¬ b.store.IsRoot u) :
    u ∈ b.literals.map Literal.var ∧ u ∉ ls.map Literal.var := by
  induction ls generalizing b with
  | nil => exact ⟨hu, List.not_mem_nil⟩
  | cons l ls ih =>
    obtain ⟨hl, hls⟩ := List.forall_mem_cons.1 hls
    have hstore : (descend (b.store.chain l.var) l.var b).store = b.store := store_descend
    obtain ⟨hu, hnot⟩ := ih (hstore.symm ▸ w) (hstore.symm ▸ hrooted) (hstore.symm ▸ hls) hu
      (hstore.symm ▸ hview)
    obtain ⟨hu, hne⟩ := mem_of_mem_descend w hrooted hl rfl hu hview
    exact ⟨hu, List.not_mem_cons_of_ne_of_not_mem hne hnot⟩

/-- All literals on views are replaced. -/
lemma isRoot_onRoots (w : b.WellFormed) (hrooted : b.store.Rooted)
    (hl : l ∈ b.onRoots.literals) : b.store.IsRoot l.var := by
  by_contra hview
  obtain ⟨hvar, hnot⟩ := mem_of_mem_foldl_descend w.store hrooted
    (fun _ hl => w.has_of_mem_sorted hl) (List.mem_map_of_mem hl) hview
  obtain ⟨l', hl', heq⟩ := List.mem_map.1 hvar
  exact hnot (heq ▸ List.mem_map_of_mem (List.mem_reverse.2 (Clause.mem_sorted.2 hl')))

/-- Replacing them changes nothing. -/
lemma Exact.onRoots (h : b.Exact P) : b.onRoots.Exact P := by
  have hfold : b.onRoots.Exact P ∧ b.onRoots.store = b.store := by
    refine List.foldlRecOn (motive := fun b' : ClauseBuilder => b'.Exact P ∧ b'.store = b.store)
      _ _ ⟨h, rfl⟩ fun b' h' l hl => ⟨h'.1.descend ?_ rfl, store_descend.trans h'.2⟩
    rw [h'.2]
    exact h.trimmed.has_of_mem_sorted hl
  exact hfold.1

/-! ### Results -/

/-- What a result says of a statement on assignments. -/
def Result.Amounts (s : Store) (P : (VarId → Int) → Prop) : Result → Prop
  | .alwaysTrue | .alwaysTrueOnRoots => ∀ ρ, s.Initial ρ → P ρ
  | .nothing => False
  | .neverTrue => ∀ ρ, s.Initial ρ → ¬ P ρ
  | .member l => s.Renders [l] P
  | .clause c => 2 ≤ c.length ∧ s.Renders c P

/-- A result amounts to the same in a later store. -/
lemma Result.Amounts.continues {s t : Store} {r : Result} (h : r.Amounts s P)
    (hst : s.Continues t) : r.Amounts t P := by
  cases r with
  | alwaysTrue | alwaysTrueOnRoots | neverTrue => exact fun ρ hρ => h ρ (hst.initial_of hρ)
  | nothing => exact h
  | member l => exact Store.Renders.continues h hst
  | clause c => exact ⟨h.1, h.2.continues hst⟩

/-- The literals that are left once those on views are replaced. -/
lemma Exact.renders (h : b.Exact P) (hroots : ∀ l ∈ b.literals, b.store.IsRoot l.var)
    (hcertain : b.certain = false) : b.store.Renders b.literals.nonempty.sorted P := by
  have hmem : ∀ l, l ∈ b.literals.nonempty.sorted → l ∈ b.literals := fun l hl =>
    (List.mem_filter.1 (Clause.mem_sorted.1 hl)).1
  have hdistinct : b.literals.nonempty.sorted.Distinct := (h.trimmed.distinct.filter _).sorted
  have hordered : b.literals.nonempty.sorted.Pairwise fun l l' => l.var.ble l'.var = true :=
    List.pairwise_mergeSort
      (fun l₁ l₂ l₃ h h' => decide_eq_true ((of_decide_eq_true h).trans (of_decide_eq_true h')))
      (fun l₁ l₂ => by simpa [VarId.ble] using Nat.le_total l₁.var.index l₂.var.index) _
  refine ⟨fun l hl => hroots l (hmem l hl), fun l hl => h.trimmed.nonempty l (hmem l hl),
    fun l hl k hk => h.trimmed.initial l.var k ⟨l, hmem l hl, rfl, hk⟩, ?_, fun ρ hρ => ?_⟩
  · have hne : b.literals.nonempty.sorted.Pairwise fun l l' => l.var ≠ l'.var :=
      List.pairwise_map.1 hdistinct
    refine (hordered.and hne).imp fun ⟨hle, hne⟩ => ?_
    exact lt_of_le_of_ne (of_decide_eq_true hle) fun heq => hne (VarId.eq_of_index_eq heq)
  · rw [Clause.holds_sorted, Clause.holds_nonempty, ← h.holds_iff ρ hρ, Holds, hcertain,
      or_iff_right Bool.false_ne_true]

/-- What has to be posted says what was put in. -/
lemma Exact.result (h : b.Exact P) (hrooted : b.store.Rooted) (hstarted : b.started = true) :
    b.result.Amounts b.store P := by
  have hexact := h.onRoots
  have hstore : b.onRoots.store = b.store := store_onRoots
  have hroots : ∀ l ∈ b.onRoots.literals, b.store.IsRoot l.var := fun _ hl =>
    isRoot_onRoots h.trimmed.toWellFormed hrooted hl
  rw [ClauseBuilder.result, hstarted]
  cases hcertain : b.certain with
  | true =>
    exact fun ρ hρ => (h.holds_iff ρ hρ).1 (.inl hcertain)
  | false =>
    rw [if_neg Bool.false_ne_true, Bool.not_true, if_neg Bool.false_ne_true]
    dsimp only
    cases hcertain' : b.onRoots.certain with
    | true => exact fun ρ hρ => (hexact.holds_iff ρ (hstore.symm ▸ hρ)).1 (.inl hcertain')
    | false =>
      rw [if_neg Bool.false_ne_true]
      have hrenders := hexact.renders (hstore.symm ▸ hroots) hcertain'
      rw [hstore] at hrenders
      split
      · rename_i hnil
        intro ρ hρ hP
        have hholds := (hrenders.holds_iff ρ hρ).2 hP
        rw [hnil] at hholds
        exact Clause.not_holds_nil hholds
      · rename_i l hone
        rwa [hone] at hrenders
      · rename_i hnil hone
        refine ⟨?_, hrenders⟩
        cases hc : b.onRoots.literals.nonempty.sorted with
        | nil => exact absurd hc hnil
        | cons l c =>
          cases c with
          | nil => exact absurd hc (hone l)
          | cons l' c => exact Nat.le_add_left 2 c.length

/-! ### Entries -/

/-- What a caller puts into a builder. -/
inductive Entry
  /-- The variable takes one of the allowed values. -/
  | put (l : Literal)
  /-- The variable takes none of the forbidden values. -/
  | forbid (v : VarId) (forbidden : IntervalSet)

namespace Entry

/-- The variable that the entry is on. -/
def var : Entry → VarId
  | put l => l.var
  | forbid v _ => v

/-- What the entry says of the values of the variables. -/
def Holds (values : VarId → Int) : Entry → Prop
  | put l => l.Holds values
  | forbid v forbidden => values v ∉ forbidden

/-- The builder with the entry. -/
def into (b : ClauseBuilder) : Entry → ClauseBuilder
  | put l => b.put l
  | forbid v forbidden => b.forbid v forbidden

lemma store_into {x : Entry} : (x.into b).store = b.store := by
  cases x <;> exact store_put

lemma started_into {x : Entry} : (x.into b).started = true := by
  cases x <;> exact started_put

end Entry

lemma store_entries {xs : List Entry} : (xs.foldl Entry.into b).store = b.store := by
  induction xs generalizing b with
  | nil => rfl
  | cons x xs ih => exact ih.trans Entry.store_into

/-- The builder with all entries says that one of them holds, or what it said before. -/
lemma Exact.entries {xs : List Entry} (h : b.Exact P)
    (hxs : ∀ x ∈ xs, b.store.has x.var = true) :
    (xs.foldl Entry.into b).Exact fun ρ => P ρ ∨ ∃ x ∈ xs, x.Holds (b.store.value ρ) := by
  induction xs generalizing b P with
  | nil => exact h.congr fun ρ _ => by simp
  | cons x xs ih =>
    obtain ⟨hx, hxs⟩ := List.forall_mem_cons.1 hxs
    have hinto : (x.into b).Exact fun ρ => P ρ ∨ x.Holds (b.store.value ρ) := by
      cases x with
      | put l => exact h.put hx
      | forbid v forbidden => exact h.forbid hx
    refine (ih hinto fun x' hx' => Entry.store_into.symm ▸ hxs x' hx').congr fun ρ _ => ?_
    rw [Entry.store_into, or_assoc, List.exists_mem_cons_iff]

lemma started_entries {xs : List Entry} (h : xs ≠ []) : (xs.foldl Entry.into b).started = true := by
  induction xs using List.reverseRecOn with
  | nil => exact absurd rfl h
  | append_singleton xs x =>
    rw [List.foldl_append]
    exact Entry.started_into

/-- Nothing was put into a new builder. -/
lemma exact_new {s : Store} (w : s.WellFormed) : Exact { store := s } fun _ => False := by
  refine ⟨⟨⟨w, Clause.distinct_nil, nofun⟩, fun v k h => (Clause.not_allows_nil h).elim, nofun,
    nofun⟩, fun ρ _ => iff_of_false ?_ not_false⟩
  rintro (hcertain | hlits)
  · cases hcertain
  · exact Clause.not_holds_nil hlits

/-- What a new builder amounts to after some entries. -/
lemma amounts_entries {s : Store} {xs : List Entry} (w : s.WellFormed) (hrooted : s.Rooted)
    (hxs : ∀ x ∈ xs, s.has x.var = true) (hne : xs ≠ []) :
    (xs.foldl Entry.into { store := s }).result.Amounts s
      fun ρ => ∃ x ∈ xs, x.Holds (s.value ρ) := by
  have hexact := (exact_new w).entries hxs
  have hstore : (xs.foldl Entry.into { store := s }).store = s := store_entries
  have hstated := (hexact.congr fun ρ _ => or_iff_right not_false).result
    (by rwa [hstore]) (started_entries hne)
  rwa [hstore] at hstated

end ClauseBuilder

end FiniteDomain
