import Mathlib.Tactic
import FiniteDomain.Proofs.Engine.Delivery
import FiniteDomain.Proofs.Session.Ending

/-!
No event is lost, and none is handed over twice.

Between two commands, whatever they are and wherever they go back to, the slots of the propagators,
the agenda and the notes on events and calls agree, as far as the notes were made since the engine
last went back.  Propagation hands each set of events over once.

* `Session.GoesBack`, `Session.LastReturned`: how many notes there were when the engine last went
  back;
* `Engine.Faithful`: what holds between two commands, with `Session.scheduling_after`: all commands
  keep it;
* `Session.scheduler_delivers`: what holds in all sessions, and what propagation does there.
-/

namespace FiniteDomain

/-- What holds of the engine between two commands, if it last went back before the `k`-th note.  It
is not propagating, and it holds a conflict if it failed, as it did if a request was refused.
Either trail has the same checkpoints.  When it failed, nothing is left to be done or told;
otherwise the slots of the propagators hold what they are owed, and those wait that have something
to do. -/
structure Engine.Faithful (k : Nat) (e : Engine) : Prop where
  phase : e.phase = .idle ∨ e.phase = .failed
  conflict : e.conflict.isSome = true ↔ e.phase = .failed
  failure : e.store.failure.isSome = true → e.phase = .failed
  levels : e.store.trail.level = e.memory.trail.level
  failed : e.phase = .failed → e.agenda.isEmpty = true ∧ e.store.raised = [] ∧
    ∀ slot ∈ e.slots, slot.pending = []
  idle : e.phase = .idle → e.AttendsAll k

lemma Engine.Scheduling.faithful {e : Engine} {k : Nat} (h : e.Tidy) (hs : e.Scheduling k) :
    e.Faithful k := by
  have hlevels := h.intact.level.symm
  rcases hs with hi | hb
  · have hfailed : e.phase ≠ .failed := fun hf => Phase.noConfusion (hi.phase.symm.trans hf)
    refine ⟨.inl hi.phase, iff_of_false ?_ hfailed, fun hsome => ?_, hlevels,
      fun hf => absurd hf hfailed, fun _ => hi.attends⟩
    · rw [hi.conflict]
      exact Bool.false_ne_true
    · rw [h.failure hi.conflict] at hsome
      cases hsome
  · have hidle : e.phase ≠ .idle := fun hi => Phase.noConfusion (hb.phase.symm.trans hi)
    exact ⟨.inr hb.phase, iff_of_true hb.conflict hb.phase, fun _ => hb.phase, hlevels,
      fun _ => ⟨hb.agenda, h.raised, hb.pending⟩, fun hi => absurd hi hidle⟩

namespace Session

variable {s : Session} {c : Command} {k : Nat}

/-- The command takes the engine back, to a level that there is or out of a failed state. -/
def GoesBack (s : Session) (c : Command) : Prop :=
  match c with
  | .restore t => t.resolve s.engine ≤ s.engine.level
  | .handleConflict _ => s.engine.isFailed = true ∧ (s.after c).engine.isFailed = false
  | _ => False

/-- Some commands lead from a new session to this one, and the engine last went back when there were
`k` notes. -/
inductive LastReturned : Session → Nat → Prop
  | new (strategy : Strategy) : LastReturned (new strategy) 0
  | back {s : Session} {c : Command} {k : Nat} (h : LastReturned s k) (htyped : c.IsTyped)
    (hback : s.GoesBack c) : LastReturned (s.after c) s.engine.journal.size
  | on {s : Session} {c : Command} {k : Nat} (h : LastReturned s k) (htyped : c.IsTyped)
    (hback : ¬ s.GoesBack c) : LastReturned (s.after c) k

lemma LastReturned.arises (h : s.LastReturned k) : s.Arises := by
  induction h with
  | new strategy => exact ⟨strategy, [], List.forall_mem_nil _, rfl⟩
  | back _ htyped _ ih => exact ih.after htyped
  | on _ htyped _ ih => exact ih.after htyped

lemma Arises.exists_lastReturned (h : s.Arises) : ∃ k, s.LastReturned k := by
  refine h.induct (P := fun s => ∃ k, s.LastReturned k) (fun strategy => ⟨0, .new strategy⟩) ?_
  rintro s c - hc ⟨k, hk⟩
  by_cases hback : s.GoesBack c
  · exact ⟨_, hk.back hc hback⟩
  · exact ⟨_, hk.on hc hback⟩

/-! ### One command -/

/-- The engine goes back to a level that there is, or stays as it is. -/
lemma ends_restore {e : Engine} (level : Nat) : Ends (Engine.restore level) e
    (fun _ e' => level ≤ e.level ∧ e' = e.goBack level)
    fun _ e' => ¬ level ≤ e.level ∧ e' = e := by
  rw [Ends, Engine.restore, bind_get]
  by_cases hle : level ≤ e.level
  · rw [decide_eq_true hle]
    exact ⟨hle, rfl⟩
  · rw [decide_eq_false hle]
    exact ⟨hle, rfl⟩

lemma engine_after_restore (s : Session) (t : Target) :
    (t.resolve s.engine ≤ s.engine.level ∧
      (s.after (.restore t)).engine = s.engine.goBack (t.resolve s.engine)) ∨
    ¬ t.resolve s.engine ≤ s.engine.level ∧ (s.after (.restore t)).engine = s.engine := by
  have hends : Ends (Engine.restore (t.resolve s.engine)) s.engine
      (fun _ e' => (t.resolve s.engine ≤ s.engine.level ∧
        e' = s.engine.goBack (t.resolve s.engine)) ∨
          ¬ t.resolve s.engine ≤ s.engine.level ∧ e' = s.engine)
      fun _ e' => (t.resolve s.engine ≤ s.engine.level ∧
        e' = s.engine.goBack (t.resolve s.engine)) ∨
          ¬ t.resolve s.engine ≤ s.engine.level ∧ e' = s.engine :=
    (ends_restore _).mono (fun _ _ h => .inl h) fun _ _ h => .inr h
  exact (after_of_ends (c := .restore t)
    (ends_bind_get (calls_reply (g := fun _ => Reply.done) hends))).engine

/-- Conflicts are handled only after a failure. -/
lemma engine_after_handleConflict {t : Target} (h : s.engine.isFailed = false) :
    (s.after (.handleConflict t)).engine = s.engine := by
  have hends : Ends (Engine.handleConflict (t.resolve s.engine)) s.engine
      (fun _ e' => e' = s.engine) fun _ e' => e' = s.engine := by
    rw [Engine.handleConflict]
    refine ends_bind_get (Engine.ends_bind_require rfl fun hfailed => ?_)
    rw [h] at hfailed
    cases hfailed
  exact (after_of_ends (c := .handleConflict t) (ends_bind_get (calls_reply hends))).engine

/-- A failed engine stays as it is, or goes back after it noted what was learned. -/
lemma scheduling_handleConflict {t : Target} (h : s.engine.Tidy) (hb : s.engine.Broken) :
    (s.after (.handleConflict t)).engine.Broken ∨
      (s.after (.handleConflict t)).engine.Scheduling s.engine.journal.size := by
  rcases leads_after (c := .handleConflict t) h.intact.store trivial with
    haccounts | ⟨e₁, haccounts, hmoves⟩
  · exact .inl (hb.account haccounts)
  · obtain ⟨ns, hns, hjournal⟩ := haccounts.journal
    have hrecent : e₁.recent s.engine.journal.size = ns := by
      rw [Engine.recent, hjournal, ← Array.length_toList, List.drop_left]
    have hidles := Engine.idles_goBack hns (Engine.size_le_of_journal hjournal) hrecent
      (t.resolve s.engine)
    exact .inr (hmoves.scheduling ((haccounts.moves.tidy h).goBack _) (.inl hidles))

/-- All commands keep the engine in order, and those that go back do so from then on. -/
lemma scheduling_after (h : s.engine.Tidy) (hs : s.engine.Scheduling k) (hc : c.IsTyped) :
    (s.GoesBack c → (s.after c).engine.Scheduling s.engine.journal.size) ∧
      (¬ s.GoesBack c → (s.after c).engine.Scheduling k) := by
  have hleads := leads_after h.intact.store hc
  cases c with
  | decide v d =>
    refine ⟨False.elim, fun _ => ?_⟩
    rcases hleads with hsame | ⟨r, hrun⟩
    · rwa [hsame]
    · obtain ⟨hnone, -, hdecides⟩ := Ends.of_ok hrun (Engine.ends_decide h.intact.store v d)
      exact hdecides.scheduling (hs.idles hnone)
  | checkpoint =>
    refine ⟨False.elim, fun _ => ?_⟩
    rcases hleads with hsame | ⟨n, hrun⟩
    · rwa [hsame]
    · obtain ⟨-, hnone, -, hmarked⟩ := Ends.of_ok hrun Engine.ends_checkpoint
      rw [hmarked]
      exact .inl (hs.idles hnone).marked
  | restore t =>
    rcases engine_after_restore s t with ⟨hle, hback⟩ | ⟨hle, hsame⟩
    · refine ⟨fun _ => .inl ?_, fun hno => absurd hle hno⟩
      rw [hback]
      have hquiet : ∀ n ∈ ([] : List Note), n.Quiet := List.forall_mem_nil _
      refine Engine.idles_goBack hquiet le_rfl ?_ _
      rw [Engine.recent, ← Array.length_toList, List.drop_length]
    · rw [hsame]
      exact ⟨fun hback => absurd hback hle, fun _ => hs⟩
  | handleConflict t =>
    cases hfailed : s.engine.isFailed with
    | false =>
      rw [engine_after_handleConflict hfailed]
      exact ⟨fun hback => absurd hback.1 (hfailed ▸ Bool.false_ne_true), fun _ => hs⟩
    | true =>
      have hbroken : s.engine.Broken :=
        hs.resolve_left fun hi => by simp [Engine.isFailed, hi.conflict] at hfailed
      have hafter := scheduling_handleConflict (t := t) h hbroken
      refine ⟨fun _ => hafter.elim .inr id, fun hno => ?_⟩
      have hstill : (s.after (.handleConflict t)).engine.isFailed ≠ false :=
        fun hidle => hno ⟨hfailed, hidle⟩
      rcases hafter with hb | hi | hb
      · exact .inr hb
      · exact absurd (by simp [Engine.isFailed, hi.conflict]) hstill
      · exact .inr hb
  | _ => exact ⟨False.elim, fun _ => Engine.Moves.scheduling hleads h hs⟩

lemma LastReturned.scheduling (h : s.LastReturned k) : s.engine.Scheduling k := by
  induction h with
  | new strategy =>
    exact .inl ⟨rfl, rfl, le_rfl, fun p slot hslot => by simp [Session.new] at hslot⟩
  | back h htyped hback ih => exact (scheduling_after h.arises.tidy ih htyped).1 hback
  | on h htyped hback ih => exact (scheduling_after h.arises.tidy ih htyped).2 hback

/-- In every session that a run leads to, the scheduler is faithful to the notes that were made
since the engine last went back.  Propagation that ends well hands each set of events that a
propagator is owed to it once, those that come up meanwhile too, unless it is called from scratch in
their place or has nothing left to do.  Then no propagator waits, and nothing is pending. -/
theorem scheduler_delivers (h : s.Arises) : (∃ k, s.LastReturned k) ∧
    ∀ k, s.LastReturned k → s.engine.Faithful k ∧
      ∀ e', Engine.propagate s.engine = .ok (.ok ()) e' → Engine.Delivers k s.engine e' :=
  ⟨h.exists_lastReturned, fun _ hk => ⟨hk.scheduling.faithful h.tidy, fun _ hrun =>
    hk.scheduling.delivers h.tidy hrun⟩⟩

/-- After going back from a failed state, a propagator that was just added, one that is called from
scratch whenever it is told something, and one that is told something before and while others are
called. -/
def resumed : Session := (new .allDecision).run
  [.newVariable 0 5 none, .newVariable 0 5 none, .newVariable 0 1 none,
    .add (.maximum ⟨[⟨0⟩, ⟨1⟩, ⟨0⟩], ⟨1⟩⟩), .add (.count ⟨[⟨0⟩, ⟨1⟩, ⟨0⟩], 2, ⟨2⟩⟩), .propagate,
    .checkpoint, .decide ⟨0⟩ (.apply (.equals 2)), .decide ⟨1⟩ (.apply (.equals 1)), .propagate,
    .restore (.level 0), .add (.observer { scope := [⟨0⟩, ⟨0⟩] }),
    .decide ⟨1⟩ (.apply (.atMost 2))]

/-- All three wait, and propagation ends well. -/
theorem scheduler_delivers_resumed : resumed.engine.agenda.waiting = [⟨2⟩, ⟨0⟩, ⟨1⟩] ∧
    (∃ e', Engine.propagate resumed.engine = .ok (.ok ()) e') ∧ (∃ k, resumed.LastReturned k) ∧
    ∀ k, resumed.LastReturned k → resumed.engine.Faithful k ∧
      ∀ e', Engine.propagate resumed.engine = .ok (.ok ()) e' →
        Engine.Delivers k resumed.engine e' := by
  have hresult : result? Engine.propagate resumed.engine = some (.ok ()) := by decide +kernel
  exact ⟨by decide +kernel, exists_of_result? hresult,
    scheduler_delivers ⟨.allDecision, _, by decide +kernel, rfl⟩⟩

end Session

end FiniteDomain
