import Mathlib.Tactic
import FiniteDomain.Proofs.Refusal
import FiniteDomain.Proofs.Session.Ending

/-!
Decisions that are refused.

A decision that is refused makes the engine fail.  The engine can then be taken back to its
current level, which gives up the failure and nothing else; so what a refused decision leaves is
what the run goes on with.

* `Engine.refusing`: the engine after a decision was refused that changed nothing;
* `Engine.ends_decide_refused`: what is left otherwise;
* `Session.refused_decision_not_applied`: refused decisions in all sessions, and
  `Session.refused_bounds_applied`: bounds of which the lower one is applied all the same.
-/

namespace FiniteDomain

/-- The only request between two states of a store with the same trail is the one that was
refused. -/
lemma Note.ofUpdates_of_refused {s t : Store} {r : Request} (htrail : t.trail = s.trail)
    (hs : s.failure = none) (ht : t.failure = some r) : ofUpdates s t = [.refused r] := by
  rw [ofUpdates, htrail, hs, ht, Trail.length, ← Array.length_toList, List.drop_length]
  rfl

namespace Engine

variable {e e' : Engine} {v : VarId} {d : Decision} {i : Inconsistency}

/-- The engine after a request was refused: the request is kept and noted, the engine failed with
the inconsistency, and no propagator waits or has anything to be told.  All else is as it was: the
variables and the trail, what the propagators remember, and whether they are active. -/
def refusing (e : Engine) (r : Request) (i : Inconsistency) : Engine :=
  { e with
    space := { e.space with store := { e.store with failure := some r } }
    slots := e.slots.map fun slot => { slot with pending := [] }
    agenda := {}
    phase := .failed
    conflict := some i
    counters := { e.counters with conflicts := e.counters.conflicts + 1 }
    journal := e.journal.push (.refused r) }

/-- What a refused decision left of an engine: the engine as it was, or, for bounds in a gap of the
domain, with the lower one applied. -/
def TurnsDown (v : VarId) (d : Decision) (e : Engine) (i : Inconsistency) (e' : Engine) : Prop :=
  i.var = v ∧
    (¬ d.Straddles (e.store.domain v) → ∃ op, e' = e.refusing ⟨v, op, none⟩ i) ∧
    (d.Straddles (e.store.domain v) → ∃ lo hi t, d = .bounds lo hi ∧
      Store.apply none v (.atLeast lo) e.store = .ok true t ∧
      e'.store.vars = t.vars ∧ e'.store.trail = t.trail)

/-- A refusal that changes nothing in the store changes nothing else in an engine between two
calls. -/
lemma fail_of_declined (hagenda : e.agenda.WellFormed) (hraised : e.store.raised = [])
    (hfailure : e.store.failure = none) (r : Request) :
    (e.withSpace { e.space with store := { e.store with failure := some r } }).fail i =
      e.refusing r i := by
  rw [store] at hraised
  have hnote : Note.ofUpdates e.space.store { e.space.store with failure := some r, raised := [] } =
    [.refused r] := Note.ofUpdates_of_refused rfl hfailure rfl
  simp only [fail, withSpace, clearRaised, clearPending, count, refusing, store, hraised, hnote,
    hagenda.clear_eq]
  rw [Array.push_eq_append]
  rfl

lemma ends_decide_refused (h : e.Tidy) :
    Ends (decide v d) e (fun r e' => ∀ i, r = .error i → TurnsDown v d e i e') fun _ _ => True := by
  rw [decide]
  refine ends_bind_get (ends_bind_require trivial fun hidle => ?_)
  refine ends_bind_requireVariable trivial fun hv => ends_bind_get ?_
  have hnone : e.conflict = none := by simpa [isFailed] using hidle
  split
  · exact ends_bind_set (ends_pure fun _ hi => by cases hi)
  rename_i i t hrun
  refine ends_bind_set (ends_pure fun i' hi => ?_)
  cases hi
  rcases Ends.of_error hrun (d.ends_change_declined h.intact.store hv) with
    ⟨hno, hvar, op, rfl⟩ | ⟨hgap, lo, hi, u, rfl, hlower, hvar, op, rfl⟩
  · refine ⟨hvar, fun _ => ⟨op, ?_⟩, fun hgap => absurd hgap hno⟩
    exact fail_of_declined h.intact.agenda h.raised (h.failure hnone) _
  · exact ⟨hvar, fun hno => absurd hgap hno, fun _ => ⟨lo, hi, u, rfl, hlower, rfl, rfl⟩⟩

end Engine

namespace Session

variable {s : Session} {v : VarId} {d : Decision} {i : Inconsistency} {e : Engine}

/-- In every session that a run leads to, a decision that is refused is not applied: nothing is
different but the failure and the account of it, the phase, and that nothing waits.  The only
exception are bounds in a gap of the domain, of which the lower one is applied. -/
theorem refused_decision_not_applied (h : s.Arises)
    (hrun : Engine.decide v d s.engine = .ok (.error i) e) : Engine.TurnsDown v d s.engine i e :=
  Ends.of_ok hrun (Engine.ends_decide_refused h.tidy) i rfl

/-- A domain with holes and two views of it, behind a checkpoint, with a propagator that waits. -/
def pressed : Session := (new .allDecision).run
  [.newSparseVariable [1, 4, 6] none, .newView ⟨.atMost 3, ⟨0⟩⟩, .newView ⟨.negation, ⟨1⟩⟩,
    .newVariable 0 9 none, .add (.maximum ⟨[⟨0⟩], ⟨3⟩⟩), .propagate, .checkpoint,
    .decide ⟨0⟩ (.apply (.atLeast 2))]

/-- A value is refused through both views, and a restriction to values that lie in gaps. -/
theorem refused_decision_not_applied_pressed : pressed.engine.agenda.isEmpty = false ∧
    (∃ op, (pressed.after (.decide ⟨2⟩ (.apply (.equals 0)))).engine =
      pressed.engine.refusing ⟨⟨2⟩, op, none⟩ ⟨.crossed, ⟨2⟩⟩) ∧
    ∃ op, (pressed.after (.decide ⟨0⟩ (.restrict (.ofList [1, 5, 7])))).engine =
      pressed.engine.refusing ⟨⟨0⟩, op, none⟩ ⟨.crossed, ⟨0⟩⟩ := by
  have harises : pressed.Arises := ⟨.allDecision, _, by decide, rfl⟩
  obtain ⟨hwaiting, hvalue, hvalues⟩ : pressed.engine.agenda.isEmpty = false ∧
      result? (Engine.decide ⟨2⟩ (.apply (.equals 0))) pressed.engine =
        some (.error ⟨.crossed, ⟨2⟩⟩) ∧
      result? (Engine.decide ⟨0⟩ (.restrict (.ofList [1, 5, 7]))) pressed.engine =
        some (.error ⟨.crossed, ⟨0⟩⟩) := by
    decide +kernel
  exact ⟨hwaiting,
    (refused_decision_not_applied harises (engine_after rfl hvalue)).2.1 id,
    (refused_decision_not_applied harises (engine_after rfl hvalues)).2.1 id⟩

/-- A variable with a gap between its two values. -/
def gapped : Session := (new .allDecision).run [.newSparseVariable [1, 5] none]

/-- Bounds in the gap are refused, and the lower one is applied: a value is lost, and the trail is
longer than before. -/
theorem refused_bounds_applied : gapped.Arises ∧ gapped.engine.isFailed = false ∧
    Engine.decide ⟨0⟩ (.bounds 2 4) gapped.engine =
      .ok (.error ⟨.crossed, ⟨0⟩⟩) (gapped.after (.decide ⟨0⟩ (.bounds 2 4))).engine ∧
    (∀ x ∈ [1, 5], x ∈ gapped.engine.store.domain ⟨0⟩) ∧
    1 ∉ (gapped.after (.decide ⟨0⟩ (.bounds 2 4))).engine.store.domain ⟨0⟩ ∧
    gapped.engine.store.length = 0 ∧
    (gapped.after (.decide ⟨0⟩ (.bounds 2 4))).engine.store.length = 1 :=
  ⟨⟨.allDecision, _, by decide, rfl⟩, rfl, engine_after rfl rfl, by decide +kernel⟩

end Session

end FiniteDomain
