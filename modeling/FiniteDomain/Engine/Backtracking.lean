import FiniteDomain.Engine.Basic

/-!
Checkpoints.

A checkpoint can be taken when no propagator waits.  Going back to it undoes all
updates since and all changes of the memory; the propagators that have not been
called since then, because they were added later, wait again.

* `Engine.checkpoint`: a new checkpoint, and its level;
* `Engine.goBack`, `Engine.restore`: the engine back at a level.
-/

namespace FiniteDomain

namespace Engine

/-- Takes a checkpoint.  Its level is the number of checkpoints before. -/
def checkpoint : Action Nat := do
  Action.require (!(← get).isFailed) .checkpointAfterFailure
  Action.require (← get).agenda.isEmpty .checkpointBeforeFixpoint
  let e ← get
  set { e with
    space := { e.space with store := e.store.mark, memory := e.memory.mark } }
  return e.level

/-- The agenda with a propagator, if it has not been called yet. -/
def requeue (e : Engine) (p : PropId) : Engine :=
  match e.propagator? p with
  | some q =>
    if e.memory.activity p = .inactive then
      { e with agenda := e.agenda.enqueue p q.priority }
    else e
  | none => e

/-- The engine back at a level, before the propagators that have to wait are found. -/
def rewound (e : Engine) (level : Nat) : Engine :=
  { e.clearPending with
    space := { e.space with
      store := e.store.restore level
      memory := e.memory.restore level }
    agenda := e.agenda.clear
    phase := .idle
    conflict := none }

/-- The engine back at a level. -/
def goBack (e : Engine) (level : Nat) : Engine :=
  (e.rewound level).propIds.foldl requeue (e.rewound level)

/-- Goes back to a level, which is at most the current one. -/
def restore (level : Nat) : Action Unit := do
  Action.require (decide (level ≤ (← get).level)) .missingCheckpoint
  modify fun e => e.goBack level

end Engine

end FiniteDomain
