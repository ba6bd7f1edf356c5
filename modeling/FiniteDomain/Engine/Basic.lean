import FiniteDomain.Agenda
import FiniteDomain.Note
import FiniteDomain.Propagator.Basic
import FiniteDomain.Statistics

/-!
The propagation engine.

An engine holds the domains, the propagators and the agenda of those that have
to be called.  It has failed when it holds a conflict; then it only answers
questions until it is taken back to a checkpoint.

* `Engine`: the state, `Slot`, what it keeps for one propagator, and `Phase`, what it is doing;
* `Action`: a call of the engine; a `Fault` is a call that was not allowed, and
  leaves the engine as it was up to its notes;
* `Misuse.message`: the wording of such faults;
* `Engine.isFailed`, `Engine.level`, `Engine.name?`, `Engine.describe`: questions.
-/

namespace FiniteDomain

/-- A call that the state of the engine, or its arguments, do not allow. -/
inductive Misuse
  | crossedBounds (lo hi : Int)
  | emptyDomain
  | newVariableAfterFailure
  | missingBase
  | negationOfNonBoolean
  | changeAfterFailure
  | propagatorAfterFailure
  | checkpointAfterFailure
  | checkpointBeforeFixpoint
  | missingCheckpoint
  | analysisWithoutFailure
  | handlingWithoutFailure
  | noUpdate (position : Nat)
  deriving DecidableEq, Repr

/-- The wording of a misuse. -/
def Misuse.message : Misuse → String
  | crossedBounds lo hi =>
    "the lower bound " ++ toString lo ++ " must not exceed the upper bound " ++ toString hi
  | emptyDomain => "cannot create a variable with an empty domain"
  | newVariableAfterFailure => "variables can only be created while the engine is idle"
  | missingBase => "a view must be defined on an existing variable"
  | negationOfNonBoolean => "the base of a negation must be boolean"
  | changeAfterFailure => "cannot change domains in a failed state, restore first"
  | propagatorAfterFailure => "propagators cannot be added in a failed state, restore first"
  | checkpointAfterFailure => "cannot take a checkpoint in a failed state"
  | checkpointBeforeFixpoint => "checkpoints can only be taken at a fixpoint"
  | missingCheckpoint => "cannot restore a checkpoint which was already restored"
  | analysisWithoutFailure => "conflict analysis requires a failure"
  | handlingWithoutFailure => "conflict handling requires a failure"
  | noUpdate position => "there is no update at position " ++ toString position

/-- Why a call of the engine came to nothing. -/
inductive Fault
  | misuse (m : Misuse)
  | unknownVariable (v : VarId)
  | unknownPropagator (p : PropId)
  /-- A loop used up its rounds. -/
  | exhausted
  deriving DecidableEq, Repr

/-- What the engine does about a conflict. -/
inductive Strategy
  /-- It learns a clause on the decisions that led to the conflict. -/
  | allDecision
  /-- It only goes back. -/
  | noLearning
  deriving DecidableEq, Repr

/-- What the engine is doing. -/
inductive Phase
  /-- It is not propagating. -/
  | idle
  /-- It is calling a propagator from scratch. -/
  | starting
  /-- It is calling a propagator for the events it was told of. -/
  | reacting
  /-- It failed, and has to be taken back. -/
  | failed
  deriving DecidableEq, Repr

/-- What the engine keeps for a propagator: the events it has to be told of, by
index in its scope, in the order in which they first came up. -/
structure Slot where
  propagator : Propagator
  pending : Assoc Nat EventSet := []

/-- The domains, the propagators and the agenda. -/
structure Engine where
  space : Space := {}
  slots : Array Slot := #[]
  agenda : Agenda := {}
  phase : Phase := .idle
  /-- The inconsistency that the engine failed with, if it failed. -/
  conflict : Option Inconsistency := none
  /-- Whether the problem is known to have no solution. -/
  infeasible : Bool := false
  counters : Counters := {}
  /-- The names of variables, latest first. -/
  names : List (VarId × String) := []
  strategy : Strategy := .allDecision
  /-- What the engine did, oldest first. -/
  journal : Array Note := #[]

/-- A call of the engine. -/
abbrev Action := EStateM Fault Engine

namespace Engine

/-- The domains. -/
def store (e : Engine) : Store := e.space.store

/-- What the propagators remember. -/
def memory (e : Engine) : Memory := e.space.memory

/-- Whether the engine has to be taken back before it can go on. -/
def isFailed (e : Engine) : Bool := e.conflict.isSome

/-- The number of checkpoints that can be gone back to. -/
def level (e : Engine) : Nat := e.store.trail.level

/-- The propagators, in order of acceptance. -/
def propagators (e : Engine) : List Propagator := e.slots.toList.map Slot.propagator

/-- The propagator of a number. -/
def propagator? (e : Engine) (p : PropId) : Option Propagator :=
  (e.slots[p.index]?).map Slot.propagator

/-- The numbers of the propagators. -/
def propIds (e : Engine) : List PropId := (List.range e.slots.size).map PropId.mk

/-- Whether the propagator has nothing left to do until the engine goes back. -/
def isPassive (e : Engine) (p : PropId) : Bool := e.memory.activity p == .passive

/-- The name of a variable. -/
def name? (e : Engine) (v : VarId) : Option String := Assoc.find? v e.names

/-- The variable of a name; of several the latest. -/
def lookup (e : Engine) (name : String) : Option VarId :=
  (e.names.find? fun n => n.2 == name).map Prod.fst

/-- The name of a variable, or its number if it has none. -/
def describe (e : Engine) (v : VarId) : String := (e.name? v).getD (toString v)

/-- The engine with one more note. -/
def note (e : Engine) (n : Note) : Engine := { e with journal := e.journal.push n }

/-- The engine with another count. -/
def count (e : Engine) (f : Counters → Counters) : Engine := { e with counters := f e.counters }

/-- The engine after a change of its space, with the notes on the requests in it. -/
def withSpace (e : Engine) (s : Space) : Engine :=
  { e with
    space := s
    journal := e.journal ++ Note.ofUpdates e.space.store s.store }

/-- The engine without the events of its store. -/
def clearRaised (e : Engine) : Engine :=
  { e with space := { e.space with store := { e.store with raised := [] } } }

/-- The engine without anything to tell its propagators. -/
def clearPending (e : Engine) : Engine :=
  { e with slots := e.slots.map fun s => { s with pending := [] } }

end Engine

namespace Action

/-- The call is a misuse unless a condition holds. -/
def require (allowed : Bool) (m : Misuse) : Action Unit :=
  if allowed then pure () else throw (.misuse m)

/-- The call is at fault unless the variable exists. -/
def requireVariable (v : VarId) : Action Unit := do
  if !(← get).store.has v then throw (.unknownVariable v)

end Action

end FiniteDomain
