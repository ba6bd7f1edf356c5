import FiniteDomain.Engine.Basic

/-!
Decisions and propagation.

A decision is an update that no propagator asked for.  Every update raises
events, which are told to the propagators that ask for them, except to the one
that made the update; a propagator that is told something joins the agenda.
Propagation calls the propagators on the agenda until it is empty or one of them
fails.

* `Decision`: what can be asked of a variable;
* `Engine.decide`: one decision;
* `Engine.notify`: the events told to the propagators;
* `Engine.work`: one propagator called;
* `Engine.propagate`: propagators called until none waits.
-/

namespace FiniteDomain

/-- What can be asked of a variable. -/
inductive Decision
  | apply (op : Operation)
  | bounds (lo hi : Int)
  | restrict (allowed : IntervalSet)
  deriving DecidableEq

/-- The change of the store that a decision on a variable makes. -/
def Decision.change (v : VarId) : Decision → Store.Change
  | apply op => Store.apply none v op
  | bounds lo hi => Store.updateBounds none v lo hi
  | restrict allowed => Store.restrictTo none v allowed

/-- The indices of the scope at which a propagator asks for events on a variable. -/
def Slot.interested (s : Slot) (v : VarId) (events : EventSet) : List Nat :=
  (s.propagator.scope.zipIdx.filter fun w =>
    decide (w.1 = v) && (s.propagator.condition w.2).meets events).map Prod.snd

/-- The slot with events to be told at some indices. -/
def Slot.tell (s : Slot) (events : EventSet) (indices : List Nat) : Slot :=
  { s with
    pending := indices.foldl (fun l i => Assoc.join EventSet.union i events l) s.pending }

/-- A call of propagators, which may stop. -/
abbrev Run := EStateM Stop Engine

namespace Engine

/-- The engine after the events on a variable were told to a propagator, unless
it made the update itself or is not active. -/
def tell (cause : Option PropId) (v : VarId) (events : EventSet) (e : Engine) (p : PropId) :
    Engine :=
  match e.slots[p.index]? with
  | none => e
  | some slot =>
    let indices := slot.interested v events
    if cause = some p ∨ e.memory.activity p ≠ .active ∨ indices.isEmpty then e
    else
      { e with
        slots := e.slots.setIfInBounds p.index (slot.tell events indices)
        agenda := e.agenda.enqueue p slot.propagator.priority }

/-- The engine after the events on one variable were told to all propagators. -/
def notifyOne (cause : Option PropId) (e : Engine) (raised : VarId × EventSet) : Engine :=
  let e := (e.note (.raised cause raised.2 raised.1)).count
    fun c => { c with domainEvents := c.domainEvents + 1 }
  e.propIds.foldl (tell cause raised.1 raised.2) e

/-- The engine after all raised events were told to the propagators. -/
def notify (cause : Option PropId) (e : Engine) : Engine :=
  e.store.raised.foldl (notifyOne cause) e.clearRaised

/-- The engine after a failure: nothing waits and nothing is told. -/
def fail (e : Engine) (i : Inconsistency) : Engine :=
  { (e.clearRaised.clearPending).count fun c => { c with conflicts := c.conflicts + 1 } with
    phase := .failed
    conflict := some i
    agenda := e.agenda.clear }

/-- A decision on a variable: whether a domain changed, or the failure. -/
def decide (v : VarId) (d : Decision) : Action (Except Inconsistency Bool) := do
  Action.require (!(← get).isFailed) .changeAfterFailure
  Action.requireVariable v
  let e ← get
  match d.change v e.store with
  | .ok changed store =>
    set ((e.withSpace { e.space with store := store }).notify none)
    return .ok changed
  | .error i store =>
    set ((e.withSpace { e.space with store := store }).fail i)
    return .error i

/-- Runs a propagator, and tells the others what it did. -/
def call (p : PropId) (f : Filter Unit) : Run Unit := fun e =>
  match f e.space with
  | .ok _ s => .ok () ((e.withSpace s).notify (some p))
  | .error stop s => .error stop (e.withSpace s)

/-- The engine right before a propagator is called from scratch. -/
def activated (e : Engine) (p : PropId) (q : Propagator) : Engine :=
  { (e.note (.propagated q.name p)).count
      fun c => { c with fullPropagations := c.fullPropagations + 1 } with
    phase := .starting
    space := { e.space with memory := e.memory.setActivity p .active } }

/-- Calls a propagator from scratch. -/
def start (p : PropId) (q : Propagator) : Run Unit := do
  modify fun e => e.activated p q
  call p (q.propagate p)

/-- The engine right before a propagator is called for the events at an index. -/
def alerted (e : Engine) (p : PropId) (q : Propagator) (index : Nat) (events : EventSet) :
    Engine :=
  { (e.note (.reacted q.name p events index)).count
      fun c => { c with incrementalPropagations := c.incrementalPropagations + 1 } with
    phase := .reacting }

/-- Calls a propagator for the events it has to be told of, one index after
another, until it is passive. -/
def deliver (p : PropId) (q : Propagator) : Assoc Nat EventSet → Run Unit
  | [] => pure ()
  | (index, events) :: others => do
    if !(← get).isPassive p then
      modify fun e => e.alerted p q index events
      call p (q.react p index events)
      deliver p q others

/-- Calls a propagator in the way that its activity asks for. -/
def work (p : PropId) : Run Unit := do
  let e ← get
  match e.slots[p.index]? with
  | none => pure ()
  | some slot =>
    set { e with slots := e.slots.setIfInBounds p.index { slot with pending := [] } }
    match e.memory.activity p with
    | .passive => pure ()
    | .inactive => start p slot.propagator
    | .active =>
      if slot.propagator.fine then deliver p slot.propagator slot.pending
      else start p slot.propagator

/-- Calls the propagators on the agenda, until it is empty or one fails. -/
def drain : Nat → Run Unit
  | 0 => throw .exhausted
  | rounds + 1 => fun e =>
    match e.agenda.pop with
    | none => .ok () e
    | some (p, agenda) =>
      match work p { e with agenda := agenda } with
      | .ok _ e => drain rounds e
      | .error (.inconsistent i) e =>
        let name := ((e.propagator? p).map Propagator.name).getD ""
        .error (.inconsistent i) ((e.note (.failed name p i)).fail i)
      | .error .exhausted e => .error .exhausted e

/-- The number of calls that propagation is given.  A call puts propagators on
the agenda only if it removed a value. -/
def rounds (e : Engine) : Nat := e.slots.size * e.space.rounds + 1

/-- Propagates until nothing changes, or returns the failure.  A failed engine
returns the failure it holds. -/
def propagate : Action (Except Inconsistency Unit) := do
  let e ← get
  match e.conflict with
  | some i => return .error i
  | none =>
    match drain e.rounds e with
    | .ok _ e => set { e with phase := .idle }; return .ok ()
    | .error (.inconsistent i) e => set e; return .error i
    | .error .exhausted e => set e; throw .exhausted

end Engine

end FiniteDomain
