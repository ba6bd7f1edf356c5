import FiniteDomain.Engine.Learning
import FiniteDomain.Engine.Propagation

/-!
Sessions.

A session is an engine together with at most one clause builder, driven by
commands.  A command that was not allowed leaves the engine as it was, but the
builder is given up.

* `Command`, `Reply`: what can be asked, and the answers;
* `Target`: where to go back to, by level or by number of checkpoints;
* `Session.step`: one command;
* `Session.run`: several commands.
-/

namespace FiniteDomain

/-- Where to go back to. -/
inductive Target
  /-- To the checkpoint of a level. -/
  | level (n : Nat)
  /-- By a number of checkpoints, but not further than to the first. -/
  | back (n : Nat)
  deriving DecidableEq, Repr

/-- The level that is meant. -/
def Target.resolve (e : Engine) : Target → Nat
  | level n => n
  | back n => e.level - n

/-- What can be asked of a session. -/
inductive Command
  | newVariable (lo hi : Int) (name : Option String)
  | newSparseVariable (values : List Int) (name : Option String)
  | newView (w : View)
  | decide (v : VarId) (d : Decision)
  | add (c : Constraint)
  | post (cs : List Constraint)
  | propagate
  | checkpoint
  | restore (t : Target)
  | handleConflict (t : Target)
  | analyse
  | declareInfeasible
  | newBuilder
  | put (l : Literal)
  | forbid (v : VarId) (forbidden : IntervalSet)
  | build

/-- The answer to a command. -/
inductive Reply
  | done
  | variable (v : VarId)
  | propagator (p : PropId)
  | changed (b : Bool)
  | level (n : Nat)
  | learned (c : Option Clause)
  /-- Whether the clause builder holds no literal. -/
  | isEmpty (b : Bool)
  | inconsistent (i : Inconsistency)
  | refused (reason : PostError)

/-- Why a command came to nothing. -/
inductive SessionFault
  | engine (f : Fault)
  /-- There is no clause builder. -/
  | noBuilder
  deriving DecidableEq, Repr

/-- An engine and at most one clause builder. -/
structure Session where
  engine : Engine := {}
  builder : Option ClauseBuilder := none

/-- The answer to a command, and what it leaves. -/
abbrev Session.Action := EStateM SessionFault Session

namespace Session

/-- The session after a command was not allowed: a misuse costs the builder. -/
def dropBuilder (s : Session) : Session := { s with builder := none }

/-- A call of the engine. -/
def onEngine {α : Type} (f : FiniteDomain.Action α) : Session.Action α := fun s =>
  match f s.engine with
  | .ok a e => .ok a { s with engine := e }
  | .error fault e => .error (.engine fault) { s with engine := e }.dropBuilder

/-- The answer to a result that may be an inconsistency. -/
def replyOf {α : Type} (f : α → Reply) : Except Inconsistency α → Reply
  | .ok a => f a
  | .error i => .inconsistent i

/-- The answer to a result that may be a refusal. -/
def replyOfPost {α : Type} (f : α → Reply) : Except PostError α → Reply
  | .ok a => f a
  | .error reason => .refused reason

/-- The clause builder, with a variable that it knows. -/
def builderFor (v : VarId) : Session.Action ClauseBuilder := do
  match (← get).builder with
  | none => throw .noBuilder
  | some b =>
    if b.store.has v then return b else throw (.engine (.unknownVariable v))

/-- Keeps a clause builder, and says whether it is empty. -/
def keep (b : ClauseBuilder) : Session.Action Reply := do
  modify fun s => { s with builder := some b }
  return .isEmpty b.isEmpty

/-- Makes a new clause builder.  An old one that still holds literals is noted. -/
def renewBuilder (s : Session) : Session :=
  let engine :=
    match s.builder with
    | some b => if b.isEmpty then s.engine else s.engine.note (.dropped b.literals.length)
    | none => s.engine
  { engine := engine, builder := some { store := s.engine.store } }

/-- Carries out a command. -/
def step : Command → Session.Action Reply
  | .newVariable lo hi name => return .variable (← onEngine (Engine.newVariable lo hi name))
  | .newSparseVariable values name =>
    return .variable (← onEngine (Engine.newSparseVariable values name))
  | .newView w => return .variable (← onEngine (Engine.newView w))
  | .decide v d => return replyOf .changed (← onEngine (Engine.decide v d))
  | .add c => return replyOfPost .propagator (← onEngine (Engine.add c))
  | .post cs => return replyOfPost (fun _ => .done) (← onEngine (Engine.post cs))
  | .propagate => return replyOf (fun _ => .done) (← onEngine Engine.propagate)
  | .checkpoint => return .level (← onEngine Engine.checkpoint)
  | .restore t => do
    onEngine (Engine.restore (t.resolve (← get).engine))
    return .done
  | .handleConflict t => do
    let result ← onEngine (Engine.handleConflict (t.resolve (← get).engine))
    return replyOfPost .learned result
  | .analyse => return .learned (← onEngine Engine.analyse)
  | .declareInfeasible => do
    onEngine Engine.declareInfeasible
    return .done
  | .newBuilder => do
    modify renewBuilder
    return .done
  | .put l => do keep ((← builderFor l.var).put l)
  | .forbid v forbidden => do keep ((← builderFor v).forbid v forbidden)
  | .build => do
    match (← get).builder with
    | none => throw .noBuilder
    | some b =>
      let result ← onEngine (Engine.build b)
      modify fun s => { s with builder := some b.reset }
      return replyOfPost (fun _ => .done) result

/-- The session after a command, whatever the answer. -/
def after (s : Session) (c : Command) : Session :=
  match step c s with
  | .ok _ s => s
  | .error _ s => s

/-- The session after several commands. -/
def run (s : Session) (cs : List Command) : Session := cs.foldl after s

/-- A new session with a strategy for conflicts. -/
def new (strategy : Strategy) : Session := { engine := { strategy := strategy } }

end Session

end FiniteDomain
