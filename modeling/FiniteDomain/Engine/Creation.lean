import FiniteDomain.Engine.Basic

/-!
New variables and new constraints.

* `Engine.newVariable`, `Engine.newSparseVariable`: roots with a domain;
* `Engine.newView`: views on existing variables;
* `Engine.add`: one constraint, whose propagator is called at the next
  propagation;
* `Engine.post`: several constraints, up to the first that is not accepted;
* `Engine.declareInfeasible`: after that, no constraint is accepted.
-/

namespace FiniteDomain

namespace Engine

/-- The engine with a name for a variable. -/
def rename (e : Engine) (v : VarId) : Option String → Engine
  | some name => { e with names := (v, name) :: e.names }
  | none => e

/-- A new root with a given domain. -/
def newRoot (d : IntervalSet) (name : Option String) : Action VarId := do
  Action.require (!(← get).isFailed) .newVariableAfterFailure
  Action.require (!d.isEmpty) .emptyDomain
  let e ← get
  let (v, store) := e.store.addRoot d
  set ({ e with space := { e.space with store := store } }.rename v name)
  return v

/-- A new root with the values between two bounds. -/
def newVariable (lo hi : Int) (name : Option String) : Action VarId := do
  Action.require (decide (lo ≤ hi)) (.crossedBounds lo hi)
  newRoot (.ofRange lo hi) name

/-- A new root with the given values. -/
def newSparseVariable (values : List Int) (name : Option String) : Action VarId :=
  newRoot (.ofList values) name

/-- A new view on an existing variable; a negation needs a boolean one. -/
def newView (w : View) : Action VarId := do
  let e ← get
  Action.require (e.store.has w.base) .missingBase
  if w.condition = .negation then
    Action.require ((e.store.initial w.base).isSubset (.ofRange 0 1)) .negationOfNonBoolean
  let (v, store) := e.store.addView w
  set { e with space := { e.space with store := store } }
  return v

/-- The first variable that a propagator watches and that does not exist. -/
def unknown? (e : Engine) (q : Propagator) : Option VarId :=
  (q.scope.zipIdx.find? fun v => !(q.condition v.2).isEmpty && !e.store.has v.1).map Prod.fst

/-- The engine with one more propagator, whose memory is made already. -/
def accept (e : Engine) (q : Propagator) (m : Memory) : Engine :=
  let p : PropId := ⟨e.slots.size⟩
  { e.note (.added q.name p) with
    space := { e.space with memory := m.addActivity }
    slots := e.slots.push { propagator := q }
    agenda := e.agenda.enqueue p q.priority }

/-- Posts a constraint, and returns the number of its propagator. -/
def add (c : Constraint) : Action (Except PostError PropId) := do
  let e ← get
  if e.infeasible then return .error .infeasibleState
  Action.require (!e.isFailed) .propagatorAfterFailure
  match c.propagator e.memory with
  | .error reason => return .error reason
  | .ok (q, m) =>
    if q.scope.isEmpty then
      return .error (.malformed ("the scope of " ++ q.name ++ " is empty"))
    match e.unknown? q with
    | some v => throw (.unknownVariable v)
    | none =>
      set (e.accept q m)
      return .ok ⟨e.slots.size⟩

/-- Posts constraints one after another. -/
def post : List Constraint → Action (Except PostError Unit)
  | [] => return .ok ()
  | c :: cs => do
    match ← add c with
    | .error reason => return .error reason
    | .ok _ => post cs

/-- The problem has no solution. -/
def declareInfeasible : Action Unit :=
  modify fun e => { e.note .infeasible with infeasible := true }

end Engine

end FiniteDomain
