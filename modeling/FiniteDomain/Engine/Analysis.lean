import FiniteDomain.Engine.Basic

/-!
Conflict analysis.

A failure is explained by a clause that is false at the current domains.  As
long as one of its literals was made false by a propagator, the latest such
update is resolved: the explanation of the update takes the place of the
literal.  Literals made false before the first checkpoint stay false, and are
dropped.  What is left are literals made false by decisions.

* `Engine.explain`: the explanation of an update by the propagator that made it;
* `Resolution.merge`, `Resolution.resolve`: an explanation taken into a clause;
* `Resolution.latest?`: the update to resolve next;
* `Engine.analyse`: the clause on decisions.
-/

namespace FiniteDomain

namespace Engine

/-- The explanation of a request by the propagator that made it. -/
def explanationOf (e : Engine) (position : Nat) (r : Request) : Option Explanation :=
  match r.cause with
  | none => none
  | some p => (e.propagator? p).map (Propagator.explain e.store position r)

/-- The explanation of the update at a position; decisions and facts have none. -/
def explain (e : Engine) (position : Nat) : Except Misuse (Option Explanation) :=
  match e.store.request? position with
  | none => .error (.noUpdate position)
  | some r => .ok (e.explanationOf position r)

end Engine

namespace Resolution

/-- The literals of an explanation on roots, merged by root. -/
def reason (s : Store) (x : Explanation) : Clause := Clause.addAll (x.clause.map s.onRoot) []

/-- The clause with all literals of an explanation. -/
def merge (s : Store) (x : Explanation) (c : Clause) : Clause :=
  Clause.addAll (reason s x).nonempty c

/-- The clause with the literal on `root` cut down to the values that the
explanation allows it, and with the other literals of the explanation. -/
def resolve (s : Store) (x : Explanation) (root : VarId) (c : Clause) : Clause :=
  let pivot := ((reason s x).allowed? root).getD ∅
  let cut := c.map fun l => if l.var = root then ⟨l.var, l.allowed ∩ pivot⟩ else l
  Clause.addAll ((reason s x).without root).nonempty
    (cut.filter fun l => decide (l.var ≠ root) || !l.allowed.isEmpty)

/-- The position at which a literal was made false, if that was after the first
checkpoint. -/
def position? (s : Store) (l : Literal) : Option Nat :=
  (s.falsified? l.var l.allowed).filter fun p => !s.isRootLevel p

/-- The literals that were made false after the first checkpoint. -/
def standing (s : Store) (c : Clause) : Clause := c.filter fun l => (position? s l).isSome

/-- The update that made the literal false, if a propagator asked for it. -/
def caused? (s : Store) (l : Literal) : Option (Nat × VarId × Request) := do
  let p ← position? s l
  let r ← s.request? p
  if r.cause.isSome then some (p, l.var, r) else none

/-- The later of two updates. -/
def later (a b : Nat × VarId × Request) : Nat × VarId × Request := if a.1 < b.1 then b else a

/-- The latest of the updates of propagators that made a literal false. -/
def latest? (s : Store) (c : Clause) : Option (Nat × VarId × Request) :=
  match c.filterMap (caused? s) with
  | [] => none
  | u :: us => some (us.foldl later u)

/-- Resolves one update after another, until decisions are left.  There is no clause if an update
has no explanation. -/
def loop (e : Engine) : Nat → Clause → Except Fault (Option Clause)
  | 0, _ => .error .exhausted
  | rounds + 1, c =>
    let c := standing e.store c
    match latest? e.store c with
    | none => .ok (some c)
    | some (p, root, r) =>
      match e.explanationOf p r with
      | none => .ok none
      | some x => loop e rounds (resolve e.store x root c)

/-- The literals cut down to initial values, in the order of their variables. -/
def finish (s : Store) (c : Clause) : Clause :=
  Clause.sorted (Clause.nonempty (c.map fun l => ⟨l.var, l.allowed ∩ s.initial l.var⟩))

/-- The number of rounds that the resolution is given.  The position resolved
becomes smaller from round to round, so that one round for each position and one
more would do. -/
def rounds (s : Store) : Nat := (s.length + 2) * (s.length + 2)

end Resolution

namespace Engine

/-- The clause on decisions that the failure leads to; there is none if no
propagator asked for the request that failed. -/
def resolveConflict : Action (Option Clause) := do
  let e ← get
  match e.explain e.store.length with
  | .error m => throw (.misuse m)
  | .ok none => return none
  | .ok (some x) =>
    match Resolution.loop e (Resolution.rounds e.store) (Resolution.merge e.store x []) with
    | .error fault => throw fault
    | .ok none => return none
    | .ok (some c) =>
      let learned := Resolution.finish e.store c
      set (e.note (.learned learned))
      return some learned

/-- The clause on decisions that the failure of the engine leads to. -/
def analyse : Action (Option Clause) := do
  Action.require (← get).isFailed .analysisWithoutFailure
  resolveConflict

end Engine

end FiniteDomain
