import FiniteDomain.Explanation
import FiniteDomain.Store.Basic

/-!
The past of the store.

Positions number the updates on the trail; the failed request, if there is one,
stands at the position after the last update.  Explanations are given in terms
of the domains just before and just after a position.

* `Store.request?`: the request at a position;
* `Store.isRootLevel`, `Store.isDecision`: where it was made, and why;
* `Store.domainAfter`, `Store.removedBefore`: domains around a position;
* `Store.explainByScope`: the explanation that any propagator may give;
* `Store.onRoot`: a literal on a view as a literal on its root;
* `Store.falsified?`: the update that made a literal false.
-/

namespace FiniteDomain

namespace Store

/-- The number of updates on the trail. -/
def length (s : Store) : Nat := s.trail.length

/-- The request at a position of the trail, or the failed one right after it. -/
def request? (s : Store) (position : Nat) : Option Request :=
  if position = s.length then s.failure
  else (s.trail.entries[position]?).map Update.request

/-- Whether a position lies before the first checkpoint. -/
def isRootLevel (s : Store) (position : Nat) : Bool :=
  s.trail.level == 0 || decide (position < s.trail.extent 0)

/-- Whether the request was made by nobody, after the first checkpoint. -/
def isDecision (s : Store) (position : Nat) (r : Request) : Bool :=
  r.cause.isNone && !s.isRootLevel position

/-- The domain just after a position; a failed request leaves none. -/
def domainAfter (s : Store) (v : VarId) (position : Nat) : IntervalSet :=
  if position = s.length then ∅ else s.domainAt v (position + 1)

/-- The values the variable lost before a position. -/
def removedBefore (s : Store) (v : VarId) (position : Nat) : IntervalSet :=
  s.initial v \ s.domainAt v position

/-- The least value just before a position. -/
def lowerAt (s : Store) (v : VarId) (position : Nat) : Int := (s.domainAt v position).lower

/-- The greatest value just before a position. -/
def upperAt (s : Store) (v : VarId) (position : Nat) : Int := (s.domainAt v position).upper

/-- The explanation of a request by everything that a scope lost before it: each
variable has one of the values it lost, or the updated variable one of those it
kept. -/
def explainByScope (s : Store) (position : Nat) (r : Request) (scope : List VarId) :
    Explanation :=
  scope.foldl (fun e v =>
    let lost := s.removedBefore v position
    if v = r.var then e.addPivot v (lost ∪ s.domainAfter v position) else e.add v lost) {}

/-- The literal on the root that a literal on the variable stands for: the initial
values of the root at which the variable has a value that is allowed. -/
def onRoot (s : Store) (l : Literal) : Literal :=
  ⟨s.root l.var, (s.chain l.var).preimage l.allowed (s.history l.var).initial⟩

/-- The latest position at which a root still had one of the values. -/
def falsified? (s : Store) (root : VarId) (allowed : IntervalSet) : Option Nat :=
  (s.history root).positions.find? fun p => (s.domainAt root p).intersects allowed

end Store

end FiniteDomain
