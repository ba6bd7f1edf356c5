import FiniteDomain.Assoc
import FiniteDomain.History
import FiniteDomain.Trail
import FiniteDomain.View

/-!
The store of domains.

A root variable has a domain that becomes smaller with every update, of which
it keeps the history.  A view has no domain of its own: the store keeps the chain
of views that leads to its root, and every question about a view is answered
through the chain.  Variables are numbered in order of creation.

* `Request`, `Update`: what was asked of a variable, and what became of it;
* `Store`: the variables, the trail, the failed request and the events that
  were raised and not yet taken;
* `Store.addRoot`, `Store.addView`: new variables;
* `Store.reading`: what is asked of a variable, without its domain as a set;
* `Store.domain`, `Store.domainAt`, `Store.initial`: the domain of a variable
  now, just before a position, and when it was created.
-/

namespace FiniteDomain

/-- An operation asked of a variable, and the propagator that asked for it;
decisions and facts have no propagator. -/
structure Request where
  var : VarId
  operation : Operation
  cause : Option PropId
  deriving DecidableEq

/-- A request that was carried out: the root it narrowed, and by what operation. -/
structure Update where
  root : VarId
  operation : Operation
  request : Request
  deriving DecidableEq

/-- A variable: a root with its history and the views that follow it, or a view
with the chain that leads to its root. -/
inductive Variable
  | root (history : History) (followers : List VarId)
  | view (chain : Chain) (root : VarId)

/-- The domains of all variables and the log of their updates. -/
structure Store where
  vars : Array Variable := #[]
  trail : Trail Update := {}
  /-- The request that could not be carried out, if there is one. -/
  failure : Option Request := none
  /-- The events since they were last taken, merged by variable. -/
  raised : Assoc VarId EventSet := []

namespace Store

/-! ### Questions -/

/-- Whether the variable exists. -/
def has (s : Store) (v : VarId) : Bool := decide (v.index < s.vars.size)

/-- The variables, in order of creation. -/
def ids (s : Store) : List VarId := (List.range s.vars.size).map VarId.mk

/-- The root that the variable follows; a root follows itself. -/
def root (s : Store) (v : VarId) : VarId :=
  match s.vars[v.index]? with
  | some (.view _ r) => r
  | _ => v

/-- The views from the variable down to its root. -/
def chain (s : Store) (v : VarId) : Chain :=
  match s.vars[v.index]? with
  | some (.view ws _) => ws
  | _ => []

/-- The view that the variable is, if it is one. -/
def view? (s : Store) (v : VarId) : Option View := (s.chain v).head?

/-- The history of the root that the variable follows. -/
def history (s : Store) (v : VarId) : History :=
  match s.vars[(s.root v).index]? with
  | some (.root h _) => h
  | _ => default

/-- The views that follow a root, in the order in which their events are raised. -/
def followers (s : Store) (root : VarId) : List VarId :=
  match s.vars[root.index]? with
  | some (.root _ vs) => vs
  | _ => []

/-- The answers of the variable: those of its root, or of flags that follow from them. -/
def reading (s : Store) (v : VarId) : Reading := (s.chain v).reading (s.history v).reading

/-- The domain of the variable; of a view, the set of its flags. -/
def domain (s : Store) (v : VarId) : IntervalSet :=
  match s.chain v with
  | [] => (s.history v).current
  | w :: ws => (w.flags (Chain.reading ws (s.history v).reading)).toSet

/-- The domain of the variable when it was created; of a view, the image of the
domain of its root. -/
def initial (s : Store) (v : VarId) : IntervalSet := (s.chain v).image (s.history v).initial

/-- The domain of the variable just before the update at a position. -/
def domainAt (s : Store) (v : VarId) (position : Nat) : IntervalSet :=
  (s.chain v).image ((s.history v).domainAt position)

/-- The least value of the variable. -/
def lower (s : Store) (v : VarId) : Int := (s.reading v).lower

/-- The greatest value of the variable. -/
def upper (s : Store) (v : VarId) : Int := (s.reading v).upper

/-- Whether the variable can take the value. -/
def contains (s : Store) (v : VarId) (k : Int) : Bool := (s.reading v).contains k

/-- Whether the variable has one value left. -/
def isFixed (s : Store) (v : VarId) : Bool := s.lower v == s.upper v

/-- The number of values left to all roots together. -/
def volume (s : Store) : Nat :=
  s.vars.toList.foldr (fun x n =>
    match x with
    | .root h _ => h.current.size + n
    | .view _ _ => n) 0

/-! ### New variables -/

/-- The store with a new root, and its number. -/
def addRoot (s : Store) (d : IntervalSet) : VarId × Store :=
  (⟨s.vars.size⟩, { s with vars := s.vars.push (.root { initial := d } []) })

/-- The followers of a root with a new view on `base`: it comes right after its
base, before the views that follow its base already. -/
def follow (base root new : VarId) (vs : List VarId) : List VarId :=
  if base = root then new :: vs
  else vs.flatMap fun v => if v = base then [v, new] else [v]

/-- The store with a new view, and its number. -/
def addView (s : Store) (w : View) : VarId × Store :=
  let new : VarId := ⟨s.vars.size⟩
  let root := s.root w.base
  let vars := s.vars.modify root.index fun x =>
    match x with
    | .root h vs => .root h (follow w.base root new vs)
    | .view ws r => .view ws r
  (new, { s with vars := vars.push (.view (w :: s.chain w.base) root) })

end Store

end FiniteDomain
