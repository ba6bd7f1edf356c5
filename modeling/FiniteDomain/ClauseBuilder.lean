import FiniteDomain.Literal
import FiniteDomain.Store.Basic

/-!
Building clauses.

A clause builder collects literals, and turns them into a clause on roots.
Literals are judged by the initial domains of the variables that exist when the
builder is made: one that always holds makes the whole clause hold, one that
never holds is left out.  Literals on views are replaced by literals on their
bases, from the newest view down.

* `ClauseBuilder.put`, `ClauseBuilder.forbid`: one more literal;
* `ClauseBuilder.onRoots`: the literals on views replaced;
* `ClauseBuilder.result`: what has to be posted.
-/

namespace FiniteDomain

/-- A clause in the making. -/
structure ClauseBuilder where
  /-- The store that the builder was made for. -/
  store : Store
  literals : Clause := []
  /-- Whether a literal was put in, be it left out or not. -/
  started : Bool := false
  /-- Whether some literal always holds. -/
  certain : Bool := false

namespace ClauseBuilder

/-- The initial domain of a variable. -/
def initial (b : ClauseBuilder) (v : VarId) : IntervalSet := b.store.initial v

/-- Whether the builder holds no literal. -/
def isEmpty (b : ClauseBuilder) : Bool := b.literals.isEmpty

/-- The builder with one more literal, cut down to initial values.  A literal on
a constant is not kept: it always holds or never. -/
def addLiteral (b : ClauseBuilder) (l : Literal) : ClauseBuilder :=
  let d := b.initial l.var
  if d.size = 1 then { b with certain := b.certain || l.allowed.contains d.lower }
  else if l.allowed.intersects d then
    { b with
      certain := b.certain || d.isSubset l.allowed
      literals := b.literals.add ⟨l.var, l.allowed ∩ d⟩ }
  else b

/-- The variable takes one of the allowed values. -/
def put (b : ClauseBuilder) (l : Literal) : ClauseBuilder :=
  { b with started := true }.addLiteral l

/-- The variable takes none of the forbidden values. -/
def forbid (b : ClauseBuilder) (v : VarId) (forbidden : IntervalSet) : ClauseBuilder :=
  b.put ⟨v, b.initial v \ forbidden⟩

/-- Replaces the literal on a view by one on its base, and goes on with that
along the chain. -/
def descend : Chain → VarId → ClauseBuilder → ClauseBuilder
  | [], _, b => b
  | w :: ws, v, b =>
    match b.literals.allowed? v with
    | none => b
    | some values =>
      let rest := { b with literals := b.literals.without v }
      let below := w.preimage values (b.initial w.base)
      if below.isEmpty then rest else descend ws w.base (rest.addLiteral ⟨w.base, below⟩)

/-- The builder with the literals on views replaced, the newest view first. -/
def onRoots (b : ClauseBuilder) : ClauseBuilder :=
  b.literals.sorted.reverse.foldl (fun b l => descend (b.store.chain l.var) l.var b) b

/-- What a builder amounts to. -/
inductive Result
  /-- A literal always holds. -/
  | alwaysTrue
  /-- A literal always holds once the views are replaced. -/
  | alwaysTrueOnRoots
  /-- No literal was ever put in. -/
  | nothing
  /-- No literal can hold. -/
  | neverTrue
  /-- One literal is left. -/
  | member (l : Literal)
  /-- Several literals are left. -/
  | clause (c : Clause)

/-- What has to be posted. -/
def result (b : ClauseBuilder) : Result :=
  if b.certain then .alwaysTrue
  else if !b.started then .nothing
  else
    let b := b.onRoots
    if b.certain then .alwaysTrueOnRoots
    else
      match b.literals.nonempty.sorted with
      | [] => .neverTrue
      | [l] => .member l
      | c => .clause c

/-- The builder without its literals. -/
def reset (b : ClauseBuilder) : ClauseBuilder := { store := b.store }

end ClauseBuilder

end FiniteDomain
