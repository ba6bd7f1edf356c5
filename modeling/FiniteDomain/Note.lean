import FiniteDomain.Literal
import FiniteDomain.Store.Basic

/-!
Notes on what an engine does.

* `Note`: what is worth a note;
* `Note.level`, `Note.text`: how important it is, and its wording;
* `Note.ofUpdates`: the notes on the requests between two states of a store.
-/

namespace FiniteDomain

/-- How important a note is. -/
inductive NoteLevel
  | trace
  | debug
  | info
  | warn
  deriving DecidableEq, Repr

namespace NoteLevel

/-- The name of the level. -/
def name : NoteLevel → String
  | trace => "TRACE"
  | debug => "DEBUG"
  | info => "INFO"
  | warn => "WARN"

/-- The rank of the level; more important levels have a higher rank. -/
def rank : NoteLevel → Nat
  | trace => 0
  | debug => 1
  | info => 2
  | warn => 3

end NoteLevel

/-- What an engine did. -/
inductive Note
  | updated (u : Update)
  | refused (r : Request)
  | added (name : String) (p : PropId)
  | propagated (name : String) (p : PropId)
  | reacted (name : String) (p : PropId) (events : EventSet) (index : Nat)
  | raised (cause : Option PropId) (events : EventSet) (v : VarId)
  | failed (name : String) (p : PropId) (i : Inconsistency)
  | infeasible
  | learned (c : Clause)
  | alwaysTrue
  | alwaysTrueOnRoots
  | postingMember (l : Literal)
  | postingClause (size : Nat)
  | dropped (size : Nat)
  | remark (text : String)
  deriving DecidableEq

namespace Note

/-- The level of the note. -/
def level : Note → NoteLevel
  | updated _ | refused _ | propagated _ _ | reacted _ _ _ _ | raised _ _ _ => .trace
  | dropped _ => .warn
  | remark _ => .info
  | _ => .debug

/-- The propagator behind a request. -/
def causeText : Option PropId → String
  | none => "None"
  | some p => "Some(" ++ toString p ++ ")"

/-- The wording of the note. -/
def text : Note → String
  | updated u =>
    toString u.root ++ " " ++ toString u.operation ++ " (requested " ++ toString u.request.var
      ++ " " ++ toString u.request.operation ++ ") by " ++ causeText u.request.cause
  | refused r =>
    "failed to apply " ++ toString r.var ++ " " ++ toString r.operation ++ " by "
      ++ causeText r.cause
  | added name p => "Adding propagator " ++ name ++ " as " ++ toString p
  | propagated name _ => "Full propagation of " ++ name
  | reacted name _ events index =>
    "Propagation of " ++ name ++ " for " ++ toString events ++ " on local index "
      ++ toString index
  | raised _ events v => "Events " ++ toString events ++ " on " ++ toString v
  | failed name _ i => name ++ " failed with " ++ i.message
  | infeasible => "The problem was declared infeasible"
  | learned c => "Learned clause " ++ c.toString
  | alwaysTrue => "The clause is always true, nothing is posted"
  | alwaysTrueOnRoots =>
    "The clause is always true after eliminating views, nothing is posted"
  | postingMember l => "Posting " ++ toString l.var ++ " ∈ " ++ toString l.allowed
  | postingClause size => "Posting a clause with " ++ toString size ++ " literals"
  | dropped size =>
    "A clause builder with " ++ toString size
      ++ " literals was dropped without building the clause"
  | remark text => text

/-- The note with its level in front. -/
def line (n : Note) : String := n.level.name ++ ": " ++ n.text

/-- The notes on the requests that led from one state of a store to a later one. -/
def ofUpdates (old new : Store) : List Note :=
  (new.trail.entries.toList.drop old.trail.length).map updated
    ++ (if old.failure.isNone then new.failure.toList.map refused else [])

end Note

end FiniteDomain
