import FiniteDomain.Decimal
import FiniteDomain.Lines

/-!
Statistics of an engine.

* `Counters`: what an engine counts;
* `Counters.entries`: the names and values of the statistics;
* `Reporter`, `Reporter.configure`: how statistics are written; the first
  configuration stays;
* `Reporter.text`, `Reporter.report`: the text of one statistic, and the lines
  written for several.
-/

namespace FiniteDomain

/-- What an engine counts. -/
structure Counters where
  fullPropagations : Nat := 0
  incrementalPropagations : Nat := 0
  domainEvents : Nat := 0
  conflicts : Nat := 0
  learnedClauses : Nat := 0
  /-- The literals of all learned clauses together. -/
  learnedLiterals : Nat := 0
  deriving DecidableEq, Repr

/-- The statistics by name. -/
def Counters.entries (c : Counters) : List (String × String) :=
  [("numberOfFullPropagations", toString c.fullPropagations),
   ("numberOfIncrementalPropagations", toString c.incrementalPropagations),
   ("numberOfDomainEvents", toString c.domainEvents),
   ("numberOfConflicts", toString c.conflicts),
   ("numberOfLearnedClauses", toString c.learnedClauses),
   ("averageLearnedClauseLength", Decimal.ofQuotient c.learnedLiterals c.learnedClauses)]

/-- How statistics are written: what stands in front of each, and the line that
closes a report, if there is one. -/
structure Reporter where
  marker : String
  closing : Option String
  deriving DecidableEq, Repr

namespace Reporter

/-- The reporter after one more configuration: the first that switches statistics
on takes effect. -/
def configure (current : Option Reporter) (enabled : Bool) (r : Reporter) : Option Reporter :=
  match current with
  | some c => some c
  | none => if enabled then some r else none

/-- The text of one statistic. -/
def text (r : Reporter) (name value : String) : String := r.marker ++ " " ++ name ++ "=" ++ value

/-- The lines of some statistics with the closing line; none without a reporter.
A name with line feeds spreads its statistic over several lines. -/
def report (r : Option Reporter) (entries : List (String × String)) : List String :=
  match r with
  | some r => Lines.ofTexts (entries.map (fun e => r.text e.1 e.2) ++ r.closing.toList)
  | none => []

end Reporter

end FiniteDomain
