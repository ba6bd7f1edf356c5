import FiniteDomain.Demonstration

/-!
The command line of the demonstration.

* `Options`, `Options.parse?`: the switches, and how they are read;
* `CommandLine.run`: the exit code and the lines written.
-/

namespace FiniteDomain

/-- The switches of the command line.  Each may be given once. -/
structure Options where
  verbose : Bool := false
  statistics : Bool := false
  resolution : Option Strategy := none
  deriving DecidableEq, Repr

/-- The strategy of a name. -/
def Strategy.ofName? : String → Option Strategy
  | "all-decision" => some .allDecision
  | "no-learning" => some .noLearning
  | _ => none

namespace Options

/-- Switches the details on. -/
def setVerbose (o : Options) : Option Options :=
  if o.verbose then none else some { o with verbose := true }

/-- Switches the statistics on. -/
def setStatistics (o : Options) : Option Options :=
  if o.statistics then none else some { o with statistics := true }

/-- Sets the strategy by its name. -/
def setResolution (o : Options) (name : String) : Option Options :=
  match o.resolution, Strategy.ofName? name with
  | none, some s => some { o with resolution := some s }
  | _, _ => none

/-- What an argument leaves to be read. -/
inductive Pending
  /-- Nothing. -/
  | nothing
  /-- The name of a strategy, in the next argument. -/
  | strategy

/-- Reads the letters of an argument with one dash.  What follows a `C` is the
name of the strategy, with or without an equals sign. -/
def readLetters : List Char → Options → Option (Options × Pending)
  | [], o => some (o, .nothing)
  | 'v' :: cs, o => o.setVerbose.bind (readLetters cs)
  | 's' :: cs, o => o.setStatistics.bind (readLetters cs)
  | ['C'], o => some (o, .strategy)
  | 'C' :: '=' :: cs, o => (o.setResolution (String.ofList cs)).map (·, .nothing)
  | 'C' :: cs, o => (o.setResolution (String.ofList cs)).map (·, .nothing)
  | _, _ => none

/-- Reads an argument with two dashes. -/
def readWord (word : List Char) (o : Options) : Option (Options × Pending) :=
  let name := String.ofList (word.takeWhile (· != '='))
  match name, word.dropWhile (· != '=') with
  | "verbose", [] => o.setVerbose.map (·, .nothing)
  | "statistics", [] => o.setStatistics.map (·, .nothing)
  | "resolution", [] => some (o, .strategy)
  | "resolution", _ :: value => (o.setResolution (String.ofList value)).map (·, .nothing)
  | _, _ => none

/-- Reads one argument. -/
def read (arg : String) (o : Options) : Option (Options × Pending) :=
  match arg.toList with
  | '-' :: '-' :: c :: cs => readWord (c :: cs) o
  | '-' :: c :: cs => if c = '-' then none else readLetters (c :: cs) o
  | _ => none

/-- Reads all arguments; none stands for a usage error.  Two dashes end the
switches, after which nothing may follow. -/
def parse? : List String → Options → Option Options
  | [], o => some o
  | ["--"], o => some o
  | arg :: args, o =>
    match read arg o with
    | none => none
    | some (o, .nothing) => parse? args o
    | some (o, .strategy) =>
      match args with
      | [] => none
      | value :: args => (o.setResolution value).bind (parse? args)

end Options

/-- What the program leaves behind. -/
structure Outcome where
  code : UInt32
  lines : List String
  deriving DecidableEq, Repr

namespace CommandLine

/-- The notes that are shown: remarks and warnings, and the steps of the engine
if details are asked for. -/
def shown (verbose : Bool) (n : Note) : Bool :=
  let least : NoteLevel := if verbose then .debug else .info
  decide (least.rank ≤ n.level.rank)

/-- How statistics are written, if they are asked for. -/
def reporter (enabled : Bool) : Option Reporter := Reporter.configure none enabled ⟨"%%", none⟩

/-- The lines of the demonstration, and its exit code. -/
def demonstrate (o : Options) : Outcome :=
  let start : Engine := { strategy := o.resolution.getD .allDecision }
  let (ended, e) :=
    match Demonstration.script start with
    | .ok ended e => (ended, e)
    | .error _ e => (false, e)
  let story := (e.journal.toList.filter (shown o.verbose)).map fun n => "% " ++ n.text
  if ended then
    ⟨0, story ++ Reporter.report (reporter o.statistics) e.counters.entries⟩
  else ⟨1, story⟩

/-- Runs the program with some arguments. -/
def run (args : List String) : Outcome :=
  match Options.parse? args {} with
  | some o => demonstrate o
  | none => ⟨2, []⟩

end CommandLine

end FiniteDomain
