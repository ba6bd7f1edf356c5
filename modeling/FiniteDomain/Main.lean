import FiniteDomain.CommandLine

/-!
The program: the demonstration, with its switches on the command line.
-/

/-- Writes the lines of the program and ends with its code. -/
def main (args : List String) : IO UInt32 := do
  let outcome := FiniteDomain.CommandLine.run args
  for line in outcome.lines do
    IO.println line
  if outcome.code = 2 then
    IO.eprintln "usage: propagate [-v] [-s] [-C all-decision|no-learning]"
  return outcome.code
