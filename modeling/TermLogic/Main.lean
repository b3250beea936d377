import TermLogic.CommandLine

/-!
# The program

Hands the arguments and the environment to `CommandLine.run`, and prints what it answers.
-/

/-- The environment variable that gives the bound on rounds if no argument does. -/
def TermLogic.boundVariable : String := "SUBATOMIC_MAX_ITERATIONS"

/-- The entry point. -/
def main (arguments : List String) : IO UInt32 := do
  let environment ← IO.getEnv TermLogic.boundVariable
  let exit := TermLogic.CommandLine.run arguments environment
  IO.print exit.output
  IO.eprint exit.message
  return exit.code.toUInt32
