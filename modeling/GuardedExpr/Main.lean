/-
The command line program.
-/
import GuardedExpr.CommandLine.Session

open GuardedExpr

/-- Run the command line. The standard input is read only when there is no expression. -/
def main (args : List String) : IO UInt32 := do
  let outcome ← match Options.ofArguments? args with
    | none => pure misuse
    | some o => do
      let input ← if o.expression.isSome then pure "" else (← IO.getStdin).readToEnd
      pure (o.run input)
  IO.print outcome.output
  IO.eprint outcome.errors
  return outcome.status.toUInt32
