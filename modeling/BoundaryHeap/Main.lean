import BoundaryHeap.Demo

/-!
# The demonstration as a program

Reads the environment, runs the demonstration, writes its log to the standard error stream, and
exits with 0 if all went well.
-/

set_option autoImplicit false

/-- Run the demonstration. A fault exits with 101. -/
def main : IO UInt32 := do
  let values ← BoundaryHeap.Demo.variableNames.mapM fun name => return (name, ← IO.getEnv name)
  let env : BoundaryHeap.Environment := fun name => (values.lookup name).join.map String.toUTF8
  let traced := BoundaryHeap.Demo.run env
  for line in BoundaryHeap.Demo.log env traced.events do
    IO.eprintln line
  match traced.result with
  | .ok true => return 0
  | .ok false => return 1
  | .error f =>
    IO.eprintln (f.message?.getD "value out of range")
    return 101
