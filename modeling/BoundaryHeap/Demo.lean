import BoundaryHeap.Heap.Access
import BoundaryHeap.Settings

/-!
# A demonstration

A short program that shows a heap at work: it makes a heap from the environment, allocates two
blocks, writes to them, releases them in order, and dumps the heap after every step. What it shows
is its log, so the environment also says how much of the log is wanted.
-/

set_option autoImplicit false

namespace BoundaryHeap.Demo

/-- The variable that says which events are wanted. -/
def logVariable : String := "RUST_LOG"

def variableNames : List String :=
  ["TAGHEAP_ARENA_BYTES", "TAGHEAP_CHUNK_SIZE", "TAGHEAP_STRICT", logVariable]

/-- The level that a text asks for: a name in any case, or a number from 1 up; the empty text asks
for errors. Any other text, `off` and `0` among them, wants nothing of this program. -/
def levelAsked? (s : String) : Option Level :=
  match s.map Char.toLower with
  | "" => some .error
  | "error" => some .error
  | "warn" => some .warn
  | "info" => some .info
  | "debug" => some .debug
  | "trace" => some .trace
  | other =>
    (Text.numeralBelow? 6 other.toList).bind fun n =>
      [Level.error, .warn, .info, .debug, .trace].find? fun l => l.rank == n

/-- The least severe level that is wanted, if any. Where the variable is not set to text, that is
`info`. -/
def threshold? (env : Environment) : Option Level :=
  match env.text? logVariable with
  | some s => levelAsked? s
  | none => some .info

/-- Write the letter `A`, by which the program marks its blocks. -/
def mark (heap : Heap) (p : Nat) : Except Fault Heap :=
  heap.stamp p 1 65

/-- What the program does once it has its heap and its two blocks. -/
def work (heap : Heap) (p q : Nat) : Traced Bool := do
  Traced.emit (.pairAllocated p q)
  let heap ← mark heap p
  let heap ← mark heap q
  let _ ← heap.check true
  let heap ← heap.releaseBlock p
  let _ ← heap.check true
  let heap ← heap.releaseBlock q
  let report ← heap.check true
  let size ← heap.tearDown
  Traced.emit (.finished size report.stats.freeBytes)
  return report.isOk

/-- The program. The answer is whether all went well. -/
def run (env : Environment) : Traced Bool := do
  match ← Heap.create (Settings.ofEnvironment env) with
  | .error e =>
    Traced.emit (.setupFailed e)
    return false
  | .ok heap =>
    let _ ← heap.check true
    let (first, heap) ← heap.allocate 8
    let (second, heap) ← heap.allocate 1024
    match first, second with
    | some p, some q => work heap p q
    | _, _ =>
      Traced.emit .requestFailed
      return false

/-- The lines of the program's log that are wanted. -/
def log (env : Environment) (events : List Event) : List String :=
  match threshold? env with
  | some level => logLines level events
  | none => []

end BoundaryHeap.Demo
