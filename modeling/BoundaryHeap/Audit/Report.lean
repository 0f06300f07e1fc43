import BoundaryHeap.Audit.RingWalk
import BoundaryHeap.Block.Walk
import BoundaryHeap.Settings
import BoundaryHeap.Traced

/-!
# The report of an audit

An audit looks at the prologue, walks over the blocks, walks round the ring, and compares how many
free blocks each walk met. It writes nothing, and asking for the dump adds events but changes no
finding. `enforce` is what a heap then does with the report.
-/

set_option autoImplicit false

namespace BoundaryHeap

structure HeapReport where
  stats : HeapStats
  ringLength : Nat
  /-- Everything that is wrong, in the order in which it was met. -/
  violations : List Violation
deriving DecidableEq

namespace HeapReport

def isOk (r : HeapReport) : Bool :=
  r.violations.isEmpty

/-- Tell all violations. In strict mode, stop at the first. -/
def enforce (r : HeapReport) : CheckMode → Traced Unit
  | .lenient => Traced.emitAll (r.violations.map (.violationFound .warn ·))
  | .strict => do
    Traced.emitAll (r.violations.map (.violationFound .error ·))
    match r.violations with
    | [] => return ()
    | first :: _ => Traced.fault (.checkFailed first)

end HeapReport

/-- A difference between the free blocks met by address and those met on the ring. -/
def countViolations (inHeap inList : Nat) : List Violation :=
  if inHeap = inList then [] else [.freeCountMismatch inHeap inList]

namespace Arena

/-! ## The dump -/

/-- The line of one block. The links of a free block and of the prologue are shown, if they lie in
the heap. -/
def dumpBlock (a : Arena) (p : Nat) (header footer : Tag) : Except Fault Event := do
  if (header.isFree ∨ p = prologue) ∧ p + 2 * wordSize ≤ a.brk then
    let links ← a.links p
    return .blockDumped p header footer (some (links.prev, links.next))
  else return .blockDumped p header footer none

/-- The lines of a walk: one for each block, and one for an end where blocks can end. -/
def dumpWalk (a : Arena) (w : BlockWalk) : Except Fault (List Event) := do
  let lines ← w.visits.mapM fun v => a.dumpBlock v.payload v.header v.footer
  match w.ending with
  | .emptyBlock p _ => return lines ++ [.dumpClosed p]
  | .aboveMark _ | .tooLong _ _ => return lines

/-! ## The audit -/

/-- Look at everything, and dump the blocks if `verbose`. -/
def inspect (a : Arena) (verbose : Bool) : Traced HeapReport := do
  if verbose then Traced.emit (.dumpOpened a.highest?)
  let (header, footer) ← a.prologueTags
  if verbose then Traced.emit (← a.dumpBlock prologue header footer)
  let walk ← a.blockWalk
  if verbose then Traced.emitAll (← a.dumpWalk walk)
  let ring ← a.ringWalk
  let stats ← a.stats
  return {
    stats
    ringLength := ring.nodes.length
    violations :=
      prologueViolations header footer ++ walk.violations a.brk ++ ring.violations ++
        countViolations walk.freeCount ring.nodes.length }

end Arena

end BoundaryHeap
