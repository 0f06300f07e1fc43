import BoundaryHeap.Workload.KeyStream

/-!
# Workloads

A workload is a list of steps for a heap. Steps do not name blocks, because no block exists yet
when the workload is drawn. They name slots in the row of the blocks that are live when the step is
taken, and slot numbers wrap around.

Of ten steps five allocate, four release and one moves a block. Of ten sizes eight are at most 128,
and the others go up to a limit.
-/

set_option autoImplicit false

namespace BoundaryHeap

inductive Step where
  | allocate (size : Nat)
  | release (slot : Nat)
  | resize (slot size : Nat)
deriving DecidableEq

namespace Step

/-- The largest slot number that is drawn. -/
def slotLimit : Nat := UInt64.size - 2

def drawSize (s : KeyStream) (maxSize : Nat) : Nat × KeyStream :=
  let (kind, s) := s.range 0 9
  if kind < 8 then s.range 1 128 else s.range 1 (max maxSize 1)

def draw (s : KeyStream) (maxSize : Nat) : Step × KeyStream :=
  let (kind, s) := s.range 0 9
  if kind ≤ 4 then
    let (size, s) := drawSize s maxSize
    (allocate size, s)
  else if kind ≤ 8 then
    let (slot, s) := s.range 0 slotLimit
    (release slot, s)
  else
    let (slot, s) := s.range 0 slotLimit
    let (size, s) := drawSize s maxSize
    (resize slot size, s)

def drawMany (s : KeyStream) (maxSize : Nat) : (count : Nat) → List Step
  | 0 => []
  | count + 1 =>
    let (step, s) := draw s maxSize
    step :: drawMany s maxSize count

def mixedWorkload (seed : UInt64) (count maxSize : Nat) : List Step :=
  drawMany (KeyStream.ofSeed seed) maxSize count

end Step

end BoundaryHeap
